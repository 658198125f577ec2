import Mathlib.Data.Finset.Card
import Mathlib.Data.Finset.Range
import Mathlib.Data.Nat.Find
import Ucore.Fs.Sfs.Layout

/-!
# `Fs.Sfs.Bitmap` — `kern/fs/sfs/bitmap.c`, the free map

A set bit marks a free block. The code works on 32-bit words; `Bitmap.bit` is the view of the same data
bit by bit, `Bitmap.setBits` the number of set bits. The lemmas say what each function does in that
view: `bitmap_alloc` clears the lowest set bit, `bitmap_free` sets the given one.
-/

namespace Ucore

/-- `struct bitmap` -/
structure Bitmap where
  nbits : Nat
  nwords : Nat
  map : Nat → BitVec 32

abbrev BitmapM (α : Type) := Proc SfsPanic Int Bitmap α

namespace Bitmap

/-- The mask `1 << offset`. -/
def mask (offset : Nat) : BitVec 32 := 1#32 <<< offset

/-- Bit `i` of the map. -/
def bit (b : Bitmap) (i : Nat) : Bool := (b.map (i / 32)).getLsbD (i % 32)

/-- `map[ix] ^= mask` -/
def flip (b : Bitmap) (i : Nat) : Bitmap :=
  { b with map := Function.update b.map (i / 32) (b.map (i / 32) ^^^ mask (i % 32)) }

/-- `*word |= mask` -/
def raise (b : Bitmap) (i : Nat) : Bitmap :=
  { b with map := Function.update b.map (i / 32) (b.map (i / 32) ||| mask (i % 32)) }

/-- The number of set bits. -/
def setBits (b : Bitmap) : Nat := ((Finset.range (32 * b.nwords)).filter fun i => b.bit i).card

end Bitmap

/-- The bits a word keeps beyond `nbits` in the last word are marked in use. -/
def bitmapOverbits (w : BitVec 32) (overbits : Nat) : Nat → BitVec 32
  | 0     => w
  | n + 1 => bitmapOverbits (w ^^^ Bitmap.mask overbits) (overbits + 1) n

def bitmapCreate (nbits : Nat) : Bitmap :=
  let nwords := roundupDiv nbits 32
  let ix := nwords - 1
  let overbits := nbits - ix * 32
  { nbits := nbits
    nwords := nwords
    map := fun i =>
      if i = ix ∧ nbits ≠ nwords * 32 then bitmapOverbits (BitVec.allOnes 32) overbits (32 - overbits)
      else BitVec.allOnes 32 }

/-- The inner loop of `bitmap_alloc`. -/
def bitmapAllocWord (word : BitVec 32) : Nat → Nat → Option Nat
  | _, 0          => none
  | offset, n + 1 =>
    if word &&& Bitmap.mask offset ≠ 0#32 then some offset else bitmapAllocWord word (offset + 1) n

/-- The outer loop of `bitmap_alloc`. -/
def bitmapAllocLoop : Nat → Nat → BitmapM Nat
  | _, 0      => Proc.fail (-eNoMem)
  | ix, n + 1 => do
    let b ← Proc.get
    if b.map ix ≠ 0#32 then
      match bitmapAllocWord (b.map ix) 0 32 with
      | some offset => do
        Proc.modify fun b =>
          { b with map := Function.update b.map ix (b.map ix ^^^ Bitmap.mask offset) }
        pure (ix * 32 + offset)
      | none => Proc.stop .bitmapAllocWord
    else bitmapAllocLoop (ix + 1) n

def bitmapAlloc : BitmapM Nat := do
  let b ← Proc.get
  bitmapAllocLoop 0 b.nwords

def bitmapTest (index : Nat) : BitmapM Bool := do
  let b ← Proc.get
  Proc.check .bitmapTranslate (index < b.nbits)
  pure (decide (b.map (index / 32) &&& Bitmap.mask (index % 32) ≠ 0#32))

def bitmapFree (index : Nat) : BitmapM Unit := do
  let b ← Proc.get
  Proc.check .bitmapTranslate (index < b.nbits)
  Proc.check .bitmapFree (b.map (index / 32) &&& Bitmap.mask (index % 32) = 0#32)
  Proc.modify fun b => b.raise index

/-- `bitmap_getdata`: the bytes of the words. -/
def bitmapGetdata (b : Bitmap) : Bytes := fun i =>
  UInt8.ofNat ((b.map (i / 4)).toNat / 256 ^ (i % 4))

namespace Bitmap

variable {b : Bitmap} {i j : Nat}

/-! ## The bit view -/

theorem and_mask_ne_zero {w : BitVec 32} {o : Nat} (h : o < 32) :
    w &&& mask o ≠ 0#32 ↔ w.getLsbD o = true := by
  constructor
  · intro hne
    by_contra hb
    apply hne
    ext k hk
    simp only [mask, BitVec.getElem_and, BitVec.getElem_shiftLeft, BitVec.getElem_zero]
    by_cases hko : k = o
    · subst hko
      simp only [Bool.not_eq_true] at hb
      rw [← BitVec.getLsbD_eq_getElem, hb, Bool.false_and]
    · by_cases hlt : k < o
      · simp [hlt]
      · have : k - o ≠ 0 := by omega
        simp [hlt, this]
  · intro hb hz
    have hbit := congrArg (·.getLsbD o) hz
    simp only [mask, BitVec.getLsbD_and, hb, BitVec.getLsbD_zero] at hbit
    simp [h] at hbit

theorem getLsbD_mask {o k : Nat} (h : k < 32) : (mask o).getLsbD k = decide (k = o) := by
  simp only [mask, BitVec.getLsbD_shiftLeft, BitVec.getLsbD_one, h, decide_true, Bool.true_and]
  by_cases hko : k = o
  · subst hko; simp
  · by_cases hlt : k < o
    · simp [hlt, hko]
    · have : k - o ≠ 0 := by omega
      simp [hlt, hko, this]

theorem same_bit (i j : Nat) : (j / 32 = i / 32 ∧ j % 32 = i % 32) ↔ j = i := by omega

/-- Changing one word by a mask changes one bit. -/
theorem bit_update {f : BitVec 32 → BitVec 32} {g : Bool → Bool}
    (hf : ∀ w k, k < 32 → (f w).getLsbD k = if k = i % 32 then g (w.getLsbD k) else w.getLsbD k) :
    bit { b with map := Function.update b.map (i / 32) (f (b.map (i / 32))) } j
      = if j = i then g (b.bit j) else b.bit j := by
  have hk : j % 32 < 32 := Nat.mod_lt _ (by omega)
  unfold bit
  by_cases hw : j / 32 = i / 32
  · simp only [hw, Function.update_self]
    rw [hf _ _ hk]
    by_cases hm : j % 32 = i % 32
    · rw [if_pos hm, if_pos ((same_bit i j).mp ⟨hw, hm⟩)]
    · rw [if_neg hm, if_neg (fun he => hm (by rw [he]))]
  · simp only [Function.update_of_ne hw]
    rw [if_neg (fun he => hw (by rw [he]))]

@[simp] theorem bit_flip : (b.flip i).bit j = if j = i then !b.bit j else b.bit j := by
  refine bit_update (f := fun w => w ^^^ mask (i % 32)) (g := not) fun w k hk => ?_
  rw [BitVec.getLsbD_xor, getLsbD_mask hk]
  by_cases h : k = i % 32 <;> simp [h]

@[simp] theorem bit_raise : (b.raise i).bit j = (decide (j = i) || b.bit j) := by
  have h := bit_update (b := b) (i := i) (j := j) (f := fun w => w ||| mask (i % 32)) (g := fun _ => true)
    fun w k hk => by
      rw [BitVec.getLsbD_or, getLsbD_mask hk]
      by_cases h : k = i % 32 <;> simp [h]
  rw [show (b.raise i).bit j = _ from h]
  by_cases hj : j = i <;> simp [hj]

@[simp] theorem nbits_flip : (b.flip i).nbits = b.nbits := rfl
@[simp] theorem nwords_flip : (b.flip i).nwords = b.nwords := rfl
@[simp] theorem nbits_raise : (b.raise i).nbits = b.nbits := rfl
@[simp] theorem nwords_raise : (b.raise i).nwords = b.nwords := rfl

/-- Freeing what was just allocated gives the map back. -/
theorem raise_flip (h : b.bit i = true) : (b.flip i).raise i = b := by
  have hw : (b.map (i / 32) ^^^ mask (i % 32)) ||| mask (i % 32) = b.map (i / 32) := by
    ext k hk
    have hm := getLsbD_mask (o := i % 32) hk
    rw [BitVec.getLsbD_eq_getElem hk] at hm
    simp only [BitVec.getElem_or, BitVec.getElem_xor, hm]
    by_cases hki : k = i % 32
    · have hb : (b.map (i / 32))[k] = true := by
        rw [← BitVec.getLsbD_eq_getElem, hki]; exact h
      rw [hb, decide_eq_true hki]; rfl
    · simp [hki]
  unfold raise flip
  simp only [Function.update_self, Function.update_idem, hw, Function.update_eq_self]

/-! ## Counting -/

theorem setBits_flip (hi : i < 32 * b.nwords) (h : b.bit i = true) :
    (b.flip i).setBits + 1 = b.setBits := by
  have hset : (Finset.range (32 * (b.flip i).nwords)).filter (fun j => (b.flip i).bit j)
      = ((Finset.range (32 * b.nwords)).filter fun j => b.bit j).erase i := by
    ext j
    simp only [nwords_flip, Finset.mem_filter, Finset.mem_range, bit_flip, Finset.mem_erase]
    by_cases hj : j = i
    · subst hj; simp [h]
    · simp [hj]
  have hmem : i ∈ (Finset.range (32 * b.nwords)).filter fun j => b.bit j := by simp [hi, h]
  have hpos := Finset.card_pos.mpr ⟨i, hmem⟩
  unfold setBits
  rw [hset, Finset.card_erase_of_mem hmem]
  omega

theorem setBits_raise (hi : i < 32 * b.nwords) (h : b.bit i = false) :
    (b.raise i).setBits = b.setBits + 1 := by
  have hset : (Finset.range (32 * (b.raise i).nwords)).filter (fun j => (b.raise i).bit j)
      = insert i ((Finset.range (32 * b.nwords)).filter fun j => b.bit j) := by
    ext j
    simp only [nwords_raise, Finset.mem_filter, Finset.mem_range, bit_raise, Finset.mem_insert]
    by_cases hj : j = i
    · subst hj; simp [hi]
    · simp [hj]
  unfold setBits
  rw [hset, Finset.card_insert_of_notMem (by simp [h])]

/-- A set bit, if there is one. -/
theorem setBits_pos : 0 < b.setBits ↔ ∃ i, i < 32 * b.nwords ∧ b.bit i = true := by
  unfold setBits
  rw [Finset.card_pos]
  constructor
  · rintro ⟨i, hi⟩
    obtain ⟨h1, h2⟩ := Finset.mem_filter.mp hi
    exact ⟨i, Finset.mem_range.mp h1, h2⟩
  · rintro ⟨i, h1, h2⟩
    exact ⟨i, Finset.mem_filter.mpr ⟨Finset.mem_range.mpr h1, h2⟩⟩

end Bitmap

/-! ## The functions -/

section Functions

variable {b : Bitmap} {i : Nat}

theorem bitmapAllocWord_eq {w : BitVec 32} {o n k : Nat} (hk : o + n ≤ 32) (hok : o ≤ k) (hkn : k < o + n)
    (hset : w.getLsbD k = true) (hmin : ∀ j, o ≤ j → j < k → w.getLsbD j = false) :
    bitmapAllocWord w o n = some k := by
  induction n generalizing o with
  | zero => omega
  | succ n ih =>
    have hm := Bitmap.and_mask_ne_zero (w := w) (o := o) (by omega)
    unfold bitmapAllocWord
    by_cases he : o = k
    · subst he
      rw [if_pos (hm.mpr hset)]
    · have hf := hmin o (Nat.le_refl o) (by omega)
      rw [if_neg (fun hne => by rw [hm.mp hne] at hf; exact Bool.noConfusion hf)]
      exact ih (by omega) (by omega) (by omega) (fun j h1 h2 => hmin j (by omega) h2)

theorem word_eq_zero {w : BitVec 32} (h : ∀ k, k < 32 → w.getLsbD k = false) : w = 0#32 := by
  ext k hk
  rw [← BitVec.getLsbD_eq_getElem, h k hk]
  simp

/-- `bitmap_alloc` hands out the lowest set bit. -/
theorem bitmapAlloc_some (hi : i < 32 * b.nwords) (h : b.bit i = true)
    (hmin : ∀ j, j < i → b.bit j = false) : bitmapAlloc b = .ok i (b.flip i) := by
  have hbit : ∀ ix k, k < 32 → (b.map ix).getLsbD k = b.bit (ix * 32 + k) := by
    intro ix k hk
    have h1 : (ix * 32 + k) / 32 = ix := by omega
    have h2 : (ix * 32 + k) % 32 = k := by omega
    rw [Bitmap.bit, h1, h2]
  have hloop : ∀ n ix, ix + n = b.nwords → ix ≤ i / 32 →
      bitmapAllocLoop ix n b = .ok i (b.flip i) := by
    intro n
    induction n with
    | zero => intro ix _ _; omega
    | succ n ih =>
      intro ix hn hix
      unfold bitmapAllocLoop
      rw [Proc.get_bind]
      by_cases he : ix = i / 32
      · -- the word of the lowest set bit
        have hset : (b.map ix).getLsbD (i % 32) = true := by rw [he]; exact h
        have hne : b.map ix ≠ 0#32 := by
          intro hz
          rw [hz] at hset
          simp at hset
        have hword : bitmapAllocWord (b.map ix) 0 32 = some (i % 32) := by
          refine bitmapAllocWord_eq (by omega) (Nat.zero_le _) (by omega) hset fun j _ hj => ?_
          rw [hbit ix j (by omega)]
          exact hmin _ (by omega)
        rw [if_pos hne, hword]
        show Outcome.ok (ix * 32 + i % 32) _ = _
        have hi' : ix * 32 + i % 32 = i := by omega
        rw [hi', he]
        rfl
      · -- a word without a set bit
        have hz : b.map ix = 0#32 := word_eq_zero fun k hk => by
          rw [hbit ix k hk]
          exact hmin _ (by omega)
        rw [if_neg (fun hne => hne hz)]
        exact ih (ix + 1) (by omega) (by omega)
  exact hloop b.nwords 0 (Nat.zero_add _) (Nat.zero_le _)

theorem bitmapAlloc_none (h : ∀ i, i < 32 * b.nwords → b.bit i = false) :
    bitmapAlloc b = .err (-eNoMem) b := by
  have hloop : ∀ n ix, ix + n = b.nwords → bitmapAllocLoop ix n b = .err (-eNoMem) b := by
    intro n
    induction n with
    | zero => intro ix _; rfl
    | succ n ih =>
      intro ix hn
      have hz : b.map ix = 0#32 := word_eq_zero fun k hk => by
        have hb := h (ix * 32 + k) (by omega)
        have h1 : (ix * 32 + k) / 32 = ix := by omega
        have h2 : (ix * 32 + k) % 32 = k := by omega
        rwa [Bitmap.bit, h1, h2] at hb
      unfold bitmapAllocLoop
      rw [Proc.get_bind, if_neg (fun hne => hne hz)]
      exact ih (ix + 1) (by omega)
  exact hloop b.nwords 0 (Nat.zero_add _)

/-- The two ways `bitmap_alloc` can end. -/
theorem bitmapAlloc_cases (b : Bitmap) :
    (b.setBits = 0 ∧ bitmapAlloc b = .err (-eNoMem) b) ∨
    ∃ i, i < 32 * b.nwords ∧ b.bit i = true ∧ (∀ j, j < i → b.bit j = false) ∧
      bitmapAlloc b = .ok i (b.flip i) := by
  by_cases hz : ∃ i, i < 32 * b.nwords ∧ b.bit i = true
  · classical
    have hfind := Nat.find_spec hz
    have hmin : ∀ j, j < Nat.find hz → b.bit j = false := by
      intro j hj
      have hn := Nat.find_min hz hj
      by_contra hb
      exact hn ⟨by omega, by simpa using hb⟩
    exact Or.inr ⟨Nat.find hz, hfind.1, hfind.2, hmin, bitmapAlloc_some hfind.1 hfind.2 hmin⟩
  · refine Or.inl ⟨?_, bitmapAlloc_none fun i hi => ?_⟩
    · by_contra hne
      exact hz (Bitmap.setBits_pos.mp (by omega))
    · by_contra hb
      exact hz ⟨i, hi, by simpa using hb⟩

theorem bitmapTest_run (h : i < b.nbits) : bitmapTest i b = .ok (b.bit i) b := by
  have hm := Bitmap.and_mask_ne_zero (w := b.map (i / 32)) (o := i % 32) (by omega)
  unfold bitmapTest
  rw [Proc.get_bind, Proc.check_bind_pos h, Proc.pure_run]
  congr 1
  by_cases hb : b.bit i = true
  · rw [hb]; exact decide_eq_true (hm.mpr hb)
  · rw [Bool.not_eq_true] at hb
    rw [hb]
    exact decide_eq_false fun hne => by
      have := hm.mp hne
      rw [show (b.map (i / 32)).getLsbD (i % 32) = false from hb] at this
      exact Bool.noConfusion this

theorem bitmapFree_run (h : i < b.nbits) (hb : b.bit i = false) : bitmapFree i b = .ok () (b.raise i) := by
  have hm := Bitmap.and_mask_ne_zero (w := b.map (i / 32)) (o := i % 32) (by omega)
  have hz : b.map (i / 32) &&& Bitmap.mask (i % 32) = 0#32 := by
    by_contra hne
    have := hm.mp hne
    rw [show (b.map (i / 32)).getLsbD (i % 32) = false from hb] at this
    exact Bool.noConfusion this
  unfold bitmapFree
  rw [Proc.get_bind, Proc.check_bind_pos h, Proc.check_bind_pos hz, Proc.modify_run]

end Functions

end Ucore
