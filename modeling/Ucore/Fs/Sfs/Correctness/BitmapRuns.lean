import Ucore.Fs.Sfs.Bitmap
import Ucore.Lib.Run

/-!
# `Fs.Sfs.Correctness.BitmapRuns` — the bitmap as a set of free indexes

Over any run of calls a bitmap serves as the set `F` of its free indexes: `bitmap_alloc` takes the least one out,
`bitmap_free` puts one in, `bitmap_test` asks for one. The bits of the last word from `nbits` on are clear from the start,
and stay so.
-/

namespace Ucore

/-- `bitmap_create` with its assertions; `room` says whether there is memory for it. -/
def bitmapCreateCall (room : Bool) (nbits : Nat) : Proc SfsPanic Int Unit (Option Bitmap) := do
  Proc.check .bitmapCreate (nbits ≠ 0 ∧ nbits < nbits + 32)
  if ¬ room then pure none
  else do
    let nwords := roundupDiv nbits 32
    if nbits ≠ nwords * 32 then do
      let ix := nwords - 1
      let overbits := nbits - ix * 32
      Proc.check .bitmapCreate (nbits / 32 = ix)
      Proc.check .bitmapCreate (0 < overbits ∧ overbits < 32)
      pure (some (bitmapCreate nbits))
    else pure (some (bitmapCreate nbits))

/-- A call that returns, on the bitmap and the set of its free indexes. -/
inductive BitmapStep : Bitmap × Finset Nat → Unit → Bitmap × Finset Nat → Prop where
  | alloc {b b' : Bitmap} {F : Finset Nat} {i : Nat} (h : bitmapAlloc b = .ok i b') : BitmapStep (b, F) () (b', F.erase i)
  | full {b b' : Bitmap} {F : Finset Nat} {e : Int} (h : bitmapAlloc b = .err e b') : BitmapStep (b, F) () (b', F)
  | free {b b' : Bitmap} {F : Finset Nat} {i : Nat} (hclear : b.bit i = false) (h : bitmapFree i b = .ok () b') :
      BitmapStep (b, F) () (b', insert i F)
  | test {b b' : Bitmap} {F : Finset Nat} {i : Nat} {v : Bool} (h : bitmapTest i b = .ok v b') : BitmapStep (b, F) () (b', F)

variable {b b' : Bitmap} {F : Finset Nat} {nbits i k : Nat}

/-! ## The bits of a new bitmap -/

/-- The loop turns over the bits from `overbits` on. -/
theorem bitmapOverbits_bit {w : BitVec 32} {o n : Nat} (hk : k < 32) :
    (bitmapOverbits w o n).getLsbD k = (w.getLsbD k ^^ decide (o ≤ k ∧ k < o + n)) := by
  induction n generalizing w o with
  | zero =>
    have hnone : ¬ (o ≤ k ∧ k < o + 0) := by omega
    rw [bitmapOverbits, decide_eq_false hnone, Bool.xor_false]
  | succ n ih =>
    rw [bitmapOverbits, ih, BitVec.getLsbD_xor, Bitmap.getLsbD_mask hk, Bool.xor_assoc]
    congr 1
    by_cases ho : k = o
    · subst ho
      simp
    · have hiff : (o + 1 ≤ k ∧ k < o + 1 + n) ↔ (o ≤ k ∧ k < o + (n + 1)) := by omega
      rw [decide_eq_false ho, Bool.false_xor]
      exact decide_eq_decide.mpr hiff

/-- The words are those that `nbits` bits need. -/
theorem roundupDiv_bounds (nbits : Nat) : nbits ≤ 32 * roundupDiv nbits 32 ∧ 32 * roundupDiv nbits 32 < nbits + 32 := by
  unfold roundupDiv
  omega

/-- **`bitmap_create`** sets the bits below `nbits`, and no others of its words. -/
theorem bitmapCreate_bit (hi : i < 32 * roundupDiv nbits 32) : (bitmapCreate nbits).bit i = decide (i < nbits) := by
  obtain ⟨hle, hlt⟩ := roundupDiv_bounds nbits
  have hmod : i % 32 < 32 := Nat.mod_lt i (by decide)
  have hone : (BitVec.allOnes 32).getLsbD (i % 32) = true := by
    rw [BitVec.getLsbD_allOnes]
    exact decide_eq_true hmod
  unfold Bitmap.bit bitmapCreate
  by_cases hlast : i / 32 = roundupDiv nbits 32 - 1 ∧ nbits ≠ roundupDiv nbits 32 * 32
  · -- the last word, with bits to spare
    simp only [if_pos hlast]
    rw [bitmapOverbits_bit hmod, hone, Bool.true_xor, ← decide_not]
    refine decide_eq_decide.mpr ?_
    omega
  · simp only [if_neg hlast]
    rw [hone, eq_comm]
    refine decide_eq_true ?_
    omega

/-- The assertions of `bitmap_create` hold, but for the first one. -/
theorem bitmapCreateCall_run (hnbits : nbits ≠ 0) (u : Unit) :
    bitmapCreateCall true nbits u = .ok (some (bitmapCreate nbits)) u := by
  obtain ⟨hle, hlt⟩ := roundupDiv_bounds nbits
  rw [bitmapCreateCall, Proc.check_bind_pos ⟨hnbits, by omega⟩, if_neg (not_not_intro rfl)]
  by_cases hspare : nbits ≠ roundupDiv nbits 32 * 32
  · rw [if_pos hspare, Proc.check_bind_pos (by omega), Proc.check_bind_pos (by omega)]
    rfl
  · rw [if_neg hspare]
    rfl

theorem bitmapCreateCall_some {room : Bool} {u u' : Unit} (h : bitmapCreateCall room nbits u = .ok (some b) u') :
    b = bitmapCreate nbits := by
  have hnbits : nbits ≠ 0 := by
    rintro rfl
    rw [bitmapCreateCall, Proc.check_bind_neg (fun hne => hne.1 rfl)] at h
    cases h
  cases room with
  | false =>
    rw [bitmapCreateCall, Proc.check_bind_pos ⟨hnbits, by omega⟩] at h
    cases h
  | true =>
    rw [bitmapCreateCall_run hnbits] at h
    cases h
    rfl

/-! ## The invariant -/

/-- **The invariant**: below `nbits` the set bits are `F`, and the padding is clear. -/
structure Bitmap.Holds (b : Bitmap) (nbits : Nat) (F : Finset Nat) : Prop where
  nbits_eq : b.nbits = nbits
  nwords_eq : b.nwords = roundupDiv nbits 32
  bit_eq : ∀ i < 32 * b.nwords, b.bit i = decide (i ∈ F)
  free_lt : ∀ i ∈ F, i < nbits

namespace Bitmap.Holds

theorem create (nbits : Nat) : (bitmapCreate nbits).Holds nbits (Finset.range nbits) where
  nbits_eq := rfl
  nwords_eq := rfl
  bit_eq := by
    intro i hi
    rw [bitmapCreate_bit hi]
    simp
  free_lt := fun _ hi => Finset.mem_range.mp hi

theorem lt_words (h : b.Holds nbits F) (hi : i < nbits) : i < 32 * b.nwords := by
  have hle := (roundupDiv_bounds nbits).1
  rw [h.nwords_eq]
  omega

/-- A set bit of the words is a free index. -/
theorem mem_iff (h : b.Holds nbits F) (hi : i < 32 * b.nwords) : b.bit i = true ↔ i ∈ F := by
  rw [h.bit_eq i hi, decide_eq_true_iff]

theorem flip (h : b.Holds nbits F) (hmem : i ∈ F) : (b.flip i).Holds nbits (F.erase i) where
  nbits_eq := h.nbits_eq
  nwords_eq := h.nwords_eq
  bit_eq := by
    intro j hj
    rw [Bitmap.bit_flip, h.bit_eq j hj]
    by_cases hji : j = i
    · subst hji
      simp [hmem]
    · simp [hji]
  free_lt := fun j hj => h.free_lt j (Finset.mem_of_mem_erase hj)

theorem raise (h : b.Holds nbits F) (hi : i < nbits) : (b.raise i).Holds nbits (insert i F) where
  nbits_eq := h.nbits_eq
  nwords_eq := h.nwords_eq
  bit_eq := by
    intro j hj
    rw [Bitmap.bit_raise, h.bit_eq j hj]
    simp
  free_lt := by
    intro j hj
    rcases Finset.mem_insert.mp hj with rfl | hj
    · exact hi
    · exact h.free_lt j hj

/-! ## The calls -/

/-- **`bitmap_alloc`** takes the least free index. -/
theorem alloc (h : b.Holds nbits F) :
    F = ∅ ∧ bitmapAlloc b = .err (-eNoMem) b ∨
      ∃ i ∈ F, (∀ j ∈ F, i ≤ j) ∧ bitmapAlloc b = .ok i (b.flip i) := by
  rcases bitmapAlloc_cases b with ⟨hnone, hrun⟩ | ⟨i, hi, hbit, hmin, hrun⟩
  · refine .inl ⟨Finset.eq_empty_of_forall_notMem fun i hi => ?_, hrun⟩
    have hlt := h.lt_words (h.free_lt i hi)
    have hpos := Bitmap.setBits_pos.mpr ⟨i, hlt, (h.mem_iff hlt).mpr hi⟩
    omega
  · -- the scan meets the words and their bits in ascending order
    refine .inr ⟨i, (h.mem_iff hi).mp hbit, fun j hj => ?_, hrun⟩
    by_contra hlt
    have hset := (h.mem_iff (h.lt_words (h.free_lt j hj))).mpr hj
    rw [hmin j (by omega)] at hset
    exact Bool.noConfusion hset

/-- An index out of range ends in the assertion of `bitmap_translate`. -/
theorem translate (h : b.Holds nbits F) (hi : nbits ≤ i) :
    bitmapTest i b = .panic .bitmapTranslate ∧ bitmapFree i b = .panic .bitmapTranslate := by
  have hout : ¬ i < b.nbits := by
    rw [h.nbits_eq]
    omega
  constructor
  · rw [bitmapTest, Proc.get_bind, Proc.check_bind_neg hout]
  · rw [bitmapFree, Proc.get_bind, Proc.check_bind_neg hout]

/-- Every call keeps the invariant. -/
theorem step {u : Unit} {t : Bitmap × Finset Nat} (h : b.Holds nbits F) (hs : BitmapStep (b, F) u t) : t.1.Holds nbits t.2 := by
  cases hs with
  | alloc hrun =>
    rcases h.alloc with ⟨-, hnone⟩ | ⟨j, hmem, -, hsome⟩
    · rw [hnone] at hrun
      cases hrun
    · rw [hsome] at hrun
      cases hrun
      exact h.flip hmem
  | full hrun =>
    rcases h.alloc with ⟨-, hnone⟩ | ⟨j, -, -, hsome⟩
    · rw [hnone] at hrun
      cases hrun
      exact h
    · rw [hsome] at hrun
      cases hrun
  | @free _ _ _ i hclear hrun =>
    by_cases hi : i < nbits
    · rw [bitmapFree_run (h.nbits_eq ▸ hi) hclear] at hrun
      cases hrun
      exact h.raise hi
    · rw [(h.translate (by omega)).2] at hrun
      cases hrun
  | @test _ _ _ i v hrun =>
    by_cases hi : i < nbits
    · rw [bitmapTest_run (h.nbits_eq ▸ hi)] at hrun
      cases hrun
      exact h
    · rw [(h.translate (by omega)).1] at hrun
      cases hrun

end Bitmap.Holds

/-! ## Every run -/

/-- The bitmap, made by `bitmap_create(nbits)`, serves as the set `F`. -/
structure Bitmap.Serves (b : Bitmap) (nbits : Nat) (F : Finset Nat) : Prop where
  free_lt : ∀ i ∈ F, i < nbits
  bits : ∀ i < nbits, b.bit i = decide (i ∈ F)
  padding : ∀ i, nbits ≤ i → i < 32 * b.nwords → b.bit i = false
  words : b.nwords = roundupDiv nbits 32
  alloc : F.Nonempty → ∃ i ∈ F, (∀ j ∈ F, i ≤ j) ∧ ∃ b', bitmapAlloc b = .ok i b' ∧
    ∀ j, b'.bit j = (decide (j ≠ i) && b.bit j)
  full : F = ∅ → bitmapAlloc b = .err (-eNoMem) b
  test : ∀ i < nbits, bitmapTest i b = .ok (b.bit i) b
  free : ∀ i < nbits, b.bit i = false → ∃ b', bitmapFree i b = .ok () b' ∧ ∀ j, b'.bit j = (decide (j = i) || b.bit j)
  outside : ∀ i, nbits ≤ i → bitmapTest i b = .panic .bitmapTranslate ∧ bitmapFree i b = .panic .bitmapTranslate

theorem Bitmap.Holds.serves (h : b.Holds nbits F) : b.Serves nbits F where
  free_lt := h.free_lt
  bits := fun i hi => h.bit_eq i (h.lt_words hi)
  padding := by
    intro i hi hlt
    -- all bits of the words are those of `F`, which has no index from `nbits` on
    rw [h.bit_eq i hlt]
    refine decide_eq_false fun hmem => ?_
    have hin := h.free_lt i hmem
    omega
  words := h.nwords_eq
  alloc := by
    intro hne
    rcases h.alloc with ⟨hnone, -⟩ | ⟨i, hmem, hmin, hrun⟩
    · exact absurd hnone hne.ne_empty
    · refine ⟨i, hmem, hmin, b.flip i, hrun, fun j => ?_⟩
      rw [Bitmap.bit_flip]
      by_cases hji : j = i
      · subst hji
        simp [(h.mem_iff (h.lt_words (h.free_lt j hmem))).mpr hmem]
      · simp [hji]
  full := by
    intro hnone
    rcases h.alloc with ⟨-, hrun⟩ | ⟨i, hmem, -, -⟩
    · exact hrun
    · rw [hnone] at hmem
      exact absurd hmem (Finset.notMem_empty i)
  test := fun i hi => bitmapTest_run (h.nbits_eq ▸ hi)
  free := fun i hi hclear => ⟨b.raise i, bitmapFree_run (h.nbits_eq ▸ hi) hclear, fun j => Bitmap.bit_raise⟩
  outside := fun i hi => h.translate hi

/-- **The bitmap serves as a set of free indexes** in every run of its calls. -/
theorem bitmap_runs {b0 : Bitmap} {room : Bool} {u u' : Unit} (hcreate : bitmapCreateCall room nbits u = .ok (some b0) u')
    (h : Reaches (fun s => s = (b0, Finset.range nbits)) BitmapStep (fun _ _ => True) (b, F)) : b.Serves nbits F := by
  have hinv : b.Holds nbits F := by
    refine h.invariant (I := fun s => s.1.Holds nbits s.2) ?_ ?_
    · rintro s rfl
      rw [bitmapCreateCall_some hcreate]
      exact .create nbits
    · rintro ⟨b, F⟩ i t hb - hs
      exact hb.step hs
  exact hinv.serves

/-- Of five bits the first one is allocated. -/
theorem bitmap_runs_five : ((bitmapCreate 5).flip 0).Serves 5 ((Finset.range 5).erase 0) := by
  have hcreate : bitmapCreateCall true 5 () = .ok (some (bitmapCreate 5)) () := rfl
  have hbit : (bitmapCreate 5).bit 0 = true := by decide
  have halloc : bitmapAlloc (bitmapCreate 5) = .ok 0 ((bitmapCreate 5).flip 0) :=
    bitmapAlloc_some (by decide) hbit fun j hj => absurd hj (Nat.not_lt_zero j)
  exact bitmap_runs hcreate (.next (.start rfl) trivial (.alloc halloc))

end Ucore
