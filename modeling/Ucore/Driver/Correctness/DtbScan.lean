import Ucore.Driver.Dtb
import Mathlib.Tactic.Ring

/-!
# `Driver.Correctness.DtbScan` — one token of the device tree

The numbers of a device tree are big-endian (`getBe`). For each kind of token, what a turn of the scan needs to be able to read,
and where it goes from there (`turn_nop` and the others). `Returns` is the end of the scan, with any fuel that is large enough.
-/

namespace Ucore.Dtb

/-- The big-endian number in the `n` bytes from `a` on -/
def getBe (m : Bytes) (a : Nat) : Nat → Nat
  | 0     => 0
  | n + 1 => getBe m a n * 256 + (m (a + n)).toNat

/-- The 32-bit number at `a`: a token, a length, an offset. -/
def cell (m : Bytes) (a : Nat) : Nat := getBe m a 4

theorem shiftLeft_or {a b i : Nat} (h : b < 2 ^ i) : a <<< i ||| b = a * 2 ^ i + b := by
  rw [← Nat.shiftLeft_add_eq_or_of_lt h, Nat.shiftLeft_eq]

theorem fdt32_getLe (m : Bytes) (a : Nat) : fdt32ToCpu (getLe m a 4) = cell m a := by
  have hb := fun i => (m i).toNat_lt
  have hmask : ∀ x : Nat, x &&& 0xff = x % 256 := fun x => Nat.and_two_pow_sub_one_eq_mod x 8
  obtain ⟨b0, b1, b2, b3, hx, h0, h1, h2, h3, hcell⟩ : ∃ b0 b1 b2 b3 : Nat,
      getLe m a 4 = b0 + 256 * (b1 + 256 * (b2 + 256 * b3)) ∧ b0 < 256 ∧ b1 < 256 ∧ b2 < 256 ∧ b3 < 256 ∧
      cell m a = ((b0 * 256 + b1) * 256 + b2) * 256 + b3 :=
    ⟨_, _, _, _, by simp only [getLe, Nat.mul_zero, Nat.add_zero], hb a, hb (a + 1), hb (a + 1 + 1), hb (a + 1 + 1 + 1),
      by simp only [cell, getBe, Nat.zero_mul, Nat.zero_add, Nat.add_zero]⟩
  have hdiv : ∀ b y : Nat, b < 256 → (b + 256 * y) / 256 = y := fun b y hb => by omega
  have hmod : ∀ b y : Nat, b < 256 → (b + 256 * y) % 256 = b := fun b y hb => by omega
  have h8 : (2 : Nat) ^ 8 = 256 := rfl
  have h16 : (2 : Nat) ^ 16 = 256 * 256 := rfl
  have h24 : (2 : Nat) ^ 24 = 256 * 256 * 256 := rfl
  unfold fdt32ToCpu
  rw [hx, hcell]
  simp only [hmask, Nat.shiftRight_eq_div_pow, h8, h16, h24, ← Nat.div_div_eq_div_mul, hdiv _ _ h0, hdiv _ _ h1, hdiv _ _ h2,
    hmod _ _ h0, hmod _ _ h1, hmod _ _ h2, Nat.mod_eq_of_lt h3]
  rw [Nat.or_assoc, Nat.or_assoc, shiftLeft_or (a := b2) (i := 8) h3, shiftLeft_or (a := b1) (i := 16) (by omega),
    shiftLeft_or (a := b0) (i := 24) (by omega)]
  omega

theorem cell_lt (m : Bytes) (a : Nat) : cell m a < 2 ^ 32 := by
  have hb := fun i => (m i).toNat_lt
  have h0 := hb (a + 0)
  have h1 := hb (a + 1)
  have h2 := hb (a + 2)
  have h3 := hb (a + 3)
  simp only [cell, getBe]
  omega

theorem getLe_add (m : Bytes) (a n k : Nat) : getLe m a (n + k) = getLe m a n + 256 ^ n * getLe m (a + n) k := by
  induction n generalizing a with
  | zero => rw [Nat.zero_add, getLe, Nat.pow_zero, Nat.one_mul, Nat.zero_add, Nat.add_zero]
  | succ n ih =>
    have hplace : a + 1 + n = a + (n + 1) := by omega
    rw [Nat.succ_add, getLe, ih, getLe, hplace, Nat.pow_succ]
    ring

theorem getBe_add (m : Bytes) (a n k : Nat) : getBe m a (n + k) = getBe m a n * 256 ^ k + getBe m (a + n) k := by
  induction k with
  | zero => rw [Nat.add_zero, Nat.pow_zero, Nat.mul_one, getBe, Nat.add_zero]
  | succ k ih =>
    rw [← Nat.add_assoc, getBe, ih, getBe, Nat.pow_succ, Nat.add_assoc a]
    ring

theorem fdt64_getLe (m : Bytes) (a : Nat) : fdt64ToCpu (getLe m a 8) = getBe m a 8 := by
  have hlt : getLe m a 4 < 2 ^ 32 := getLe_lt m a 4
  have hmask : getLe m a 8 &&& 0xffffffff = getLe m a 4 := by
    rw [show (0xffffffff : Nat) = 2 ^ 32 - 1 from rfl, Nat.and_two_pow_sub_one_eq_mod, getLe_add m a 4 4]
    omega
  have hhigh : getLe m a 8 >>> 32 = getLe m (a + 4) 4 := by
    rw [Nat.shiftRight_eq_div_pow, getLe_add m a 4 4]
    omega
  rw [fdt64ToCpu, hmask, hhigh, fdt32_getLe, fdt32_getLe, shiftLeft_or (cell_lt m (a + 4)), getBe_add m a 4 4]
  rfl

/-! ## Reading -/

variable {v : View} {a n fuel : Nat} {ch : UInt8} {str : List UInt8}

/-- The `n` bytes from `a` on may be read. -/
def View.Covers (v : View) (a n : Nat) : Prop := ∀ i < n, v.readable (a + i) = true

theorem View.Covers.mono {b m : Nat} (h : v.Covers a n) (hlo : a ≤ b) (hhi : b + m ≤ a + n) : v.Covers b m := by
  intro i hi
  have := h (b - a + i) (by omega)
  rwa [← Nat.add_assoc, Nat.add_sub_cancel' hlo] at this

theorem load_eq_ok {x : Nat} : v.load a n = .ok x ↔ v.Covers a n ∧ getLe v.mem a n = x := by
  unfold View.load
  split
  · next h => exact ⟨fun heq => ⟨h, Except.ok.inj heq⟩, fun heq => by rw [heq.2]⟩
  · next h => exact ⟨fun heq => by simp at heq, fun heq => absurd heq.1 h⟩

theorem byte_eq_ok : v.byte a = .ok ch ↔ v.readable a = true ∧ v.mem a = ch := by
  unfold View.byte
  split
  · next h => exact ⟨fun heq => ⟨h, Except.ok.inj heq⟩, fun heq => by rw [heq.2]⟩
  · next h => exact ⟨fun heq => by simp at heq, fun heq => absurd heq.1 h⟩

theorem bind_eq_ok {α β : Type} {x : DtbM α} {f : α → DtbM β} {b : β} : (x >>= f) = .ok b ↔ ∃ a, x = .ok a ∧ f a = .ok b := by
  cases x with
  | error e => exact ⟨fun h => by simp [bind, Except.bind] at h, fun ⟨a, h, _⟩ => by simp at h⟩
  | ok a => exact ⟨fun h => ⟨a, rfl, h⟩, fun ⟨a', h, h'⟩ => by rwa [← Except.ok.inj h] at h'⟩

/-- At `a` is a string of length `n`, which may be read with its NUL. -/
structure View.HasString (v : View) (a n : Nat) : Prop where
  covers : v.Covers a (n + 1)
  ne_zero : ∀ i < n, v.mem (a + i) ≠ 0
  nul : v.mem (a + n) = 0

theorem View.HasString.tail (h : v.HasString a (n + 1)) : v.HasString (a + 1) n where
  covers := h.covers.mono (by omega) (by omega)
  ne_zero := fun i hi => by
    have := h.ne_zero (i + 1) (by omega)
    rwa [Nat.add_comm i, ← Nat.add_assoc] at this
  nul := by
    have := h.nul
    rwa [Nat.add_comm n, ← Nat.add_assoc] at this

theorem View.HasString.head (h : v.HasString a n) : v.readable a = true := h.covers 0 (by omega)

theorem strlen_eq_ok {cnt len : Nat} : strlen v fuel a cnt = .ok len ↔ ∃ n, len = cnt + n ∧ n < fuel ∧ v.HasString a n := by
  induction fuel generalizing a cnt with
  | zero => exact ⟨fun h => by simp [strlen] at h, fun ⟨n, _, h, _⟩ => by omega⟩
  | succ fuel ih =>
    unfold strlen
    rw [bind_eq_ok]
    constructor
    · rintro ⟨ch, hread, h⟩
      obtain ⟨hr, rfl⟩ := byte_eq_ok.mp hread
      split at h
      · next hne =>
        obtain ⟨n, rfl, hn, hs⟩ := ih.mp h
        refine ⟨n + 1, by omega, by omega, ?_, ?_, ?_⟩
        · intro i hi
          cases i with
          | zero => exact hr
          | succ i =>
            have := hs.covers i (by omega)
            rwa [Nat.add_assoc, Nat.add_comm 1] at this
        · intro i hi
          cases i with
          | zero => exact hne
          | succ i =>
            have := hs.ne_zero i (by omega)
            rwa [Nat.add_assoc, Nat.add_comm 1] at this
        · have := hs.nul
          rwa [Nat.add_assoc, Nat.add_comm 1] at this
      · next hzero =>
        obtain rfl := Except.ok.inj h
        refine ⟨0, rfl, by omega, fun i hi => ?_, fun i hi => absurd hi (Nat.not_lt_zero i), not_not.mp hzero⟩
        obtain rfl : i = 0 := by omega
        exact hr
    · rintro ⟨n, rfl, hn, hs⟩
      refine ⟨v.mem a, byte_eq_ok.mpr ⟨hs.head, rfl⟩, ?_⟩
      cases n with
      | zero => exact if_neg (not_not.mpr hs.nul)
      | succ n =>
        have hne : v.mem a ≠ 0 := hs.ne_zero 0 (by omega)
        rw [if_pos hne]
        exact ih.mpr ⟨n, by omega, by omega, hs.tail⟩

/-- The characters at `a` begin with `str`. -/
def StartsWith (m : Bytes) : Nat → List UInt8 → Prop
  | _, []       => True
  | a, c :: str => m a = c ∧ StartsWith m (a + 1) str

/-- The string at `a` is `str`. -/
def IsString (m : Bytes) : Nat → List UInt8 → Prop
  | a, []       => m a = 0
  | a, c :: str => m a = c ∧ IsString m (a + 1) str

/-- What `strcmp` reads of a string when it compares it with `str` may be read. -/
def View.Comparable (v : View) : Nat → List UInt8 → Prop
  | a, []       => v.readable a = true
  | a, c :: str => v.readable a = true ∧ (v.mem a = c → v.Comparable (a + 1) str)

instance (m : Bytes) : ∀ a str, Decidable (StartsWith m a str)
  | _, []       => inferInstanceAs (Decidable True)
  | a, c :: str =>
    have := instDecidableStartsWith m (a + 1) str
    inferInstanceAs (Decidable (m a = c ∧ StartsWith m (a + 1) str))

instance (m : Bytes) : ∀ a str, Decidable (IsString m a str)
  | a, []       => inferInstanceAs (Decidable (m a = 0))
  | a, c :: str =>
    have := instDecidableIsString m (a + 1) str
    inferInstanceAs (Decidable (m a = c ∧ IsString m (a + 1) str))

theorem sub_eq_zero_iff {c : UInt8} : ((ch.toNat : Int) - c.toNat = 0) ↔ ch = c := by
  constructor
  · exact fun h => UInt8.toNat_inj.mp (by omega)
  · rintro rfl
    omega

theorem strncmp_run (hstr : ∀ c ∈ str, c ≠ 0) (hs : v.HasString a n) :
    ∃ x, strncmp v str.length a str = .ok x ∧ (x = 0 ↔ StartsWith v.mem a str) := by
  induction str generalizing a n with
  | nil => exact ⟨0, rfl, ⟨fun _ => trivial, fun _ => rfl⟩⟩
  | cons c str ih =>
    have hread : v.byte a = .ok (v.mem a) := byte_eq_ok.mpr ⟨hs.head, rfl⟩
    have hc : c ≠ 0 := hstr c List.mem_cons_self
    by_cases heq : v.mem a = c
    · cases n with
      | zero => exact absurd (heq.symm.trans hs.nul) hc
      | succ n =>
        obtain ⟨x, hx, hiff⟩ := ih (fun c' hc' => hstr c' (List.mem_cons_of_mem c hc')) hs.tail
        refine ⟨x, ?_, hiff.trans ⟨fun h => ⟨heq, h⟩, fun h => h.2⟩⟩
        simp only [strncmp, List.length_cons, hread, bind, Except.bind, List.headD_cons, List.tail_cons]
        exact (if_pos ⟨by rw [heq]; exact hc, heq⟩).trans hx
    · refine ⟨(v.mem a).toNat - c.toNat, ?_, sub_eq_zero_iff.trans ⟨fun h => absurd h heq, fun h => h.1⟩⟩
      simp only [strncmp, List.length_cons, hread, bind, Except.bind, List.headD_cons]
      exact if_neg fun h => heq h.2

theorem strcmp_run (hstr : ∀ c ∈ str, c ≠ 0) (hs : v.Comparable a str) :
    ∃ x, strcmp v a str = .ok x ∧ (x = 0 ↔ IsString v.mem a str) := by
  induction str generalizing a with
  | nil =>
    have hread : v.byte a = .ok (v.mem a) := byte_eq_ok.mpr ⟨hs, rfl⟩
    refine ⟨(v.mem a).toNat, by simp only [strcmp, hread, bind, Except.bind], ?_⟩
    have hiff := @sub_eq_zero_iff (v.mem a) 0
    change _ ↔ v.mem a = 0
    simpa using hiff
  | cons c str ih =>
    have hread : v.byte a = .ok (v.mem a) := byte_eq_ok.mpr ⟨hs.1, rfl⟩
    have hc : c ≠ 0 := hstr c List.mem_cons_self
    by_cases heq : v.mem a = c
    · obtain ⟨x, hx, hiff⟩ := ih (fun c' hc' => hstr c' (List.mem_cons_of_mem c hc')) (hs.2 heq)
      refine ⟨x, ?_, hiff.trans ⟨fun h => ⟨heq, h⟩, fun h => h.2⟩⟩
      simp only [strcmp, hread, bind, Except.bind]
      exact (if_pos ⟨by rw [heq]; exact hc, heq⟩).trans hx
    · refine ⟨(v.mem a).toNat - c.toNat, ?_, sub_eq_zero_iff.trans ⟨fun h => absurd h heq, fun h => h.1⟩⟩
      simp only [strcmp, hread, bind, Except.bind]
      exact if_neg fun h => heq h.2

theorem strcmp_comparable {x : Int} (hstr : ∀ c ∈ str, c ≠ 0) (h : strcmp v a str = .ok x) : v.Comparable a str := by
  induction str generalizing a x with
  | nil =>
    obtain ⟨ch, hread, -⟩ := bind_eq_ok.mp h
    exact (byte_eq_ok.mp hread).1
  | cons c str ih =>
    obtain ⟨ch, hread, hrest⟩ := bind_eq_ok.mp h
    obtain ⟨hr, rfl⟩ := byte_eq_ok.mp hread
    refine ⟨hr, fun heq => ?_⟩
    rw [if_pos ⟨heq ▸ hstr c List.mem_cons_self, heq⟩] at hrest
    exact ih (fun c' hc' => hstr c' (List.mem_cons_of_mem c hc')) hrest

/-! ## One token -/

/-- What a turn does with the token at a place, when it may read what it reads. -/
inductive Goes (v : View) (strings : Nat) : Scan → Turn → Prop where
  | beginNode {p m n} (hc : v.Covers p 4) (ht : cell v.mem p = fdtBeginNode) (hs : v.HasString (p + 4) n) :
      Goes v strings ⟨p, m⟩ (.next ⟨align4 ((p + 4 : Nat) + Int.bmod n (2 ^ 32) + 4),
        if StartsWith v.mem (p + 4) memoryName then true else m⟩)
  | endNode {p m} (hc : v.Covers p 4) (ht : cell v.mem p = fdtEndNode) : Goes v strings ⟨p, m⟩ (.next ⟨p + 4, false⟩)
  | reg {p} (hc : v.Covers p 12) (ht : cell v.mem p = fdtProp) (hcmp : v.Comparable (strings + cell v.mem (p + 8)) regName)
      (hname : IsString v.mem (strings + cell v.mem (p + 8)) regName) (hlen : 16 ≤ cell v.mem (p + 4))
      (hdata : v.Covers (p + 12) 16) :
      Goes v strings ⟨p, true⟩ (.ret (some (getBe v.mem (p + 12) 8, getBe v.mem (p + 20) 8)))
  | prop {p m} (hc : v.Covers p 12) (ht : cell v.mem p = fdtProp)
      (hcmp : m = true → v.Comparable (strings + cell v.mem (p + 8)) regName)
      (hno : ¬ (m = true ∧ IsString v.mem (strings + cell v.mem (p + 8)) regName ∧ 16 ≤ cell v.mem (p + 4))) :
      Goes v strings ⟨p, m⟩ (.next ⟨align4 ((p + 12 : Nat) + cell v.mem (p + 4) + 3), m⟩)
  | nop {p m} (hc : v.Covers p 4) (ht : cell v.mem p = fdtNop) : Goes v strings ⟨p, m⟩ (.next ⟨p + 4, m⟩)
  | other {p m} (hc : v.Covers p 4) (ht : cell v.mem p ∉ [fdtBeginNode, fdtEndNode, fdtProp, fdtNop]) :
      Goes v strings ⟨p, m⟩ (.ret none)

variable {strings p : Nat} {m : Bool} {s s' : Scan} {o : Turn}

theorem load_cell (h : v.Covers a 4) : v.load a 4 = .ok (getLe v.mem a 4) := load_eq_ok.mpr ⟨h, rfl⟩

theorem memoryName_ne_zero : ∀ c ∈ memoryName, c ≠ 0 := by decide +kernel

theorem regName_ne_zero : ∀ c ∈ regName, c ≠ 0 := by decide +kernel

theorem beginNode_run (hs : v.HasString p n) (hfuel : n < fuel) :
    beginNode fuel v p m = .ok (.next ⟨align4 (p + Int.bmod n (2 ^ 32) + 4),
      if StartsWith v.mem p memoryName then true else m⟩) := by
  have hlen : strlen v fuel p 0 = .ok n := strlen_eq_ok.mpr ⟨n, (Nat.zero_add n).symm, hfuel, hs⟩
  obtain ⟨x, hx, hiff⟩ := strncmp_run memoryName_ne_zero hs
  have hx' : strncmp v 6 p memoryName = .ok x := hx
  simp only [beginNode, hlen, hx', hiff, bind, Except.bind]

theorem isReg_run {propName propLen : Nat} (h : m = true → v.Comparable propName regName) :
    ∃ b, isReg v propName propLen m = .ok b ∧ (b = true ↔ m = true ∧ IsString v.mem propName regName ∧ 16 ≤ propLen) := by
  unfold isReg
  cases m with
  | false => exact ⟨false, rfl, by simp⟩
  | true =>
    obtain ⟨x, hx, hiff⟩ := strcmp_run regName_ne_zero (h rfl)
    refine ⟨decide (x = 0 ∧ 16 ≤ propLen), ?_, ?_⟩
    · simp only [if_true, hx, bind, Except.bind]
    · rw [decide_eq_true_iff, hiff]
      simp

theorem isReg_comparable {propName propLen : Nat} {b : Bool} (h : isReg v propName propLen m = .ok b) (hm : m = true) :
    v.Comparable propName regName := by
  unfold isReg at h
  rw [if_pos hm] at h
  obtain ⟨x, hx, -⟩ := bind_eq_ok.mp h
  exact strcmp_comparable regName_ne_zero hx

/-- A turn does what `Goes` says, with enough fuel for the name of a node. -/
theorem Goes.turn (h : Goes v strings s o) : ∃ enough, ∀ fuel, enough ≤ fuel → turn fuel v strings s = .ok o := by
  have key : ∀ {p : Nat} {m : Bool} {t : Nat} (fuel : Nat), v.Covers p 4 → cell v.mem p = t →
      Dtb.turn fuel v strings ⟨p, m⟩ = (if t = fdtBeginNode then Dtb.beginNode fuel v (p + 4) m
        else if t = fdtEndNode then .ok (.next { ptr := p + 4, inMemory := false })
        else if t = fdtProp then Dtb.prop v strings (p + 4) m
        else if t = fdtNop then .ok (.next { ptr := p + 4, inMemory := m })
        else .ok (.ret none)) := by
    intro p m t fuel hc ht
    simp only [Dtb.turn, load_cell hc, bind, Except.bind, fdt32_getLe, ht]
  cases h with
  | @beginNode p m n hc ht hs =>
    refine ⟨n + 1, fun fuel hfuel => ?_⟩
    rw [key fuel hc ht, if_pos rfl, beginNode_run hs hfuel]
  | endNode hc ht => exact ⟨0, fun fuel _ => by rw [key fuel hc ht]; rfl⟩
  | nop hc ht => exact ⟨0, fun fuel _ => by rw [key fuel hc ht]; rfl⟩
  | other hc ht =>
    simp only [List.mem_cons, List.not_mem_nil, or_false, not_or] at ht
    refine ⟨0, fun fuel _ => ?_⟩
    rw [key fuel hc rfl, if_neg ht.1, if_neg ht.2.1, if_neg ht.2.2.1, if_neg ht.2.2.2]
  | @reg p hc ht hcmp hname hlen hdata =>
    obtain ⟨b, hb, hiff⟩ := @isReg_run v true _ (cell v.mem (p + 4)) fun _ => hcmp
    obtain rfl : b = true := hiff.mpr ⟨rfl, hname, hlen⟩
    have hl1 := load_cell (v := v) (a := p + 4) (hc.mono (by omega) (by omega))
    have hl2 := load_cell (v := v) (a := p + 4 + 4) (hc.mono (by omega) (by omega))
    have hd1 : v.load (p + 4 + 8) 8 = .ok (getLe v.mem (p + 12) 8) := load_eq_ok.mpr ⟨hdata.mono (by omega) (by omega), rfl⟩
    have hd2 : v.load (p + 4 + 8 + 8) 8 = .ok (getLe v.mem (p + 20) 8) := load_eq_ok.mpr ⟨hdata.mono (by omega) (by omega), rfl⟩
    refine ⟨0, fun fuel _ => ?_⟩
    rw [key fuel (hc.mono (by omega) (by omega)) ht]
    simp only [if_true, if_neg (by decide : fdtProp ≠ fdtBeginNode), if_neg (by decide : fdtProp ≠ fdtEndNode), Dtb.prop, hl1, hl2,
      hb, hd1, hd2, bind, Except.bind, fdt32_getLe, fdt64_getLe]
  | @prop p m hc ht hcmp hno =>
    obtain ⟨b, hb, hiff⟩ := @isReg_run v m _ (cell v.mem (p + 4)) hcmp
    obtain rfl : b = false := Bool.eq_false_iff.mpr fun h => hno (hiff.mp h)
    have hl1 := load_cell (v := v) (a := p + 4) (hc.mono (by omega) (by omega))
    have hl2 := load_cell (v := v) (a := p + 4 + 4) (hc.mono (by omega) (by omega))
    refine ⟨0, fun fuel _ => ?_⟩
    rw [key fuel (hc.mono (by omega) (by omega)) ht]
    simp only [if_true, if_neg (by decide : fdtProp ≠ fdtBeginNode), if_neg (by decide : fdtProp ≠ fdtEndNode), Dtb.prop, hl1, hl2,
      hb, bind, Except.bind, fdt32_getLe, Bool.false_eq_true, if_false]

theorem View.Covers.append {b k : Nat} (h : v.Covers a n) (h' : v.Covers b k) (hb : b = a + n) : v.Covers a (n + k) := by
  intro i hi
  by_cases hin : i < n
  · exact h i hin
  · have := h' (i - n) (by omega)
    rwa [hb, Nat.add_assoc, Nat.add_sub_cancel' (by omega : n ≤ i)] at this

theorem goes_of_prop (hc : v.Covers p 4) (ht : cell v.mem p = fdtProp) (h : Dtb.prop v strings (p + 4) m = .ok o) :
    Goes v strings ⟨p, m⟩ o := by
  obtain ⟨len, hlen, h1⟩ := bind_eq_ok.mp h
  obtain ⟨hc1, rfl⟩ := load_eq_ok.mp hlen
  obtain ⟨nameoff, hoff, h2⟩ := bind_eq_ok.mp h1
  obtain ⟨hc2, rfl⟩ := load_eq_ok.mp hoff
  dsimp only at h2
  obtain ⟨found, hfound, hres⟩ := bind_eq_ok.mp h2
  clear h h1 h2
  simp only [fdt32_getLe] at hfound hres
  have hcover : v.Covers p 12 := (hc.append hc1 rfl).append hc2 rfl
  have hcmp := isReg_comparable hfound
  obtain ⟨b, hb, hiff⟩ := isReg_run hcmp
  obtain rfl : found = b := Except.ok.inj (hfound.symm.trans hb)
  cases found with
  | true =>
    obtain ⟨rfl, hname, hsize⟩ := hiff.mp rfl
    rw [if_pos rfl] at hres
    obtain ⟨base, hbase, hres⟩ := bind_eq_ok.mp hres
    obtain ⟨hd1, rfl⟩ := load_eq_ok.mp hbase
    obtain ⟨size, hsz, hres⟩ := bind_eq_ok.mp hres
    obtain ⟨hd2, rfl⟩ := load_eq_ok.mp hsz
    rw [← Except.ok.inj hres, fdt64_getLe, fdt64_getLe]
    exact .reg hcover ht (hcmp rfl) hname hsize (hd1.append hd2 rfl)
  | false =>
    rw [if_neg Bool.false_ne_true] at hres
    rw [← Except.ok.inj hres]
    exact .prop hcover ht hcmp fun hall => Bool.false_ne_true (hiff.mpr hall)

/-- and nothing else. -/
theorem goes_of_turn (h : turn fuel v strings s = .ok o) : Goes v strings s o := by
  obtain ⟨p, m⟩ := s
  obtain ⟨word, hword, hres⟩ := bind_eq_ok.mp h
  obtain ⟨hc, rfl⟩ := load_eq_ok.mp hword
  simp only [fdt32_getLe] at hres
  clear h hword
  split at hres
  · next ht =>
    obtain ⟨len, hlen, -⟩ := bind_eq_ok.mp hres
    obtain ⟨n, -, hn, hs⟩ := strlen_eq_ok.mp hlen
    rw [beginNode_run hs hn] at hres
    rw [← Except.ok.inj hres]
    exact .beginNode hc ht hs
  · next hb =>
    split at hres
    · next ht =>
      rw [← Except.ok.inj hres]
      exact .endNode hc ht
    · next he =>
      split at hres
      · next ht => exact goes_of_prop hc ht hres
      · next hp =>
        split at hres
        · next ht =>
          rw [← Except.ok.inj hres]
          exact .nop hc ht
        · next hn =>
          rw [← Except.ok.inj hres]
          exact .other hc (by simp [hb, he, hp, hn])

theorem Goes.covers (h : Goes v strings s o) : v.Covers s.ptr 4 := by
  cases h with
  | beginNode hc | endNode hc | nop hc | other hc => exact hc
  | reg hc | prop hc => exact hc.mono (Nat.le_refl _) (Nat.add_le_add_left (by decide : 4 ≤ 12) _)

theorem Goes.det {o' : Turn} (h : Goes v strings s o) (h' : Goes v strings s o') : o = o' := by
  obtain ⟨enough, hturn⟩ := h.turn
  obtain ⟨enough', hturn'⟩ := h'.turn
  have := (hturn (max enough enough') (Nat.le_max_left _ _)).symm.trans (hturn' _ (Nat.le_max_right _ _))
  exact Except.ok.inj this

/-! ## The whole scan -/

/-- The tokens from a place on, up to one with which the scan returns. -/
inductive Stops (v : View) (strings : Nat) : Scan → Option (Nat × Nat) → Prop where
  | ret {s r} (h : Goes v strings s (.ret r)) : Stops v strings s r
  | next {s s' r} (h : Goes v strings s (.next s')) (hrest : Stops v strings s' r) : Stops v strings s r

theorem Stops.covers {r : Option (Nat × Nat)} (h : Stops v strings s r) : v.Covers s.ptr 4 := by
  cases h with
  | ret h | next h => exact h.covers

theorem Stops.of_nop {r : Option (Nat × Nat)} (ht : cell v.mem p = fdtNop) (h : Stops v strings ⟨p, m⟩ r) :
    Stops v strings ⟨p + 4, m⟩ r := by
  cases h with
  | ret h => exact absurd (h.det (.nop h.covers ht)) (by simp)
  | next h hrest =>
    obtain rfl := Turn.next.inj (h.det (.nop h.covers ht))
    exact hrest

theorem Stops.scan {r : Option (Nat × Nat)} (h : Stops v strings s r) :
    ∃ enough, ∀ fuel, enough ≤ fuel → scan v strings fuel s = .ok r := by
  induction h with
  | ret h =>
    obtain ⟨enough, hturn⟩ := h.turn
    refine ⟨enough + 1, fun fuel hfuel => ?_⟩
    obtain ⟨fuel, rfl⟩ := Nat.exists_eq_add_of_lt hfuel
    rw [Dtb.scan, hturn _ (by omega)]
    rfl
  | next h _ ih =>
    obtain ⟨enough, hturn⟩ := h.turn
    obtain ⟨enough', hrest⟩ := ih
    refine ⟨max enough enough' + 1, fun fuel hfuel => ?_⟩
    obtain ⟨fuel, rfl⟩ := Nat.exists_eq_add_of_lt hfuel
    rw [Dtb.scan, hturn _ (by omega)]
    exact hrest _ (by omega)

theorem stops_of_scan {r : Option (Nat × Nat)} (h : scan v strings fuel s = .ok r) : Stops v strings s r := by
  induction fuel generalizing s with
  | zero => simp [scan] at h
  | succ fuel ih =>
    obtain ⟨o, ho, h⟩ := bind_eq_ok.mp h
    cases o with
    | ret r' =>
      obtain rfl := Except.ok.inj h
      exact .ret (goes_of_turn ho)
    | next s' => exact .next (goes_of_turn ho) (ih h)

/-- **The scan returns**, with all fuel from some on, exactly if the tokens lead to one with which it does. -/
theorem scan_returns_iff {r : Option (Nat × Nat)} :
    (∃ enough, ∀ fuel, enough ≤ fuel → scan v strings fuel s = .ok r) ↔ Stops v strings s r :=
  ⟨fun ⟨enough, h⟩ => stops_of_scan (h enough (Nat.le_refl _)), fun h => h.scan⟩

end Ucore.Dtb
