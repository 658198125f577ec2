import Ucore.Libs.Printfmt
import Mathlib.Data.Nat.Digits.Lemmas
import Mathlib.Tactic.IntervalCases

/-!
# `Libs.Correctness.PrintNum` — what `printnum` prints

The width is counted down along the recursion and the padding is written at its bottom, so that the padding is what the width
leaves over the digits (`printnum_run`), as an `int`: a width that lies less than the number of digits above the smallest `int`
wraps around, and the padding is more than two thousand million characters. Those are the only widths for which it is wrong
(`printnum_right_iff`).

## Contents
- **Digits.** `digits`, `digits_step` (one call of `printnum`), and their characters, `decode`.
- **The run.** `printnum_run`, for any sink.
- **The law.** `Represents`, `Printed`, `printnum_right_iff`.
-/

namespace Ucore.Printfmt

variable {σ : Type}

/-! ## Digits -/

/-- The digits of `num`, the most significant first; 0 has one. -/
def digits (base num : Nat) : List Nat := if num = 0 then [0] else (Nat.digits base num).reverse

variable {base num : Nat}

theorem digits_lt (h : num < base) : digits base num = [num] := by
  unfold digits
  split
  · next h0 => rw [h0]
  · next h0 => rw [Nat.digits_of_lt base num h0 h, List.reverse_singleton]

/-- The last digit is `num % base`; in front of it stand the digits of `num / base`. -/
theorem digits_step (hb : 1 < base) (h : base ≤ num) : digits base num = digits base (num / base) ++ [num % base] := by
  have hnum : num ≠ 0 := by omega
  have hdiv : num / base ≠ 0 := Nat.ne_of_gt (Nat.div_pos h (by omega))
  have hstep : Nat.digits base num = num % base :: Nat.digits base (num / base) :=
    Nat.digits_def' hb (Nat.pos_of_ne_zero hnum)
  rw [digits, digits, if_neg hnum, if_neg hdiv, hstep, List.reverse_cons]

theorem digits_ne_nil : digits base num ≠ [] := by
  unfold digits
  split
  · exact List.cons_ne_nil 0 []
  · next h0 =>
    rw [ne_eq, List.reverse_eq_nil_iff, Nat.digits_eq_nil_iff_eq_zero]
    exact h0

theorem digits_all_lt (hb : 1 < base) : ∀ d ∈ digits base num, d < base := by
  intro d hd
  unfold digits at hd
  split at hd
  · obtain rfl := List.mem_singleton.mp hd
    omega
  · exact Nat.digits_lt_base hb (List.mem_reverse.mp hd)

theorem digits_head (h : (digits base num).head? = some 0) : digits base num = [0] := by
  unfold digits at h ⊢
  split
  · rfl
  · next h0 =>
    -- the head is the last of Mathlib's digits, which is not 0
    have hne : Nat.digits base num ≠ [] := fun hnil => h0 (Nat.digits_eq_nil_iff_eq_zero.mp hnil)
    rw [if_neg h0, List.head?_reverse, List.getLast?_eq_some_getLast hne] at h
    exact absurd (Option.some.inj h) (Nat.getLast_digit_ne_zero base h0)

theorem digits_value : Nat.ofDigits base (digits base num).reverse = num := by
  unfold digits
  split
  · next h0 => simp [h0]
  · rw [List.reverse_reverse, Nat.ofDigits_digits]

/-- No other list is without leading zeros and has the same value. -/
theorem digits_unique (hb : 1 < base) {ds : List Nat} (hlt : ∀ d ∈ ds, d < base) (hne : ds ≠ [])
    (hlead : ds.head? = some 0 → ds = [0]) (hval : Nat.ofDigits base ds.reverse = num) : ds = digits base num := by
  by_cases h0 : num = 0
  · -- the value 0 has only zeros, and the first of them is alone
    have hzero : ∀ d ∈ ds, d = 0 := fun d hd =>
      Nat.digits_zero_of_eq_zero (by omega) (hval.trans h0) d (List.mem_reverse.mpr hd)
    rw [digits, if_pos h0]
    apply hlead
    rw [List.head?_eq_some_head hne, hzero _ (List.head_mem hne)]
  · have hlast : ∀ h : ds.reverse ≠ [], ds.reverse.getLast h ≠ 0 := by
      intro h hz
      rw [List.getLast_reverse] at hz
      have hds : ds = [0] := hlead (by rw [List.head?_eq_some_head hne, hz])
      rw [hds] at hval
      exact h0 (by simpa using hval.symm)
    have hdig : Nat.digits base num = ds.reverse := by
      rw [← hval]
      exact Nat.digits_ofDigits base hb ds.reverse (fun d hd => hlt d (List.mem_reverse.mp hd)) hlast
    rw [digits, if_neg h0, hdig, List.reverse_reverse]

/-- A number below `base ^ n` has `n` digits at most. -/
theorem digits_length_le (hb : 1 < base) {n : Nat} (hn : 0 < n) (h : num < base ^ n) : (digits base num).length ≤ n := by
  unfold digits
  split
  · exact hn
  · rw [List.length_reverse]
    exact (Nat.digits_length_le_iff hb num).mpr h

/-! ## Their characters -/

/-- The value of a digit, of a base up to 16. -/
def digitValue (ch : Int) : Nat := if ch ≤ chr '9' then (ch - chr '0').toNat else (ch - chr 'a').toNat + 10

theorem digitValue_digit {d : Nat} (h : d < 16) : digitValue (digit d) = d := by
  interval_cases d <;> decide

/-- The number that a row of digits is read as. -/
def decode (base : Nat) (cs : List Int) : Nat := cs.foldl (fun n ch => n * base + digitValue ch) 0

theorem decode_append (base : Nat) (cs : List Int) (ch : Int) : decode base (cs ++ [ch]) = decode base cs * base + digitValue ch := by
  rw [decode, List.foldl_append, List.foldl_cons, List.foldl_nil, ← decode]

theorem decode_map_digit {ds : List Nat} (h : ∀ d ∈ ds, d < 16) :
    decode base (ds.map digit) = Nat.ofDigits base ds.reverse := by
  induction ds using List.reverseRecOn with
  | nil => rfl
  | append_singleton ds d ih =>
    have hd : digitValue (digit d) = d := digitValue_digit (h d (List.mem_append_right ds (List.mem_singleton_self d)))
    have hds := ih fun d' hd' => h d' (List.mem_append_left [d] hd')
    rw [List.map_append, List.map_singleton, decode_append, hds, hd, List.reverse_append, List.reverse_singleton,
      List.singleton_append, Nat.ofDigits_cons]
    ring

/-! ## The run -/

theorem int32_sub (a b c : Int) : int32 (int32 (a - b) - c) = int32 (a - (b + c)) := by
  unfold int32
  rw [Int.bmod_sub_bmod, Int.sub_sub]

/-- **The run.** Padding first, and then the digits; `fuel` calls are enough for a number below `base ^ fuel`. -/
theorem printnum_run (putch : Int → σ → σ) (padc : Int) (hb : 1 < base) (fuel : Nat) (width : Int) (s : σ)
    (hfuel : (digits base num).length ≤ fuel) :
    printnum putch fuel num base width padc s = .ok ((digits base num).foldl (fun s d => putch (digit d) s)
      (putchs putch padc (int32 (width - (digits base num).length)).toNat s)) := by
  induction fuel generalizing num width with
  | zero => exact absurd (List.length_eq_zero_iff.mp (Nat.le_zero.mp hfuel)) digits_ne_nil
  | succ fuel ih =>
    unfold printnum
    by_cases hlt : base ≤ num
    · have hdigits := digits_step hb hlt
      have hlen : (digits base num).length = (digits base (num / base)).length + 1 := by simp [hdigits]
      have hrest := ih (int32 (width - 1)) (by omega : (digits base (num / base)).length ≤ fuel)
      have hwidth : int32 (int32 (width - 1) - (digits base (num / base)).length) = int32 (width - (digits base num).length) := by
        rw [int32_sub, hlen]
        congr 2
        push_cast
        ring
      rw [hwidth] at hrest
      rw [if_pos hlt, hrest, hdigits, List.foldl_append]
      rfl
    · rw [if_neg hlt, digits_lt (by omega), Nat.mod_eq_of_lt (by omega)]
      rfl

/-! ## The law -/

/-- The sink that collects what is printed. -/
def collect (ch : Int) (out : List Int) : List Int := out ++ [ch]

theorem putchs_collect (ch : Int) (n : Nat) (out : List Int) : putchs collect ch n out = out ++ List.replicate n ch := by
  induction n generalizing out with
  | zero => rw [putchs, List.replicate_zero, List.append_nil]
  | succ n ih => rw [putchs, ih, collect, List.append_assoc, List.singleton_append, ← List.replicate_succ]

theorem foldl_collect (ds : List Nat) (out : List Int) :
    ds.foldl (fun s d => collect (digit d) s) out = out ++ ds.map digit := by
  induction ds generalizing out with
  | nil => rw [List.foldl_nil, List.map_nil, List.append_nil]
  | cons d ds ih => rw [List.foldl_cons, ih, collect, List.map_cons, List.append_assoc, List.singleton_append]

/-- The digits of `num` in the base, without leading zeros. -/
structure Represents (base num : Nat) (cs : List Int) : Prop where
  isDigit : ∀ ch ∈ cs, ∃ d < base, ch = digit d
  ne_nil : cs ≠ []
  lead : cs.head? = some (digit 0) → cs = [digit 0]
  value : decode base cs = num

/-- As many padding characters as the width is larger than the number of digits, and the digits. -/
def Printed (base num : Nat) (width padc : Int) (out : List Int) : Prop :=
  ∃ cs, Represents base num cs ∧ out = List.replicate (width - cs.length).toNat padc ++ cs

theorem digit_eq_zero {d : Nat} (hd : d < 16) (h : digit d = digit 0) : d = 0 := by
  rw [← digitValue_digit hd, h]
  decide

theorem represents_digits (hb : 1 < base) (hb16 : base ≤ 16) : Represents base num ((digits base num).map digit) where
  isDigit := by
    intro ch hch
    obtain ⟨d, hd, rfl⟩ := List.mem_map.mp hch
    exact ⟨d, digits_all_lt hb d hd, rfl⟩
  ne_nil := by simpa using digits_ne_nil
  lead := by
    intro h
    rw [List.head?_map] at h
    obtain ⟨d, hhead, hd⟩ := Option.map_eq_some_iff.mp h
    have hlt : d < base := digits_all_lt hb d (List.mem_of_mem_head? hhead)
    rw [digits_head (hhead.trans (congrArg some (digit_eq_zero (by omega) hd)))]
    rfl
  value := by
    rw [decode_map_digit fun d hd => by have := digits_all_lt hb d hd; omega]
    exact digits_value

theorem Represents.eq {cs : List Int} (h : Represents base num cs) (hb : 1 < base) (hb16 : base ≤ 16) :
    cs = (digits base num).map digit := by
  -- the characters are those of some digits, and there is only one such list
  have hcs : cs = (cs.map digitValue).map digit := by
    rw [List.map_map]
    refine (List.map_id cs).symm.trans (List.map_congr_left fun ch hch => ?_)
    obtain ⟨d, hd, rfl⟩ := h.isDigit ch hch
    rw [Function.comp_apply, digitValue_digit (by omega)]
    rfl
  have hlt : ∀ d ∈ cs.map digitValue, d < base := by
    intro d hd
    obtain ⟨ch, hch, rfl⟩ := List.mem_map.mp hd
    obtain ⟨d, hd, rfl⟩ := h.isDigit ch hch
    rwa [digitValue_digit (by omega)]
  have huniq : cs.map digitValue = digits base num := by
    refine digits_unique hb hlt (by simpa using h.ne_nil) ?_ ?_
    · intro hhead
      have hzero : cs.head? = some (digit 0) := by
        rw [hcs, List.head?_map, hhead]
        rfl
      rw [h.lead hzero]
      decide
    · rw [← decode_map_digit fun d hd => by have := hlt d hd; omega, ← hcs]
      exact h.value
  rw [← huniq]
  exact hcs

theorem int32_of_range {x : Int} (hlo : -2 ^ 31 ≤ x) (hhi : x < 2 ^ 31) : int32 x = x :=
  Int.bmod_eq_of_le (by omega) (by omega)

/-- Below the smallest `int` it goes on from the largest. -/
theorem int32_below {x : Int} (hlo : -2 ^ 32 ≤ x) (hhi : x < -2 ^ 31) : int32 x = x + 2 ^ 32 := by
  unfold int32
  rw [← Int.add_bmod_right]
  exact Int.bmod_eq_of_le (by omega) (by omega)

theorem printnum_collect (padc : Int) (hb : 1 < base) (fuel : Nat) (width : Int) (hfuel : (digits base num).length ≤ fuel) :
    printnum collect fuel num base width padc [] = .ok (List.replicate (int32 (width - (digits base num).length)).toNat padc
      ++ (digits base num).map digit) := by
  rw [printnum_run collect padc hb fuel width [] hfuel, putchs_collect, List.nil_append, foldl_collect]

/-- **`printnum`.** It returns, having printed the padding and the digits, exactly if the width less the number of digits is
    an `int`. -/
theorem printnum_right_iff (num : BitVec 64) (base : Nat) (width padc : BitVec 32) (hbase : 2 ≤ base ∧ base ≤ 16) :
    (∃ out, (∀ fuel, 64 ≤ fuel → printnum collect fuel num.toNat base width.toInt padc.toInt [] = .ok out) ∧
      Printed base num.toNat width.toInt padc.toInt out) ↔
    -2 ^ 31 + ((digits base num.toNat).length : Int) ≤ width.toInt := by
  obtain ⟨hb, hb16⟩ := hbase
  have hlen : (digits base num.toNat).length ≤ 64 := by
    refine digits_length_le (by omega) (by omega) (lt_of_lt_of_le num.isLt ?_)
    exact Nat.pow_le_pow_left hb 64
  have hrun := fun fuel (hfuel : 64 ≤ fuel) =>
    printnum_collect padc.toInt hb fuel width.toInt (hlen.trans hfuel)
  have hlo := width.le_toInt
  have hhi := width.toInt_lt
  constructor
  · rintro ⟨out, hout, cs, hrep, hprinted⟩
    rw [hrep.eq hb hb16, List.length_map] at hprinted
    have heq := Except.ok.inj ((hout 64 le_rfl).symm.trans (hrun 64 le_rfl))
    have hpad := congrArg List.length (hprinted.symm.trans heq)
    simp only [List.length_append, List.length_replicate, List.length_map] at hpad
    by_contra hsmall
    -- the width wraps around, and then there is padding
    rw [int32_below (by omega) (by omega)] at hpad
    omega
  · intro hwidth
    refine ⟨_, hrun, _, represents_digits hb hb16, ?_⟩
    rw [List.length_map, int32_of_range (by omega) (by omega)]

/-- Five characters for 42, in base 10. -/
theorem printnum_right_width_5 : (2 ≤ 10 ∧ 10 ≤ 16) ∧
    (∃ out, (∀ fuel, 64 ≤ fuel → printnum collect fuel (42 : BitVec 64).toNat 10 (5 : BitVec 32).toInt (32 : BitVec 32).toInt [] =
      .ok out) ∧ Printed 10 (42 : BitVec 64).toNat (5 : BitVec 32).toInt (32 : BitVec 32).toInt out) :=
  ⟨by decide, (printnum_right_iff 42 10 5 32 (by decide)).mpr (by decide)⟩

/-- With the smallest `int` as the width, 0 gets 2147483647 characters of padding. -/
theorem printnum_smallest_width : ¬ ∃ out,
    (∀ fuel, 64 ≤ fuel → printnum collect fuel (0 : BitVec 64).toNat 10 (BitVec.intMin 32).toInt (32 : BitVec 32).toInt [] =
      .ok out) ∧ Printed 10 (0 : BitVec 64).toNat (BitVec.intMin 32).toInt (32 : BitVec 32).toInt out := by
  rintro ⟨out, hrun, hprinted⟩
  have h := (printnum_right_iff 0 10 (BitVec.intMin 32) 32 (by decide)).mp ⟨out, hrun, hprinted⟩
  exact absurd h (by decide)

end Ucore.Printfmt
