import Ucore.Lib.Bytes

/-!
# `Libs.String` — strings that end with a NUL, `strnlen` and `strchr` of `libs/string.c`

For `strnlen`, `s` is the array that the string lies in; the result is the place of its first zero, or `len` if there is none
before. `cstring` is the string itself.
-/

namespace Ucore

def strnlen (s : Bytes) : Nat → Nat → Nat
  | 0, cnt       => cnt
  | len + 1, cnt => if s cnt ≠ 0 then strnlen s len (cnt + 1) else cnt

theorem strnlen_le (s : Bytes) : ∀ len cnt, strnlen s len cnt ≤ cnt + len := by
  intro len
  induction len with
  | zero => exact fun cnt => Nat.le_refl cnt
  | succ len ih =>
    intro cnt
    rw [strnlen]
    split
    · have := ih (cnt + 1)
      omega
    · omega

/-- Before the place that `strnlen` finds there is no zero; and if it is not the end, it is that of a zero. -/
theorem strnlen_spec (s : Bytes) : ∀ len cnt, cnt ≤ strnlen s len cnt ∧ (∀ j, cnt ≤ j → j < strnlen s len cnt → s j ≠ 0) ∧
    (strnlen s len cnt < cnt + len → s (strnlen s len cnt) = 0) := by
  intro len
  induction len with
  | zero => exact fun cnt => ⟨Nat.le_refl cnt, fun j hlo hhi => absurd hhi (Nat.not_lt.mpr hlo), fun h => absurd h (Nat.lt_irrefl cnt)⟩
  | succ len ih =>
    intro cnt
    rw [strnlen]
    split
    · next hne =>
      obtain ⟨hle, hbefore, hend⟩ := ih (cnt + 1)
      refine ⟨by omega, fun j hlo hhi => ?_, fun h => hend (by omega)⟩
      by_cases heq : j = cnt
      · rw [heq]
        exact hne
      · exact hbefore j (by omega) hhi
    · next hzero => exact ⟨Nat.le_refl cnt, fun j hlo hhi => absurd hhi (Nat.not_lt.mpr hlo), fun _ => not_not.mp hzero⟩

/-- `strnlen` stops at the first zero, if there is one. -/
theorem strnlen_lt_iff {s : Bytes} {len : Nat} : strnlen s len 0 < len ↔ ∃ j < len, s j = 0 := by
  obtain ⟨-, hbefore, hend⟩ := strnlen_spec s len 0
  rw [Nat.zero_add] at hend
  constructor
  · exact fun h => ⟨_, h, hend h⟩
  · rintro ⟨j, hj, hzero⟩
    by_contra hno
    exact hbefore j (Nat.zero_le j) (by omega) hzero

/-! ## Strings as values -/

/-- A C string, without the NUL that ends it. -/
structure CString where
  chars : List UInt8
  ne_zero : ∀ ch ∈ chars, ch ≠ 0

namespace CString

/-- `s[i]`, up to the NUL; what stands behind is not the string's. -/
def read (s : CString) (i : Nat) : Option UInt8 := (s.chars ++ [0])[i]?

/-- A string literal, of ASCII characters. -/
def lit (s : String) : CString where
  chars := (s.toList.map fun c => c.toUInt8).filter (· ≠ 0)
  ne_zero := fun _ h => of_decide_eq_true (List.mem_filter.mp h).2

end CString

/-- `strchr(s, c)`, as the place in `s`. The NUL of `s` is not searched. -/
def strchr : List UInt8 → UInt8 → Option Nat
  | [], _      => none
  | ch :: s, c => if ch = c then some 0 else (strchr s c).map (· + 1)

theorem strchr_eq_none {s : List UInt8} {c : UInt8} : strchr s c = none ↔ c ∉ s := by
  induction s with
  | nil => simp [strchr]
  | cons ch s ih =>
    unfold strchr
    split
    · next heq => simp [heq]
    · next hne => simp [ih, Ne.symm hne]

/-! ## The characters -/

/-- The characters from `d` on up to the first NUL, `n` at most. -/
def cstring (x : Bytes) : Nat → Nat → List UInt8
  | _, 0     => []
  | d, n + 1 => if x d = 0 then [] else x d :: cstring x (d + 1) n

variable {x y : Bytes} {d n : Nat}

theorem cstring_ne_zero : ∀ ch ∈ cstring x d n, ch ≠ 0 := by
  induction n generalizing d with
  | zero => exact fun ch h => absurd h List.not_mem_nil
  | succ n ih =>
    intro ch hch
    rw [cstring] at hch
    split at hch
    · exact absurd hch List.not_mem_nil
    · next hne =>
      rcases List.mem_cons.mp hch with rfl | hch
      · exact hne
      · exact ih ch hch

/-- In a memory with a NUL behind the last place, the characters and the NUL behind them are the memory's bytes. -/
theorem cstring_getD (hend : x (d + n) = 0) : ∀ j, j ≤ (cstring x d n).length → x (d + j) = (cstring x d n).getD j 0 := by
  induction n generalizing d with
  | zero =>
    intro j hj
    obtain rfl : j = 0 := Nat.le_zero.mp hj
    exact hend
  | succ n ih =>
    intro j hj
    by_cases hz : x d = 0
    · rw [cstring, if_pos hz] at hj ⊢
      obtain rfl : j = 0 := Nat.le_zero.mp hj
      exact hz
    · rw [cstring, if_neg hz] at hj ⊢
      cases j with
      | zero => rfl
      | succ j =>
        have hrest := ih (d := d + 1) (by rwa [Nat.add_assoc, Nat.add_comm 1 n]) j (Nat.le_of_succ_le_succ hj)
        rwa [Nat.add_assoc, Nat.add_comm 1 j] at hrest

theorem cstring_congr {e : Nat} (h : ∀ i < n, x (d + i) = y (e + i)) : cstring x d n = cstring y e n := by
  induction n generalizing d e with
  | zero => rfl
  | succ n ih =>
    have h0 : x d = y e := h 0 (Nat.zero_lt_succ n)
    have hrest : cstring x (d + 1) n = cstring y (e + 1) n := by
      apply ih
      intro i hi
      have := h (i + 1) (Nat.succ_lt_succ hi)
      rwa [Nat.add_comm i 1, ← Nat.add_assoc, ← Nat.add_assoc] at this
    rw [cstring, cstring, h0, hrest]

end Ucore
