import Mathlib.Algebra.Group.Int.Defs
import Mathlib.Algebra.Group.Nat.Defs
import Mathlib.Logic.Function.Basic

/-!
# `Lib.Bytes` — byte memory, block copies and little-endian numbers

A memory is a map from addresses to bytes. `memcpy` copies a range, `getLe`/`putLe` read and write an
unsigned number of `n` bytes in little-endian order. The lemmas say where an operation can be seen and
where it cannot, and that reading back what was written gives the number modulo `256 ^ n`.
-/

namespace Ucore

abbrev Bytes := Nat → UInt8

/-- `memcpy(dst + d, src + s, len)` -/
def memcpy (dst : Bytes) (d : Nat) (src : Bytes) (s len : Nat) : Bytes := fun i =>
  if d ≤ i ∧ i < d + len then src (s + (i - d)) else dst i

/-- `memset(dst, 0, len)` -/
def memzero (dst : Bytes) (len : Nat) : Bytes := memcpy dst 0 (fun _ => 0) 0 len

/-- The number stored in the `n` bytes from `a` on. -/
def getLe (m : Bytes) : Nat → Nat → Nat
  | _, 0     => 0
  | a, n + 1 => (m a).toNat + 256 * getLe m (a + 1) n

/-- Store the number `v` in the `n` bytes from `a` on. -/
def putLe (m : Bytes) : Nat → Nat → Nat → Bytes
  | _, _, 0     => m
  | a, v, n + 1 => Function.update (putLe m (a + 1) (v / 256) n) a (UInt8.ofNat v)

/-- Store the `n` numbers `f 0 … f (n - 1)`, of `k` bytes each, from `a` on. -/
def putArray (m : Bytes) (a : Nat) (f : Nat → Nat) (k : Nat) : Nat → Bytes
  | 0     => m
  | n + 1 => putLe (putArray m a f k n) (a + k * n) (f n) k

variable {m m' dst src : Bytes} {a d s v n k len i : Nat}

/-! ## Copies -/

theorem memcpy_in (h : d ≤ i ∧ i < d + len) : memcpy dst d src s len i = src (s + (i - d)) := if_pos h

theorem memcpy_out (h : ¬ (d ≤ i ∧ i < d + len)) : memcpy dst d src s len i = dst i := if_neg h

theorem memzero_lt (h : i < len) : memzero dst len i = 0 := memcpy_in ⟨Nat.zero_le i, by omega⟩

/-- Reading a block into a buffer, changing a part of it and writing it back changes that part. -/
theorem memcpy_readModifyWrite {buf : Bytes} {B : Nat} (h : d + len ≤ B) :
    memcpy dst 0 (memcpy (memcpy buf 0 dst 0 B) d src s len) 0 B = memcpy dst d src s len := by
  funext i
  by_cases hB : i < B
  · rw [memcpy_in ⟨Nat.zero_le i, by omega⟩]
    simp only [Nat.zero_add, Nat.sub_zero]
    by_cases hi : d ≤ i ∧ i < d + len
    · rw [memcpy_in hi, memcpy_in hi]
    · rw [memcpy_out hi, memcpy_out hi, memcpy_in ⟨Nat.zero_le i, by omega⟩]
      simp
  · rw [memcpy_out (by omega), memcpy_out (by omega)]

/-- Copying a part of a freshly read buffer is copying it from the block. -/
theorem memcpy_from_read {buf blk : Bytes} {B : Nat} (h : s + len ≤ B) :
    memcpy dst d (memcpy buf 0 blk 0 B) s len = memcpy dst d blk s len := by
  funext i
  by_cases hi : d ≤ i ∧ i < d + len
  · rw [memcpy_in hi, memcpy_in hi, memcpy_in ⟨Nat.zero_le _, by omega⟩]
    simp
  · rw [memcpy_out hi, memcpy_out hi]

theorem memcpy_zero : memcpy dst d src s 0 = dst := by
  funext i
  exact memcpy_out (by omega)

/-- Through a buffer it is the same copy. -/
theorem memcpy_through {buf : Bytes} : memcpy dst d (memcpy buf 0 src s len) 0 len = memcpy dst d src s len := by
  funext i
  by_cases hi : d ≤ i ∧ i < d + len
  · rw [memcpy_in hi, memcpy_in hi, memcpy_in ⟨Nat.zero_le _, by omega⟩]
    simp
  · rw [memcpy_out hi, memcpy_out hi]

/-- Two blocks, one behind the other, are one block. -/
theorem memcpy_append {b : Nat} : memcpy (memcpy dst d src s len) (d + len) src (s + len) b = memcpy dst d src s (len + b) := by
  funext i
  by_cases h1 : d ≤ i ∧ i < d + len
  · rw [memcpy_out (by omega), memcpy_in h1, memcpy_in (by omega)]
  · by_cases h2 : d + len ≤ i ∧ i < d + len + b
    · rw [memcpy_in h2, memcpy_in (by omega)]
      congr 1
      omega
    · rw [memcpy_out h2, memcpy_out h1, memcpy_out (by omega)]

/-! ## Little-endian numbers -/

theorem getLe_lt (m : Bytes) (a n : Nat) : getLe m a n < 256 ^ n := by
  induction n generalizing a with
  | zero => simp [getLe]
  | succ n ih =>
    have h := ih (a + 1)
    have hb := (m a).toNat_lt
    rw [getLe, Nat.pow_succ]
    omega

theorem getLe_congr (h : ∀ i, a ≤ i → i < a + n → m i = m' i) : getLe m a n = getLe m' a n := by
  induction n generalizing a with
  | zero => rfl
  | succ n ih =>
    rw [getLe, getLe, h a (Nat.le_refl a) (by omega), ih fun i h1 h2 => h i (by omega) (by omega)]

theorem getLe_zero (h : ∀ i, a ≤ i → i < a + n → m i = 0) : getLe m a n = 0 := by
  induction n generalizing a with
  | zero => rfl
  | succ n ih =>
    rw [getLe, h a (Nat.le_refl a) (by omega), ih fun i h1 h2 => h i (by omega) (by omega)]
    rfl

theorem putLe_out (h : i < a ∨ a + n ≤ i) : putLe m a v n i = m i := by
  induction n generalizing a v with
  | zero => rfl
  | succ n ih =>
    have hne : i ≠ a := by omega
    rw [putLe, Function.update_of_ne hne, ih (by omega)]

theorem getLe_putLe : getLe (putLe m a v n) a n = v % 256 ^ n := by
  induction n generalizing a v with
  | zero => simp [getLe, Nat.mod_one]
  | succ n ih =>
    have hrest : getLe (putLe m a v (n + 1)) (a + 1) n = getLe (putLe m (a + 1) (v / 256) n) (a + 1) n :=
      getLe_congr fun i h1 _ => by
        have hne : i ≠ a := by omega
        rw [putLe, Function.update_of_ne hne]
    have hbyte : (UInt8.ofNat v).toNat = v % 256 := UInt8.toNat_ofNat'
    rw [getLe, hrest, ih, putLe, Function.update_self, hbyte, Nat.pow_succ, Nat.mul_comm (256 ^ n),
      Nat.mod_mul]

/-- A number apart from the bytes written does not change. -/
theorem getLe_putLe_out (h : a + n ≤ d ∨ d + k ≤ a) : getLe (putLe m d v k) a n = getLe m a n :=
  getLe_congr fun i h1 h2 => putLe_out (by omega)

theorem getLe_memcpy_in (h₁ : d ≤ a) (h₂ : a + n ≤ d + len) :
    getLe (memcpy dst d src s len) a n = getLe src (s + (a - d)) n := by
  induction n generalizing a with
  | zero => rfl
  | succ n ih =>
    rw [getLe, getLe, memcpy_in ⟨h₁, by omega⟩, ih (by omega) (by omega)]
    have hs : s + (a + 1 - d) = s + (a - d) + 1 := by omega
    rw [hs]

theorem getLe_memcpy_out (h : a + n ≤ d ∨ d + len ≤ a) :
    getLe (memcpy dst d src s len) a n = getLe dst a n :=
  getLe_congr fun i h1 h2 => memcpy_out (by omega)

theorem putArray_out {f : Nat → Nat} (h : i < a ∨ a + k * n ≤ i) : putArray m a f k n i = m i := by
  induction n with
  | zero => rfl
  | succ n ih =>
    rw [Nat.mul_succ] at h
    rw [putArray, putLe_out (by omega), ih (by omega)]

theorem getLe_putArray {f : Nat → Nat} {j : Nat} (h : j < n) :
    getLe (putArray m a f k n) (a + k * j) k = f j % 256 ^ k := by
  induction n with
  | zero => omega
  | succ n ih =>
    rw [putArray]
    by_cases hj : j = n
    · subst hj; exact getLe_putLe
    · have hlt : k * (j + 1) ≤ k * n := Nat.mul_le_mul_left k (by omega)
      rw [Nat.mul_succ] at hlt
      rw [getLe_putLe_out (by omega), ih (by omega)]

theorem getLe_putArray_out {f : Nat → Nat} {l : Nat} (h : d + l ≤ a ∨ a + k * n ≤ d) :
    getLe (putArray m a f k n) d l = getLe m d l :=
  getLe_congr fun i h1 h2 => putArray_out (by omega)

end Ucore
