import Mathlib.Data.List.Range
import Mathlib.Logic.Function.Basic
import Mathlib.Order.Interval.Finset.Nat

/-!
# `Lib.RingBuffer` — a buffer of `B` cells, and positions that only grow

What is between the positions `r` and `w` lies in the cells `i % B`. `contents B buf r w` is what a reader gets from there, in
order. As long as `w ≤ r + B` the cells are different; writing to the cell of `w` adds an element at the end, and when the
buffer is full it takes the place of the first one.
-/

namespace Ucore

variable {α : Type} {B r w : Nat} {buf : Nat → α} {c : α}

def contents (B : Nat) (buf : Nat → α) (r w : Nat) : List α := (List.range' r (w - r)).map fun i => buf (i % B)

theorem length_contents (B : Nat) (buf : Nat → α) (r w : Nat) : (contents B buf r w).length = w - r := by
  rw [contents, List.length_map, List.length_range']

theorem contents_nil (h : w ≤ r) : contents B buf r w = [] := by
  rw [contents, Nat.sub_eq_zero_of_le h]
  rfl

/-- The first element. -/
theorem contents_front (h : r < w) : contents B buf r w = buf (r % B) :: contents B buf (r + 1) w := by
  have hlen : w - r = w - (r + 1) + 1 := by omega
  rw [contents, hlen, List.range'_succ, List.map_cons]
  rfl

/-- The last element. -/
theorem contents_back (h : r ≤ w) : contents B buf r (w + 1) = contents B buf r w ++ [buf (w % B)] := by
  have hlen : w + 1 - r = w - r + 1 := by omega
  rw [contents, hlen, List.range'_1_concat, List.map_append, Nat.add_sub_cancel' h]
  rfl

/-- Positions less than `B` apart have different cells. -/
theorem mod_ne {i : Nat} (hi : r ≤ i ∧ i < w) (hw : w < r + B) : i % B ≠ w % B := by
  intro heq
  have hmem : i ∈ Finset.Ico r (r + B) := Finset.mem_Ico.mpr ⟨hi.1, hi.2.trans hw⟩
  have hmem' : w ∈ Finset.Ico r (r + B) := Finset.mem_Ico.mpr ⟨hi.1.trans hi.2.le, hw⟩
  exact hi.2.ne (Nat.mod_injOn_Ico r B (Finset.mem_coe.mpr hmem) (Finset.mem_coe.mpr hmem') heq)

/-- The cell of `w` is free. -/
theorem contents_write (hw : w < r + B) : contents B (Function.update buf (w % B) c) r w = contents B buf r w := by
  apply List.map_congr_left
  intro i hi
  rw [List.mem_range'_1] at hi
  exact Function.update_of_ne (mod_ne ⟨hi.1, by omega⟩ hw) _ _

/-- **An element is added.** -/
theorem contents_push (h : r ≤ w) (hw : w < r + B) :
    contents B (Function.update buf (w % B) c) r (w + 1) = contents B buf r w ++ [c] := by
  rw [contents_back h, contents_write hw, Function.update_self]

/-- **The buffer is full**, and the first element is overwritten. -/
theorem contents_overwrite (hB : 0 < B) (hw : w = r + B) :
    contents B (Function.update buf (w % B) c) r w = c :: contents B buf (r + 1) w := by
  have hcell : w % B = r % B := by rw [hw, Nat.add_mod_right]
  rw [contents_front (by omega), hcell, Function.update_self, ← hcell, contents_write (by omega)]

end Ucore
