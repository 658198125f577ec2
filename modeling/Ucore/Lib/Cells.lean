import Mathlib.Logic.Function.Basic

/-!
# `Lib.Cells` — places that share cells

A place refers to a cell or to none, and what is seen at the place is what the cell holds. Several places may share a cell. As long
as a cell is written to through a place that has it alone (`Exclusive`), nobody can tell that cells are shared: each of
the operations changes what is seen at the place that it is about, and nowhere else.
-/

namespace Ucore

/-- `own k` says that the cell of the place `k` may be written to there. -/
structure Cells (κ π α : Type) where
  cell : κ → Option π
  own : κ → Bool
  data : π → α

namespace Cells

variable {κ π α : Type} {c c' : Cells κ π α} {k k' : κ} {p : π} {a : α} {o : Option π} {w : Bool}

/-- What is seen at a place. -/
def view (c : Cells κ π α) (k : κ) : Option α := (c.cell k).map c.data

/-- A cell that may be written to at a place is the cell of no other place. -/
def Exclusive (c : Cells κ π α) : Prop := ∀ k p, c.cell k = some p → c.own k = true → ∀ k', c.cell k' = some p → k' = k

/-- No place refers to the cell. -/
def Unused (c : Cells κ π α) (p : π) : Prop := ∀ k, c.cell k ≠ some p

/-- The place `k` refers to `o`. -/
def put [DecidableEq κ] (c : Cells κ π α) (k : κ) (o : Option π) (w : Bool) : Cells κ π α :=
  { c with cell := Function.update c.cell k o, own := Function.update c.own k w }

def store [DecidableEq π] (c : Cells κ π α) (p : π) (a : α) : Cells κ π α := { c with data := Function.update c.data p a }

theorem view_eq_none : c.view k = none ↔ c.cell k = none := Option.map_eq_none_iff

theorem view_of_cell (h : c.cell k = some p) : c.view k = some (c.data p) := by simp [view, h]

/-! ## Writing to a cell -/

section Store

variable [DecidableEq π]

@[simp] theorem store_cell (c : Cells κ π α) (p : π) (a : α) : (c.store p a).cell = c.cell := rfl

@[simp] theorem store_own (c : Cells κ π α) (p : π) (a : α) : (c.store p a).own = c.own := rfl

@[simp] theorem store_data (c : Cells κ π α) (p : π) (a : α) : (c.store p a).data = Function.update c.data p a := rfl

theorem Exclusive.store (h : c.Exclusive) (p : π) (a : α) : (c.store p a).Exclusive := h

theorem Unused.store {q : π} (h : c.Unused q) (p : π) (a : α) : (c.store p a).Unused q := h

/-- Nobody sees what is written to a cell that is not in use. -/
theorem Unused.view_store (h : c.Unused p) (a : α) : (c.store p a).view = c.view := by
  funext k
  cases hk : c.cell k with
  | none => simp [view, hk]
  | some q =>
    have hne : q ≠ p := fun heq => h k (heq ▸ hk)
    simp [view, hk, hne]

/-- **Writing to a cell of one's own** is seen at this place, and nowhere else. -/
theorem Exclusive.view_store [DecidableEq κ] (h : c.Exclusive) (hk : c.cell k = some p) (hown : c.own k = true) (a : α) :
    (c.store p a).view = Function.update c.view k (some a) := by
  funext j
  by_cases hj : j = k
  · subst hj
    simp [view, hk]
  · rw [Function.update_of_ne hj]
    cases hcell : c.cell j with
    | none => simp [view, hcell]
    | some q =>
      have hne : q ≠ p := by
        rintro rfl
        exact hj (h k q hk hown j hcell)
      simp [view, hcell, hne]

end Store

/-! ## Referring to a cell -/

section Put

variable [DecidableEq κ]

@[simp] theorem put_data (c : Cells κ π α) (k : κ) (o : Option π) (w : Bool) : (c.put k o w).data = c.data := rfl

theorem view_put (c : Cells κ π α) (k : κ) (o : Option π) (w : Bool) :
    (c.put k o w).view = Function.update c.view k (o.map c.data) := by
  funext j
  by_cases hj : j = k
  · subst hj
    simp [view, put]
  · simp [view, put, hj]

/-- The new cell must not be one that either side may write to. -/
theorem Exclusive.put (h : c.Exclusive) (hnew : ∀ p, o = some p → ∀ j, j ≠ k → c.cell j = some p → w = false ∧ c.own j = false) :
    (c.put k o w).Exclusive := by
  intro j p hj hown j' hj'
  by_cases hjk : j = k
  · subst hjk
    have ho : o = some p := by simpa [Cells.put] using hj
    have hw : w = true := by simpa [Cells.put] using hown
    by_contra hne
    have hold : c.cell j' = some p := by simpa [Cells.put, hne] using hj'
    have hboth := hnew p ho j' hne hold
    rw [hw] at hboth
    exact Bool.noConfusion hboth.1
  · have hold : c.cell j = some p := by simpa [Cells.put, hjk] using hj
    have hmine : c.own j = true := by simpa [Cells.put, hjk] using hown
    by_cases hj'k : j' = k
    · subst hj'k
      have ho : o = some p := by simpa [Cells.put] using hj'
      have hboth := hnew p ho j hjk hold
      rw [hmine] at hboth
      exact Bool.noConfusion hboth.2
    · have hold' : c.cell j' = some p := by simpa [Cells.put, hj'k] using hj'
      exact h j p hold hmine j' hold'

/-- A cell that has not been in use. -/
theorem Exclusive.put_unused (h : c.Exclusive) (hp : c.Unused p) (k : κ) (w : Bool) : (c.put k (some p) w).Exclusive := by
  apply h.put
  intro q hq j _ hj
  cases hq
  exact absurd hj (hp j)

theorem Exclusive.put_none (h : c.Exclusive) (k : κ) (w : Bool) : (c.put k none w).Exclusive := by
  apply h.put
  intro p hp
  cases hp

/-- **A copy of one's own** of what is seen at the place, in a cell that has not been in use: nobody sees a difference. -/
theorem view_copy [DecidableEq π] {q : π} (hk : c.cell k = some p) (hq : c.Unused q) (w : Bool) :
    ((c.store q (c.data p)).put k (some q) w).view = c.view := by
  rw [view_put, hq.view_store]
  simp [← view_of_cell hk]

/-- The right to write to the cell that the place refers to, if no other place does. -/
theorem Exclusive.put_sole (h : c.Exclusive) (hsole : ∀ j, c.cell j = some p → j = k) (w : Bool) : (c.put k (some p) w).Exclusive := by
  apply h.put
  intro q hq j hne hj
  cases hq
  exact absurd (hsole j hj) hne

theorem view_put_same (hk : c.cell k = some p) (w : Bool) : (c.put k (some p) w).view = c.view := by
  rw [view_put]
  simp [← view_of_cell hk]

end Put

/-! ## Sharing -/

/-- **Sharing.** A place refers to nothing now, or it has kept its cell, without more rights to it, or it has got the cell of
another place; then neither of the two may write to the cell. -/
theorem Exclusive.share (h : c.Exclusive)
    (hs : ∀ k, c'.cell k = none ∨ c'.cell k = c.cell k ∧ (c'.own k = true → c.own k = true) ∨
      ∃ j, c'.cell k = c.cell j ∧ c'.own k = false ∧ c'.own j = false) : c'.Exclusive := by
  intro k p hk hown k' hk'
  rcases hs k with hnone | ⟨hkeep, hright⟩ | ⟨_, _, hnot, _⟩
  · rw [hk] at hnone
    cases hnone
  · rw [hkeep] at hk
    rcases hs k' with hnone | ⟨hkeep', _⟩ | ⟨j, hcell, _, hnot⟩
    · rw [hk'] at hnone
      cases hnone
    · rw [hkeep'] at hk'
      exact h k p hk (hright hown) k' hk'
    · -- the cell of `k` would be the cell of `j`, which may not write to it
      rw [hcell] at hk'
      rw [h k p hk (hright hown) j hk', hown] at hnot
      exact Bool.noConfusion hnot
  · rw [hown] at hnot
    exact Bool.noConfusion hnot

theorem view_congr (hcell : c'.cell k = c.cell k') (hdata : ∀ p, c.cell k' = some p → c'.data p = c.data p) :
    c'.view k = c.view k' := by
  cases hk : c.cell k' with
  | none => simp [view, hcell, hk]
  | some p => simp [view, hcell, hk, hdata p hk]

end Cells

end Ucore
