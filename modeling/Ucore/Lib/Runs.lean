import Mathlib.Data.List.Pairwise
import Mathlib.Data.Set.Basic

/-!
# `Lib.Runs` — the maximal runs of a set of numbers

A range is a pair of its first number and its length. A list of ranges that are in ascending order with a gap behind each
of them (`Gapped`) lists exactly the maximal runs of the numbers it covers (`Gapped.mem_iff`), and is determined by them
(`Gapped.ext`).
-/

namespace Ucore

/-- The numbers in the range `b`. -/
def range (b : Nat × Nat) : Set Nat := {i | b.1 ≤ i ∧ i < b.1 + b.2}

@[simp] theorem mem_range {b : Nat × Nat} {i : Nat} : i ∈ range b ↔ b.1 ≤ i ∧ i < b.1 + b.2 := Iff.rfl

/-- The numbers in the ranges of a list. -/
def cover (l : List (Nat × Nat)) : Set Nat := {i | ∃ b ∈ l, i ∈ range b}

@[simp] theorem mem_cover {l : List (Nat × Nat)} {i : Nat} : i ∈ cover l ↔ ∃ b ∈ l, i ∈ range b := Iff.rfl

@[simp] theorem cover_nil : cover [] = ∅ := by
  ext i
  simp

@[simp] theorem cover_cons (b : Nat × Nat) (l : List (Nat × Nat)) : cover (b :: l) = range b ∪ cover l := by
  ext i
  simp

@[simp] theorem cover_append (l₁ l₂ : List (Nat × Nat)) : cover (l₁ ++ l₂) = cover l₁ ∪ cover l₂ := by
  ext i
  simp only [mem_cover, List.mem_append, or_and_right, exists_or, Set.mem_union]

/-- Two ranges end to end are one. -/
theorem range_add (p m n : Nat) : range (p, m + n) = range (p, m) ∪ range (p + m, n) := by
  ext i
  simp only [mem_range, Set.mem_union]
  omega

/-- `b` is a run in `F` that cannot be prolonged on either side. -/
structure MaximalRun (F : Set Nat) (b : Nat × Nat) : Prop where
  pos : 0 < b.2
  sub : ∀ i ∈ range b, i ∈ F
  left : ∀ i, i + 1 = b.1 → i ∉ F
  right : b.1 + b.2 ∉ F

/-- Two maximal runs with a common number are one. -/
theorem MaximalRun.eq_of_common {F : Set Nat} {a b : Nat × Nat} (ha : MaximalRun F a) (hb : MaximalRun F b) {i : Nat}
    (hia : i ∈ range a) (hib : i ∈ range b) : a = b := by
  have key : ∀ {a b : Nat × Nat}, MaximalRun F a → MaximalRun F b → i ∈ range a → i ∈ range b →
      b.1 ≤ a.1 ∧ a.1 + a.2 ≤ b.1 + b.2 := by
    intro a b ha hb hia hib
    simp only [mem_range] at hia hib
    constructor
    · -- else the number in front of `b` would be in `a`
      by_contra hlt
      refine hb.left (b.1 - 1) (by omega) (ha.sub _ ?_)
      simp only [mem_range]
      omega
    · by_contra hlt
      refine hb.right (ha.sub _ ?_)
      simp only [mem_range]
      omega
  have h₁ := key ha hb hia hib
  have h₂ := key hb ha hib hia
  refine Prod.ext ?_ ?_
  · omega
  · omega

/-- Ascending, no range empty, and a gap between any two. -/
structure Gapped (l : List (Nat × Nat)) : Prop where
  pos : ∀ b ∈ l, 0 < b.2
  gap : l.Pairwise fun a b => a.1 + a.2 < b.1

namespace Gapped

variable {l l' : List (Nat × Nat)} {a b : Nat × Nat}

theorem nil : Gapped [] := ⟨by simp, List.Pairwise.nil⟩

theorem append {l₁ l₂ : List (Nat × Nat)} :
    Gapped (l₁ ++ l₂) ↔ Gapped l₁ ∧ Gapped l₂ ∧ ∀ a ∈ l₁, ∀ b ∈ l₂, a.1 + a.2 < b.1 := by
  constructor
  · rintro ⟨hpos, hgap⟩
    obtain ⟨h₁, h₂, h₁₂⟩ := List.pairwise_append.mp hgap
    exact ⟨⟨fun b hb => hpos b (by simp [hb]), h₁⟩, ⟨fun b hb => hpos b (by simp [hb]), h₂⟩, h₁₂⟩
  · rintro ⟨h₁, h₂, h₁₂⟩
    refine ⟨fun b hb => ?_, List.pairwise_append.mpr ⟨h₁.gap, h₂.gap, h₁₂⟩⟩
    exact (List.mem_append.mp hb).elim (h₁.pos b) (h₂.pos b)

theorem cons {b : Nat × Nat} {l : List (Nat × Nat)} :
    Gapped (b :: l) ↔ 0 < b.2 ∧ (∀ c ∈ l, b.1 + b.2 < c.1) ∧ Gapped l := by
  constructor
  · rintro ⟨hpos, hgap⟩
    obtain ⟨hb, hl⟩ := List.pairwise_cons.mp hgap
    exact ⟨hpos b (by simp), hb, fun c hc => hpos c (by simp [hc]), hl⟩
  · rintro ⟨hpos, hb, hl⟩
    refine ⟨fun c hc => ?_, List.pairwise_cons.mpr ⟨hb, hl.gap⟩⟩
    rcases List.mem_cons.mp hc with rfl | hc
    · exact hpos
    · exact hl.pos c hc

/-- Between two ranges there is room for another number. -/
theorem apart (h : Gapped l) (ha : a ∈ l) (hb : b ∈ l) (hne : a ≠ b) : a.1 + a.2 < b.1 ∨ b.1 + b.2 < a.1 := by
  have hsymm : Std.Symm fun a b : Nat × Nat => a.1 + a.2 < b.1 ∨ b.1 + b.2 < a.1 := ⟨fun _ _ => Or.symm⟩
  have hpair : l.Pairwise fun a b => a.1 + a.2 < b.1 ∨ b.1 + b.2 < a.1 := h.gap.imp fun hab => Or.inl hab
  exact hpair.forall ha hb hne

/-- A number next to a range, or inside it, can only be covered by that range. -/
theorem eq_of_touch (h : Gapped l) (ha : a ∈ l) (hb : b ∈ l) {i : Nat} (hi : i ∈ range b) (h₁ : a.1 ≤ i + 1)
    (h₂ : i ≤ a.1 + a.2) : a = b := by
  by_contra hne
  simp only [mem_range] at hi
  rcases h.apart ha hb hne with hlt | hlt
  · omega
  · omega

theorem maximalRun (h : Gapped l) (hb : b ∈ l) : MaximalRun (cover l) b := by
  refine ⟨h.pos b hb, fun i hi => ⟨b, hb, hi⟩, fun i hi => ?_, ?_⟩
  · rintro ⟨c, hc, hic⟩
    obtain rfl := h.eq_of_touch hb hc hic (by omega) (by omega)
    simp only [mem_range] at hic
    omega
  · rintro ⟨c, hc, hic⟩
    obtain rfl := h.eq_of_touch hb hc hic (by omega) (by omega)
    simp only [mem_range] at hic
    omega

/-- **The members are the maximal runs.** -/
theorem mem_iff (h : Gapped l) : b ∈ l ↔ MaximalRun (cover l) b := by
  refine ⟨h.maximalRun, fun hb => ?_⟩
  have hib : b.1 ∈ range b := by
    have := hb.pos
    simp only [mem_range]
    omega
  -- the member that covers the first number of the run
  obtain ⟨c, hc, hic⟩ := hb.sub b.1 hib
  rw [hb.eq_of_common (h.maximalRun hc) hib hic]
  exact hc

/-- A gapped list is determined by the numbers it covers. -/
theorem ext (h : Gapped l) (h' : Gapped l') (hcover : cover l = cover l') : l = l' := by
  have hlt : ∀ {l : List (Nat × Nat)}, Gapped l → l.Pairwise fun a b => a.1 < b.1 :=
    fun h => h.gap.imp fun hab => by omega
  have hnd : ∀ {l : List (Nat × Nat)}, Gapped l → l.Nodup := fun h => (hlt h).imp fun hab he => by
    rw [he] at hab
    omega
  have hperm : l.Perm l' := by
    refine (List.perm_ext_iff_of_nodup (hnd h) (hnd h')).mpr fun b => ?_
    rw [h.mem_iff, h'.mem_iff, hcover]
  exact hperm.eq_of_pairwise (fun a b _ _ hab hba => absurd hab (by omega)) (hlt h) (hlt h')

end Gapped

end Ucore
