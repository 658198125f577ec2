import Mathlib.Algebra.BigOperators.Group.Finset.Basic
import Mathlib.Data.List.Nodup
import Mathlib.Data.List.Range
import Mathlib.Order.Interval.Finset.Nat

/-!
# `Lib.Slots` — equal slots, and lists threaded through them

A piece of memory is cut into slots of one size, and the free ones are kept on a list whose links are stored in the slots
themselves. `Threaded next null x l`: the list that begins with the pointer `x` is `l`.
-/

namespace Ucore

/-! ## Threaded lists -/

section Threaded

variable {α : Type} {next next' : α → α} {null x o : α} {l : List α}

def Threaded (next : α → α) (null : α) : α → List α → Prop
  | x, []     => x = null
  | x, o :: l => x = o ∧ o ≠ null ∧ Threaded next null (next o) l

namespace Threaded

theorem null_iff (h : Threaded next null x l) : x = null ↔ l = [] := by
  cases l with
  | nil => exact iff_of_true h rfl
  | cons o l =>
    refine iff_of_false ?_ (List.cons_ne_nil o l)
    rw [h.1]
    exact h.2.1

/-- What is not empty begins with the pointer itself. -/
theorem uncons (h : Threaded next null x l) (hx : x ≠ null) : ∃ rest, l = x :: rest ∧ Threaded next null (next x) rest := by
  cases l with
  | nil => exact absurd h hx
  | cons o rest =>
    obtain ⟨rfl, -, hrest⟩ := h
    exact ⟨rest, rfl, hrest⟩

/-- Only the links in the list matter. -/
theorem congr (h : Threaded next null x l) (hnext : ∀ o ∈ l, next' o = next o) : Threaded next' null x l := by
  induction l generalizing x with
  | nil => exact h
  | cons o l ih =>
    obtain ⟨hx, hne, hrest⟩ := h
    refine ⟨hx, hne, ?_⟩
    rw [hnext o List.mem_cons_self]
    exact ih hrest fun o' ho' => hnext o' (List.mem_cons_of_mem o ho')

/-- One more in front. -/
theorem push (h : Threaded next null x l) (ho : o ≠ null) (hself : next' o = x) (hnext : ∀ o' ∈ l, next' o' = next o') :
    Threaded next' null o (o :: l) := by
  refine ⟨rfl, ho, ?_⟩
  rw [hself]
  exact h.congr hnext

/-- An element is taken out by the link of the one in front of it. -/
theorem unlink [DecidableEq α] {q : α} {l₁ l₂ : List α} (h : Threaded next null x (l₁ ++ q :: o :: l₂))
    (hnd : (l₁ ++ q :: o :: l₂).Nodup) : Threaded (Function.update next q (next o)) null x (l₁ ++ q :: l₂) := by
  induction l₁ generalizing x with
  | nil =>
    obtain ⟨hx, hq, -, -, hrest⟩ := h
    refine ⟨hx, hq, ?_⟩
    rw [Function.update_self]
    refine hrest.congr fun z hz => Function.update_of_ne ?_ _ _
    rintro rfl
    exact (List.nodup_cons.mp hnd).1 (List.mem_cons_of_mem o hz)
  | cons y l₁ ih =>
    obtain ⟨hx, hy, hrest⟩ := h
    obtain ⟨hyl, hnd'⟩ := List.nodup_cons.mp hnd
    refine ⟨hx, hy, ?_⟩
    rw [Function.update_of_ne]
    · exact ih hrest hnd'
    · rintro rfl
      exact hyl (List.mem_append_right _ List.mem_cons_self)

end Threaded

end Threaded

/-! ## Slots -/

/-- The first addresses of `n` slots from `base` on. -/
def slots (base size n : Nat) : List Nat := (List.range n).map fun i => base + i * size

variable {base size n o o' : Nat}

theorem mem_slots : o ∈ slots base size n ↔ ∃ i < n, base + i * size = o := by
  simp [slots]

theorem length_slots (base size n : Nat) : (slots base size n).length = n := by
  simp [slots]

/-- The first slot, and those behind it. -/
theorem slots_succ (base size n : Nat) : slots base size (n + 1) = base :: slots (base + size) size n := by
  rw [slots, List.range_succ_eq_map, List.map_cons, List.map_map, Nat.zero_mul, Nat.add_zero, slots]
  congr 1
  refine List.map_congr_left fun i _ => ?_
  show base + (i + 1) * size = base + size + i * size
  rw [Nat.succ_mul]
  omega

theorem slots_nodup (base : Nat) (hsize : 0 < size) (n : Nat) : (slots base size n).Nodup := by
  refine List.nodup_range.map ?_
  intro i j hij
  have hmul : i * size = j * size := Nat.add_left_cancel hij
  exact Nat.eq_of_mul_eq_mul_right hsize hmul

/-- A slot lies between the ends. -/
theorem slot_bounds (ho : o ∈ slots base size n) : base ≤ o ∧ o + size ≤ base + n * size := by
  obtain ⟨i, hi, rfl⟩ := mem_slots.mp ho
  have hle : (i + 1) * size ≤ n * size := Nat.mul_le_mul_right size hi
  rw [Nat.succ_mul] at hle
  omega

/-- Two slots do not overlap. -/
theorem slots_apart (ho : o ∈ slots base size n) (ho' : o' ∈ slots base size n) (hne : o ≠ o') :
    o + size ≤ o' ∨ o' + size ≤ o := by
  obtain ⟨i, -, rfl⟩ := mem_slots.mp ho
  obtain ⟨j, -, rfl⟩ := mem_slots.mp ho'
  rcases Nat.lt_trichotomy i j with hij | rfl | hij
  · have hle : (i + 1) * size ≤ j * size := Nat.mul_le_mul_right size hij
    rw [Nat.succ_mul] at hle
    omega
  · exact absurd rfl hne
  · have hle : (j + 1) * size ≤ i * size := Nat.mul_le_mul_right size hij
    rw [Nat.succ_mul] at hle
    omega

/-- There is room for no more slots than their sizes together allow. -/
theorem room_of_apart {l : List Nat} {lo hi : Nat} (hnd : l.Nodup)
    (hapart : ∀ o ∈ l, ∀ o' ∈ l, o ≠ o' → o + size ≤ o' ∨ o' + size ≤ o) (hin : ∀ o ∈ l, lo ≤ o ∧ o + size ≤ hi) :
    l.length * size ≤ hi - lo := by
  have hsub : (l.toFinset.biUnion fun o => Finset.Ico o (o + size)) ⊆ Finset.Ico lo hi := by
    intro a ha
    obtain ⟨o, ho, hmem⟩ := Finset.mem_biUnion.mp ha
    obtain ⟨h1, h2⟩ := hin o (List.mem_toFinset.mp ho)
    rw [Finset.mem_Ico] at hmem ⊢
    omega
  have hdisjoint : ∀ o ∈ l.toFinset, ∀ o' ∈ l.toFinset, o ≠ o' →
      Disjoint (Finset.Ico o (o + size)) (Finset.Ico o' (o' + size)) := by
    intro o ho o' ho' hne
    refine Finset.disjoint_left.mpr fun a ha ha' => ?_
    have h := hapart o (List.mem_toFinset.mp ho) o' (List.mem_toFinset.mp ho') hne
    rw [Finset.mem_Ico] at ha ha'
    omega
  have hcard := Finset.card_le_card hsub
  rw [Finset.card_biUnion hdisjoint] at hcard
  simpa [List.toFinset_card_of_nodup hnd] using hcard

end Ucore
