import Ucore.Libs.List

/-!
# `Libs.ListRing` — rings that are intact on both sides

`ListRing m head l`: in the memory `m` the entry `head` and the distinct entries `l` form one ring, through `list_next` in
this order and through `list_prev` in the opposite one. Each operation of `libs/list.h` has one lemma that says what it
makes of such a ring, and what it leaves alone.
-/

namespace Ucore

variable {α : Type} {m m' : ListMem α} {head x y : α} {l l₁ l₂ : List α}

structure ListRing (m : ListMem α) (head : α) (l : List α) : Prop where
  next : Seg (listNext m) head l head
  prev : Seg (listPrev m) head l.reverse head
  nodup : (head :: l).Nodup

namespace ListRing

theorem init [DecidableEq α] (m : ListMem α) (head : α) : ListRing (listInit m head) head [] where
  next := by simp [listNext_listInit]
  prev := by simp [listInit, listPrev_setPrev]
  nodup := by simp

/-- Only the entries of the ring matter. -/
theorem congr (h : ListRing m head l) (hm : ∀ z ∈ head :: l, m' z = m z) : ListRing m' head l where
  next := h.next.congr fun z hz => by rw [listNext, listNext, hm z hz]
  prev := h.prev.congr fun z hz => by
    rw [listPrev, listPrev, hm z (by simpa using hz)]
  nodup := h.nodup

/-! ## Neighbours -/

theorem next_head (h : ListRing m head l) : listNext m head = l.headD head := h.next.head

theorem prev_head (h : ListRing m head l) : listPrev m head = l.getLastD head := by
  rw [h.prev.head]
  simp

theorem next_eq (h : ListRing m head (l₁ ++ x :: l₂)) : listNext m x = l₂.headD head :=
  (Seg.append.mp h.next).2.head

theorem prev_eq (h : ListRing m head (l₁ ++ x :: l₂)) : listPrev m x = l₁.getLastD head := by
  have hprev := h.prev
  rw [List.reverse_append, List.reverse_cons, List.append_assoc, List.singleton_append] at hprev
  rw [(Seg.append.mp hprev).2.head]
  simp

/-- No entry points back at itself. -/
theorem prev_ne (h : ListRing m head l) (hx : x ∈ l) : listPrev m x ≠ x := by
  obtain ⟨l₁, l₂, rfl⟩ := List.append_of_mem hx
  rw [h.prev_eq]
  intro he
  have hmem : x ∈ head :: l₁ := by
    rw [← he]
    exact List.getLastD_mem_cons
  have hnd := h.nodup
  rw [← List.cons_append] at hnd
  exact (List.nodup_append.mp hnd).2.2 x hmem x (by simp) rfl

variable [DecidableEq α]

/-- `list_empty` is right. -/
theorem listEmpty_iff (h : ListRing m head l) : listEmpty m head = true ↔ l = [] := by
  rw [listEmpty, h.next_head]
  cases l with
  | nil => simp
  | cons y l =>
    have hne : y ≠ head := fun he => (List.nodup_cons.mp h.nodup).1 (by simp [he])
    simpa using hne

/-! ## Adding -/

/-- `__list_add` of a new entry between two neighbours. -/
theorem rawListAdd (l₁ l₂ : List α) (h : ListRing m head (l₁ ++ l₂)) (hx : x ∉ head :: (l₁ ++ l₂)) :
    ListRing (rawListAdd m x (l₁.getLastD head) (l₂.headD head)) head (l₁ ++ x :: l₂) where
  next := by
    rw [listNext_rawListAdd]
    exact Seg.insert h.nodup hx h.next
  prev := by
    have hnd : (head :: (l₂.reverse ++ l₁.reverse)).Nodup := by
      rw [← List.reverse_append, ((List.reverse_perm _).cons head).nodup_iff]
      exact h.nodup
    have hx' : x ∉ head :: (l₂.reverse ++ l₁.reverse) := by
      rw [← List.reverse_append, ((List.reverse_perm _).cons head).mem_iff]
      exact hx
    have hprev := h.prev
    rw [List.reverse_append] at hprev
    -- seen backwards, the entry comes behind `l₂`
    have hins := Seg.insert hnd hx' hprev
    rw [listPrev_rawListAdd, List.reverse_append, List.reverse_cons, List.append_assoc, List.singleton_append]
    simpa using hins
  nodup := by
    have hperm : (head :: (l₁ ++ x :: l₂)).Perm (x :: head :: (l₁ ++ l₂)) :=
      (List.perm_middle.cons head).trans (List.Perm.swap ..)
    exact hperm.nodup_iff.mpr (List.nodup_cons.mpr ⟨hx, h.nodup⟩)

/-- `list_add` behind the head. -/
theorem listAdd_head (h : ListRing m head l) (hx : x ∉ head :: l) : ListRing (listAdd m head x) head (x :: l) := by
  have hadd := rawListAdd [] l h hx
  rw [listAdd, listAddAfter, h.next_head]
  exact hadd

/-- `list_add` behind the entry `y`. -/
theorem listAdd (h : ListRing m head (l₁ ++ y :: l₂)) (hx : x ∉ head :: (l₁ ++ y :: l₂)) :
    ListRing (listAdd m y x) head (l₁ ++ y :: x :: l₂) := by
  rw [List.append_cons] at h hx
  have hadd := rawListAdd (l₁ ++ [y]) l₂ h hx
  rw [List.append_assoc] at hadd
  rw [Ucore.listAdd, listAddAfter, next_eq (by simpa using h)]
  simpa using hadd

/-- `list_add_before` the entry `y`. -/
theorem listAddBefore (h : ListRing m head (l₁ ++ y :: l₂)) (hx : x ∉ head :: (l₁ ++ y :: l₂)) :
    ListRing (listAddBefore m y x) head (l₁ ++ x :: y :: l₂) := by
  have hadd := rawListAdd l₁ (y :: l₂) h hx
  rw [Ucore.listAddBefore, h.prev_eq]
  exact hadd

/-! ## Deleting -/

theorem listDel (h : ListRing m head (l₁ ++ x :: l₂)) : ListRing (listDel m x) head (l₁ ++ l₂) where
  next := by
    rw [listNext_listDel, h.prev_eq, h.next_eq]
    exact Seg.remove h.nodup h.next
  prev := by
    have hnd : (head :: (l₂.reverse ++ x :: l₁.reverse)).Nodup := by
      have hperm := (List.reverse_perm (l₁ ++ x :: l₂)).cons head
      rw [List.reverse_append, List.reverse_cons, List.append_assoc, List.singleton_append] at hperm
      exact hperm.nodup_iff.mpr h.nodup
    have hprev := h.prev
    rw [List.reverse_append, List.reverse_cons, List.append_assoc, List.singleton_append] at hprev
    have hrem := Seg.remove hnd hprev
    rw [listPrev_listDel, h.prev_eq, h.next_eq, List.reverse_append]
    simpa using hrem
  nodup := h.nodup.sublist ((List.Sublist.append (List.Sublist.refl l₁) (List.sublist_cons_self x l₂)).cons_cons head)

end ListRing

/-! ## Frames -/

variable [DecidableEq α]

theorem rawListAdd_other {prev next : α} (hx : y ≠ x) (hp : y ≠ prev) (hn : y ≠ next) :
    rawListAdd m x prev next y = m y := by
  simp [rawListAdd, ListMem.setPrev, ListMem.setNext, hx, hp, hn]

theorem listDel_other (hp : y ≠ listPrev m x) (hn : y ≠ listNext m x) : listDel m x y = m y := by
  simp [listDel, rawListDel, ListMem.setPrev, ListMem.setNext, hp, hn]

/-! ## Several rings

The rings are indexed by `κ` and have no entry in common, so an entry can be moved from one to another. -/

variable {κ : Type} {head : κ → α} {R : κ → List α} {k : κ}

structure Rings (m : ListMem α) (head : κ → α) (R : κ → List α) : Prop where
  ring : ∀ k, ListRing m (head k) (R k)
  apart : ∀ k k', k ≠ k' → ∀ z ∈ head k :: R k, z ∉ head k' :: R k'

namespace Rings

omit [DecidableEq α] in
theorem congr (h : Rings m head R) (hm : ∀ k, ∀ z ∈ head k :: R k, m' z = m z) : Rings m' head R where
  ring k := (h.ring k).congr (hm k)
  apart := h.apart

omit [DecidableEq α] in
/-- An entry is on one ring only. -/
theorem unique (h : Rings m head R) {k' : κ} (hx : x ∈ R k) (hx' : x ∈ R k') : k = k' := by
  by_contra hne
  exact h.apart k k' hne x (List.mem_cons_of_mem _ hx) (List.mem_cons_of_mem _ hx')

omit [DecidableEq α] in
theorem head_notMem (h : Rings m head R) {k' : κ} : head k ∉ R k' := by
  intro hmem
  by_cases hk : k = k'
  · rw [hk] at hmem
    exact (List.nodup_cons.mp (h.ring k').nodup).1 hmem
  · exact h.apart k k' hk (head k) List.mem_cons_self (List.mem_cons_of_mem _ hmem)

variable [DecidableEq κ]

/-- `list_del` of an entry of the ring `k`. -/
theorem listDel (h : Rings m head R) (hx : x ∈ R k) :
    Rings (listDel m x) head (Function.update R k ((R k).erase x)) := by
  have hsub : ∀ j, ∀ z ∈ Function.update R k ((R k).erase x) j, z ∈ R j := by
    intro j z hz
    by_cases hj : j = k
    · subst hj
      rw [Function.update_self] at hz
      exact List.mem_of_mem_erase hz
    · rwa [Function.update_of_ne hj] at hz
  have hsub' : ∀ j, ∀ z ∈ head j :: Function.update R k ((R k).erase x) j, z ∈ head j :: R j := by
    intro j z hz
    rcases List.mem_cons.mp hz with rfl | hz
    · exact List.mem_cons_self
    · exact List.mem_cons_of_mem _ (hsub j z hz)
  refine ⟨fun j => ?_, fun j j' hne z hz hz' => h.apart j j' hne z (hsub' j z hz) (hsub' j' z hz')⟩
  have hring := h.ring k
  obtain ⟨l₁, l₂, hsplit⟩ := List.append_of_mem hx
  by_cases hj : j = k
  · subst hj
    rw [Function.update_self, hsplit]
    rw [hsplit] at hring
    have hnot : x ∉ l₁ := by
      intro hmem
      have hnd := (List.nodup_cons.mp hring.nodup).2
      exact (List.nodup_append.mp hnd).2.2 x hmem x List.mem_cons_self rfl
    rw [List.erase_append_right _ hnot, List.erase_cons_head]
    exact hring.listDel
  · -- both neighbours of `x` are on its own ring
    rw [Function.update_of_ne hj]
    rw [hsplit] at hring
    have hprev : listPrev m x ∈ head k :: R k := by
      rw [hring.prev_eq, hsplit]
      exact List.cons_subset_cons _ (List.subset_append_left l₁ _) List.getLastD_mem_cons
    have hnext : listNext m x ∈ head k :: R k := by
      rw [hring.next_eq, hsplit]
      cases l₂ with
      | nil => exact List.mem_cons_self
      | cons y l₂ => simp
    refine (h.ring j).congr fun z hz => listDel_other ?_ ?_
    · rintro rfl
      exact h.apart j k hj _ hz hprev
    · rintro rfl
      exact h.apart j k hj _ hz hnext

/-- `list_add_before` the head of the ring `k`: a new entry at its end. -/
theorem listAddBefore (h : Rings m head R) (k : κ) (hx : ∀ j, x ∉ head j :: R j) :
    Rings (listAddBefore m (head k) x) head (Function.update R k (R k ++ [x])) := by
  have hprev : listPrev m (head k) ∈ head k :: R k := by
    rw [(h.ring k).prev_head]
    exact List.getLastD_mem_cons
  have hcases : ∀ j, ∀ z ∈ head j :: Function.update R k (R k ++ [x]) j, z ∈ head j :: R j ∨ j = k ∧ z = x := by
    intro j z hz
    by_cases hj : j = k
    · subst hj
      rw [Function.update_self, ← List.cons_append, List.mem_append, List.mem_singleton] at hz
      exact hz.imp_right fun hzx => ⟨rfl, hzx⟩
    · rw [Function.update_of_ne hj] at hz
      exact .inl hz
  refine ⟨fun j => ?_, fun j j' hne z hz hz' => ?_⟩
  · by_cases hj : j = k
    · subst hj
      have hadd := ListRing.rawListAdd (R j) [] (by simpa using h.ring j) (by simpa using hx j)
      rw [Function.update_self, Ucore.listAddBefore, (h.ring j).prev_head]
      exact hadd
    · rw [Function.update_of_ne hj]
      refine (h.ring j).congr fun z hz => rawListAdd_other ?_ ?_ ?_
      · rintro rfl
        exact hx j hz
      · rintro rfl
        exact h.apart j k hj _ hz hprev
      · rintro rfl
        exact h.apart j k hj _ hz List.mem_cons_self
  · rcases hcases j z hz with hz | ⟨hj, hzx⟩
    · rcases hcases j' z hz' with hz' | ⟨-, hzx⟩
      · exact h.apart j j' hne z hz hz'
      · rw [hzx] at hz
        exact hx j hz
    · rcases hcases j' z hz' with hz' | ⟨hj', -⟩
      · rw [hzx] at hz'
        exact hx j' hz'
      · exact hne (hj.trans hj'.symm)

end Rings

end Ucore
