import Mathlib.Data.List.Nodup

/-!
# `Lib.Chained` — doubly linked lists that end with a null pointer

`Chained next prev y head l`: the nodes reached from `head` by `next` are `l`, in this order, and `prev` leads back, from
the first one to `y`. The pointers are functions on the nodes, so that many lists share them; the lemmas say what
becomes of a list when nodes join it or leave it, whatever happens to the pointers of other nodes.
-/

namespace Ucore

variable {ι : Type} {next prev next' prev' : ι → Option ι} {y head : Option ι} {p q : ι} {l rest : List ι}

def Chained (next prev : ι → Option ι) : Option ι → Option ι → List ι → Prop
  | _, head, []        => head = none
  | y, head, p :: rest => head = some p ∧ prev p = y ∧ Chained next prev (some p) (next p) rest

namespace Chained

theorem nil_iff (h : Chained next prev y head l) : head = none ↔ l = [] := by
  cases l with
  | nil => exact ⟨fun _ => rfl, fun _ => h⟩
  | cons p rest => exact ⟨fun hnone => (Option.some_ne_none p (h.1.symm.trans hnone)).elim, fun hnil => nomatch hnil⟩

/-- The list starts with the node at `head`. -/
theorem uncons (h : Chained next prev y (some p) l) :
    ∃ rest, l = p :: rest ∧ prev p = y ∧ Chained next prev (some p) (next p) rest := by
  cases l with
  | nil => exact nomatch h
  | cons q rest =>
    obtain rfl := Option.some.inj h.1
    exact ⟨rest, rfl, h.2⟩

/-- Only the pointers of the nodes in the list matter. -/
theorem congr (h : Chained next prev y head l) (hnext : ∀ q ∈ l, next' q = next q) (hprev : ∀ q ∈ l, prev' q = prev q) :
    Chained next' prev' y head l := by
  induction l generalizing y head with
  | nil => exact h
  | cons p rest ih =>
    obtain ⟨hhead, hback, hrest⟩ := h
    refine ⟨hhead, (hprev p List.mem_cons_self).trans hback, ?_⟩
    rw [hnext p List.mem_cons_self]
    exact ih hrest (fun q hq => hnext q (List.mem_cons_of_mem p hq)) fun q hq => hprev q (List.mem_cons_of_mem p hq)

/-- What is in front of the list shows in its first node only. -/
theorem front {y' : Option ι} (h : Chained next prev y head l) (hnodup : l.Nodup) (hnext : ∀ q ∈ l, next' q = next q)
    (hfirst : ∀ q, head = some q → prev' q = y') (hprev : ∀ q ∈ l, head ≠ some q → prev' q = prev q) :
    Chained next' prev' y' head l := by
  cases l with
  | nil => exact h
  | cons p rest =>
    obtain ⟨hhead, -, hrest⟩ := h
    obtain ⟨hnot, -⟩ := List.nodup_cons.mp hnodup
    refine ⟨hhead, hfirst p hhead, ?_⟩
    rw [hnext p List.mem_cons_self]
    refine hrest.congr (fun q hq => hnext q (List.mem_cons_of_mem p hq)) fun q hq => ?_
    refine hprev q (List.mem_cons_of_mem p hq) fun heq => hnot ?_
    rw [Option.some.inj (hhead.symm.trans heq)]
    exact hq

/-- **A node joins** at the front. -/
theorem push (h : Chained next prev y head l) (hnodup : l.Nodup) (hself : next' p = head) (hnone : prev' p = none)
    (hnext : ∀ q ∈ l, next' q = next q) (hfirst : ∀ q, head = some q → prev' q = some p)
    (hprev : ∀ q ∈ l, head ≠ some q → prev' q = prev q) : Chained next' prev' none (some p) (p :: l) := by
  refine ⟨rfl, hnone, ?_⟩
  rw [hself]
  exact h.front hnodup hnext hfirst hprev

theorem next_mem (h : Chained next prev y head l) (hp : p ∈ l) (hq : next p = some q) : q ∈ l := by
  induction l generalizing y head with
  | nil => exact absurd hp List.not_mem_nil
  | cons r rest ih =>
    obtain ⟨-, -, hrest⟩ := h
    rcases List.mem_cons.mp hp with rfl | hp
    · rw [hq] at hrest
      obtain ⟨rest', rfl, -⟩ := hrest.uncons
      exact List.mem_cons_of_mem _ List.mem_cons_self
    · exact List.mem_cons_of_mem r (ih hrest hp)

theorem prev_mem (h : Chained next prev y head l) (hp : p ∈ l) (hq : prev p = some q) : y = some q ∨ q ∈ l := by
  induction l generalizing y head with
  | nil => exact absurd hp List.not_mem_nil
  | cons r rest ih =>
    obtain ⟨-, hback, hrest⟩ := h
    rcases List.mem_cons.mp hp with rfl | hp
    · exact .inl (hback.symm.trans hq)
    · rcases ih hrest hp with heq | hmem
      · rw [← Option.some.inj heq]
        exact .inr List.mem_cons_self
      · exact .inr (List.mem_cons_of_mem r hmem)

/-- With a node in front of the list there is one in front of each of its nodes. -/
theorem prev_some {r : ι} (h : Chained next prev (some r) head l) (hp : p ∈ l) : ∃ q, prev p = some q ∧ q ∈ r :: l := by
  induction l generalizing r head with
  | nil => exact absurd hp List.not_mem_nil
  | cons s rest ih =>
    obtain ⟨-, hback, hrest⟩ := h
    rcases List.mem_cons.mp hp with rfl | hp
    · exact ⟨r, hback, List.mem_cons_self⟩
    · obtain ⟨q, hq, hmem⟩ := ih hrest hp
      exact ⟨q, hq, List.mem_cons_of_mem r hmem⟩

/-- **A node leaves**: the one behind it and the one in front of it are linked to each other, and where there is none in
    front the list starts later. -/
theorem remove [DecidableEq ι] (h : Chained next prev y head l) (hnodup : l.Nodup) (hout : ∀ q, y = some q → q ∉ l)
    (hp : p ∈ l) (hnext : ∀ q ∈ l, q ≠ p → next' q = if prev p = some q then next p else next q)
    (hprev : ∀ q ∈ l, q ≠ p → prev' q = if next p = some q then prev p else prev q) :
    Chained next' prev' y (if prev p = y then next p else head) (l.erase p) := by
  induction l generalizing y head with
  | nil => exact absurd hp List.not_mem_nil
  | cons r rest ih =>
    obtain ⟨hhead, hback, hrest⟩ := h
    obtain ⟨hnot, hnodup⟩ := List.nodup_cons.mp hnodup
    by_cases hr : r = p
    · -- the first one leaves
      subst hr
      rw [List.erase_cons_head, if_pos hback]
      have hne : ∀ q ∈ rest, q ≠ r := fun q hq heq => hnot (heq ▸ hq)
      refine hrest.front hnodup (fun q hq => ?_) (fun q heq => ?_) fun q hq heq => ?_
      · rw [hnext q (List.mem_cons_of_mem r hq) (hne q hq)]
        refine if_neg fun hfront => hout q (hback.symm.trans hfront) (List.mem_cons_of_mem r hq)
      · have hmem : q ∈ rest := by
          rw [heq] at hrest
          obtain ⟨_, rfl, -⟩ := hrest.uncons
          exact List.mem_cons_self
        rw [hprev q (List.mem_cons_of_mem r hmem) (hne q hmem), if_pos heq]
        exact hback
      · rw [hprev q (List.mem_cons_of_mem r hq) (hne q hq), if_neg heq]
    · have hp' : p ∈ rest := (List.mem_cons.mp hp).resolve_left fun heq => hr heq.symm
      -- the node in front of it is in the list
      have hfront : prev p ≠ y := by
        intro heq
        obtain ⟨q, hq, hmem⟩ := hrest.prev_some hp'
        exact hout q (heq.symm.trans hq) hmem
      rw [List.erase_cons_tail (by simpa using hr), if_neg hfront]
      have hir := ih hrest hnodup (fun q heq => Option.some.inj heq ▸ hnot) hp'
        (fun q hq => hnext q (List.mem_cons_of_mem r hq)) fun q hq => hprev q (List.mem_cons_of_mem r hq)
      refine ⟨hhead, ?_, ?_⟩
      · rw [hprev r List.mem_cons_self hr]
        refine (if_neg fun heq => ?_).trans hback
        exact hnot (hrest.next_mem hp' heq)
      · rw [hnext r List.mem_cons_self hr]
        exact hir

end Chained

end Ucore
