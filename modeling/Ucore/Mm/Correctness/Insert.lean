import Ucore.Mm.Correctness.Counts

/-!
# `Mm.Correctness.Insert` — mapping and unmapping one page

One lemma for each function of `pmm.c` that writes a page table entry, in terms of `Deepened` (tables were added) and
`Remapped` (an entry was written).
-/

namespace Ucore

open PageMem

variable {s s' s1 : PageMem} {D : Finset Nat} {L : Nat → Prop} {d d' t n p q page la : Nat} {perm : Perm}

theorem setPte_setPte (s : PageMem) (t i : Nat) (e e' : Pte) : (s.setPte t i e).setPte t i e' = s.setPte t i e' := by
  simp only [PageMem.setPte, Function.update_idem, Function.update_self]

/-! ## `page_remove_pte` -/

theorem pageRemovePte_invalid {i : Nat} (hv : ¬ (s.table t i).v = true) : pageRemovePte t i s = .ok () s := by
  rw [pageRemovePte, Proc.get_bind, if_neg hv]
  rfl

theorem pageRemovePte_valid {i : Nat} (hv : (s.table t i).v = true) :
    pageRemovePte t i s = .ok () ((s.unref (s.table t i).ppn).setPte t i .zero) := by
  have href : (s.setRef (s.table t i).ppn (s.ref (s.table t i).ppn - 1)).ref (s.table t i).ppn =
      s.ref (s.table t i).ppn - 1 := Function.update_self ..
  rw [pageRemovePte, Proc.get_bind, if_pos hv]
  simp only [pageRefDec, Proc.modify_bind, Proc.get_bind, href]
  by_cases hone : s.ref (s.table t i).ppn = 1
  · rw [if_pos (by rw [hone]; rfl), unref, if_pos hone]
    rfl
  · rw [if_neg (by omega), unref, if_neg hone]
    rfl

/-- **`page_remove_pte`.** -/
theorem pageRemovePte_spec (h : Sound s D L) (hd : d ∈ D) (hn : n < userPages) (hpt : s.tab d (ptSlot n) = some t)
    (hv : (s.leaf d n).v = true) :
    ∃ s', pageRemovePte t (n % 512) s = .ok () s' ∧ Remapped D L d n .zero s s' := by
  rw [leaf_of_tab hpt] at hv
  refine ⟨_, pageRemovePte_valid hv, ?_⟩
  obtain ⟨htable, hdata, hpick, hnulls⟩ := unref_same s (s.table t (n % 512)).ppn
  have hmaps : ∀ p, s.maps d n = some p ↔ p = (s.table t (n % 512)).ppn := by
    intro p
    rw [maps_eq_some, leaf_of_tab hpt]
    exact ⟨fun hp => hp.2.symm, fun hp => ⟨hv, hp.symm⟩⟩
  refine remapped h hd hn hpt (fun p hp => nomatch hp) htable hdata hpick hnulls ?_ (unref_freed ..)
    (lastRef_length ..) ?_ fun p => mem_unref_free
  · intro p
    rw [unref_ref]
    simp only [hmaps]
    show _ = s.ref p + 0
    split <;> omega
  · intro p
    rw [mem_lastRef, hmaps]
    constructor
    · rintro ⟨rfl, hone⟩
      exact ⟨rfl, nofun, hone⟩
    · rintro ⟨rfl, -, hone⟩
      exact ⟨rfl, hone⟩

/-! ## `page_insert` -/

theorem pageInsertAt_run (page t i : Nat) (perm : Perm) (s : PageMem) :
    pageInsertAt page t i perm s = .ok () ((if (s.table t i).v = true then
      if (s.table t i).ppn = page then s else (s.setRef page (s.ref page + 1)).unref (s.table t i).ppn
      else s.setRef page (s.ref page + 1)).setPte t i (pteCreate page perm)) := by
  have hsame : (s.setRef page (s.ref page + 1)).table = s.table := rfl
  simp only [pageInsertAt, pageRefInc, Proc.modify_bind, Proc.get_bind, hsame]
  by_cases hv : (s.table t i).v = true
  · rw [if_pos hv, if_pos hv]
    by_cases hp : (s.table t i).ppn = page
    · have hback : ((s.setRef page (s.ref page + 1)).setRef page ((s.setRef page (s.ref page + 1)).ref page - 1)) = s := by
        simp only [setRef, Function.update_self, Function.update_idem, add_sub_cancel_right, Function.update_eq_self]
      rw [if_pos hp, if_pos hp, pageRefDec, Proc.modify_bind, hback]
      rfl
    · have hrun := @pageRemovePte_valid (s.setRef page (s.ref page + 1)) t i hv
      rw [if_neg hp, if_neg hp, Proc.bind_ok hrun, Proc.modify_run, setPte_setPte]
      rfl
  · rw [if_neg hv, if_neg hv]
    rfl

/-- **`page_insert` behind `get_pte`.** -/
theorem pageInsertAt_spec (h : Sound s D L) (hd : d ∈ D) (hn : n < userPages) (hpt : s.tab d (ptSlot n) = some t)
    (hfree : page ∉ s.free) (htable : ¬ s.IsTable D page) (hlost : ¬ L page) (perm : Perm) :
    ∃ s', pageInsertAt page t (n % 512) perm s = .ok () s' ∧ Remapped D L d n (pteCreate page perm) s s' := by
  refine ⟨_, pageInsertAt_run .., ?_⟩
  have hnew : ∀ p, target (pteCreate page perm) = some p → p ∉ s.free ∧ ¬ s.IsTable D p ∧ ¬ L p := by
    intro p hp
    obtain rfl := Option.some.inj hp
    exact ⟨hfree, htable, hlost⟩
  have htarget : ∀ p, target (pteCreate page perm) = some p ↔ p = page := by
    intro p
    exact ⟨fun hp => (Option.some.inj hp).symm, fun hp => congrArg some hp.symm⟩
  have hinc : ∀ p, (s.setRef page (s.ref page + 1)).ref p = s.ref p + if p = page then 1 else 0 := by
    intro p
    show Function.update s.ref _ _ p = _
    by_cases hp : p = page
    · rw [hp, Function.update_self, if_pos rfl]
    · rw [Function.update_of_ne hp, if_neg hp, add_zero]
  by_cases hv : (s.table t (n % 512)).v = true
  · have hmaps : ∀ p, s.maps d n = some p ↔ p = (s.table t (n % 512)).ppn := by
      intro p
      rw [maps_eq_some, leaf_of_tab hpt]
      exact ⟨fun hp => hp.2.symm, fun hp => ⟨hv, hp.symm⟩⟩
    rw [if_pos hv]
    by_cases hp : (s.table t (n % 512)).ppn = page
    · -- the page is mapped here already
      rw [if_pos hp]
      refine remapped h hd hn hpt hnew rfl rfl rfl rfl ?_ (List.nil_append _).symm (Nat.zero_le 1) ?_ fun p => ?_
      · intro p
        simp only [hmaps, htarget, hp]
      · intro p
        rw [hmaps, ne_eq, htarget, hp]
        exact ⟨fun hmem => absurd hmem List.not_mem_nil, fun hcon => absurd hcon.1 hcon.2.1⟩
      · exact ⟨fun hmem => .inl hmem, fun hmem => hmem.resolve_right List.not_mem_nil⟩
    · -- another page is mapped here, and loses a reference
      rw [if_neg hp]
      obtain ⟨h1, h2, h3, h4⟩ := unref_same (s.setRef page (s.ref page + 1)) (s.table t (n % 512)).ppn
      refine remapped h hd hn hpt hnew h1 h2 h3 h4 ?_ (unref_freed ..) (lastRef_length ..) ?_ fun p => mem_unref_free
      · intro p
        rw [unref_ref, hinc]
        simp only [hmaps, htarget]
        split <;> split <;> omega
      · intro p
        rw [mem_lastRef, hmaps, ne_eq, htarget, hinc, if_neg hp, add_zero]
        constructor
        · rintro ⟨rfl, hone⟩
          exact ⟨rfl, hp, hone⟩
        · rintro ⟨rfl, -, hone⟩
          exact ⟨rfl, hone⟩
  · have hnone : s.maps d n = none := by rw [maps, leaf_of_tab hpt, if_neg hv]
    rw [if_neg hv]
    refine remapped h hd hn hpt hnew rfl rfl rfl rfl ?_ (List.nil_append _).symm (Nat.zero_le 1) ?_ fun p => ?_
    · intro p
      rw [hinc, hnone]
      simp only [htarget, reduceCtorEq, if_false, add_zero]
    · intro p
      rw [hnone]
      exact ⟨fun hmem => absurd hmem List.not_mem_nil, fun hcon => by cases hcon.1⟩
    · exact ⟨fun hmem => .inl hmem, fun hmem => hmem.resolve_right List.not_mem_nil⟩

namespace PageMem

/-- The two steps of `page_insert`: tables are added on the way, and then the entry is written. -/
def Inserted (D : Finset Nat) (L : Nat → Prop) (d n : Nat) (e : Pte) (s s' : PageMem) : Prop :=
  ∃ s1, Deepened D d n s s1 ∧ Remapped D L d n e s1 s'

theorem Inserted.leaf {e : Pte} (h : Inserted D L d n e s s') (hd' : d' ∈ D) {m : Nat} (hm : m < userPages) :
    s'.leaf d' m = if d' = d ∧ m = n then e else s.leaf d' m := by
  obtain ⟨s1, hg, hr⟩ := h
  rw [hr.leaf d' hd' m hm, hg.leaf d' hd' m hm]

theorem Inserted.sound {e : Pte} (h : Inserted D L d n e s s') : Sound s' D L := by
  obtain ⟨s1, _, hr⟩ := h
  exact hr.sound

end PageMem

/-- **`page_insert`.** -/
theorem pageInsert_spec (h : Sound s D L) (hd : d ∈ D) (hla : la < userTop) (hfree : page ∉ s.free)
    (htable : ¬ s.IsTable D page) (hlost : ¬ L page) (perm : Perm) :
    (∃ s', pageInsert d page la perm s = .err (-eNoMem) s' ∧ Deepened D d (la / pgsize) s s' ∧ s.nulls < s'.nulls) ∨
    ∃ s', pageInsert d page la perm s = .ok () s' ∧ Inserted D L d (la / pgsize) (pteCreate page perm) s s' := by
  obtain ⟨s1, hg, ⟨hrun, hnull⟩ | ⟨pt, hrun, hpt⟩⟩ := getPte_true h.toTrees hd hla
  · refine .inl ⟨s1, ?_, hg, hnull⟩
    rw [pageInsert, Proc.bind_ok hrun]
    rfl
  · have hfree1 : page ∉ s1.free := fun hmem => hfree (hg.free hmem)
    obtain ⟨s', hat, hr⟩ := pageInsertAt_spec (hg.sound h) hd (page_lt hla) hpt hfree1
      (hg.not_isTable hfree htable) hlost perm
    refine .inr ⟨s', ?_, s1, hg, hr⟩
    rw [pageInsert, Proc.bind_ok hrun]
    exact hat

/-- **`page_remove`.** -/
theorem pageRemove_spec (h : Sound s D L) (hd : d ∈ D) (hla : la < userTop) :
    (¬ (s.leaf d (la / pgsize)).v = true ∧ pageRemove d la s = .ok () s) ∨
    ∃ s', pageRemove d la s = .ok () s' ∧ Remapped D L d (la / pgsize) .zero s s' := by
  rw [pageRemove, Proc.bind_ok (getPte_false s d hla)]
  cases hpt : s.tab d (ptSlot (la / pgsize)) with
  | none =>
    refine .inl ⟨?_, rfl⟩
    rw [leaf_of_none hpt]
    exact Bool.noConfusion
  | some pt =>
    by_cases hv : (s.leaf d (la / pgsize)).v = true
    · exact .inr (pageRemovePte_spec h hd (page_lt hla) hpt hv)
    · refine .inl ⟨hv, ?_⟩
      rw [leaf_of_tab hpt] at hv
      exact pageRemovePte_invalid hv

/-! ## Pages in the hands of the caller -/

namespace PageMem

/-- Free pages come and go; only pages that are mapped nowhere come. -/
theorem Sound.of_free (h : Sound s D L) (htable : s'.table = s.table)
    (href : ∀ p, ¬ s.IsTable D p → ¬ L p → s'.ref p = s.ref p)
    (hfree : ∀ p, p ∈ s'.free → p ∈ s.free ∨ ¬ s.IsTable D p ∧ ¬ L p ∧ s.count D p = 0) : Sound s' D L where
  inj := by
    rw [tab_congr htable]
    exact h.inj
  busy := by
    rw [isTable_congr htable]
    intro p hp hmem
    rcases hfree p hmem with hmem | ⟨hnot, -⟩
    · exact h.busy p hp hmem
    · exact hnot hp
  leafBusy := by
    rw [isTable_congr htable, maps_congr htable]
    intro d hd n p hn hmaps
    refine ⟨fun hmem => ?_, (h.leafBusy d hd n p hn hmaps).2⟩
    rcases hfree p hmem with hmem | ⟨-, -, hzero⟩
    · exact (h.leafBusy d hd n p hn hmaps).1 hmem
    · exact count_eq_zero.mp hzero d hd n hn hmaps
  ref := by
    rw [isTable_congr htable]
    intro p hp hl
    rw [href p hp hl, h.ref p hp hl, count, count, maps_congr htable]
  lost := by
    intro p hl
    obtain ⟨hnot, hzero⟩ := h.lost p hl
    rw [count, maps_congr htable]
    refine ⟨fun hmem => ?_, hzero⟩
    rcases hfree p hmem with hmem | ⟨-, hno, -⟩
    · exact hnot hmem
    · exact hno hl

theorem Sound.take (h : Sound s D L) (p : Nat) : Sound (s.take p) D L :=
  h.of_free rfl (fun _ _ _ => rfl) fun _ hq => .inl (Finset.mem_of_mem_erase hq)

theorem Sound.tick (h : Sound s D L) : Sound s.tick D L := h.of_free rfl (fun _ _ _ => rfl) fun _ hq => .inl hq

/-- A free page that the allocator has given out. -/
theorem Trees.not_isTable (h : Trees s D) (hp : p ∈ s.free) : ¬ s.IsTable D p := fun ht => h.busy p ht hp

theorem Sound.give (h : Sound s D L) (hp : ¬ s.IsTable D p) (hl : ¬ L p) (hzero : s.count D p = 0) :
    Sound (s.give p) D L := by
  refine h.of_free rfl (fun q hq hlq => ?_) fun q hq => ?_
  · show Function.update s.ref p 0 q = s.ref q
    by_cases hqp : q = p
    · subst hqp
      rw [Function.update_self, h.ref q hp hl, hzero]
      rfl
    · exact Function.update_of_ne hqp _ _
  · rcases Finset.mem_insert.mp hq with rfl | hq
    · exact .inr ⟨hp, hl, hzero⟩
    · exact .inl hq

theorem take_count (s : PageMem) (D : Finset Nat) (p q : Nat) : (s.take p).count D q = s.count D q := rfl

theorem Remapped.count {e : Pte} (h : Remapped D L d n e s s') (hd : d ∈ D) (hn : n < userPages) (p : Nat) :
    s'.count D p + (if s.maps d n = some p then 1 else 0) = s.count D p + if target e = some p then 1 else 0 :=
  count_of_leaf hd hn h.leaf p

end PageMem

/-- **`pgdir_alloc_page`.** The assertion holds. -/
theorem pgdirAllocPage_spec (h : Sound s D L) (hd : d ∈ D) (hla : la < userTop) (perm : Perm) :
    (pgdirAllocPage d la perm s = .ok none s.tick) ∨
    (∃ p s1, p ∈ s.free ∧ Deepened D d (la / pgsize) (s.take p) s1 ∧ s.nulls < s1.nulls ∧
      pgdirAllocPage d la perm s = .ok none (s1.give p)) ∨
    ∃ p s', p ∈ s.free ∧ Inserted D L d (la / pgsize) (pteCreate p perm) (s.take p) s' ∧
      pgdirAllocPage d la perm s = .ok (some p) s' := by
  rcases allocPage_cases s with hal | ⟨p, hp, hal⟩
  · refine .inl ?_
    rw [pgdirAllocPage, Proc.bind_ok hal]
    rfl
  · have htable : ¬ (s.take p).IsTable D p := h.not_isTable hp
    have hins := pageInsert_spec (h.take p) hd hla (Finset.notMem_erase p s.free) htable (h.not_lost (.inl hp)) perm
    rcases hins with ⟨s1, hrun, hg, hnull⟩ | ⟨s', hrun, hins⟩
    · refine .inr (.inl ⟨p, s1, hp, hg, hnull, ?_⟩)
      rw [pgdirAllocPage, Proc.bind_ok hal]
      show (Proc.attempt (pageInsert d p la perm) >>= _) (s.take p) = _
      rw [Proc.bind_ok (Proc.attempt_err hrun)]
      rfl
    · refine .inr (.inr ⟨p, s', hp, hins, ?_⟩)
      -- the page was mapped nowhere, so this is its only reference
      have hone : s'.ref p = 1 := by
        obtain ⟨s1, hg, hr⟩ := hins
        have hmaps : s'.maps d (la / pgsize) = some p := by
          rw [maps_eq_target, hr.leaf d hd _ (page_lt hla), if_pos ⟨rfl, rfl⟩]
          rfl
        have hold : s1.count D p = 0 := by
          rw [hg.count, take_count]
          exact h.count_free hp
        have hcount := hr.count hd (page_lt hla) p
        have hne : s1.maps d (la / pgsize) ≠ some p := count_eq_zero.mp hold d hd _ (page_lt hla)
        rw [hold, if_neg hne, if_pos (show target (pteCreate p perm) = some p from rfl)] at hcount
        rw [hr.sound.ref_mapped hd (page_lt hla) hmaps]
        omega
      rw [pgdirAllocPage, Proc.bind_ok hal]
      show (Proc.attempt (pageInsert d p la perm) >>= _) (s.take p) = _
      rw [Proc.bind_ok (Proc.attempt_ok hrun)]
      show (Proc.check MmPanic.allocRef (s'.ref p = 1) >>= _) s' = _
      rw [Proc.check_bind_pos hone]
      rfl

end Ucore
