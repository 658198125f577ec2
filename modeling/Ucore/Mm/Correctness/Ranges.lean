import Ucore.Mm.Correctness.Insert

/-!
# `Mm.Correctness.Ranges` — `unmap_range` and `copy_range`, round by round

A round looks at one page and goes on to the next one, or to the next page table when there is none here.
`rangeLoop_meets` is the rule for the loop: each round gets at least one page further, so the loop ends.
-/

namespace Ucore

open PageMem

variable {s s' s1 : PageMem} {D : Finset Nat} {L : Nat → Prop} {d d' t n p q page la start stop : Nat} {perm : Perm}

/-- **The loop rule.** -/
theorem rangeLoop_meets {body : Nat → MemM Nat} {Q : Nat → PageMem → Prop} {E : Int → PageMem → Prop}
    {P : MmPanic → Prop} (hbody : ∀ start s, start < stop → Q start s →
      (body start s).Meets (fun next s' => start + pgsize ≤ next ∧ Q next s') E P) (fuel : Nat) :
    ∀ start s, (stop - start) / pgsize < fuel → start < stop → Q start s →
      (rangeLoop body stop fuel start s).Meets (fun _ s' => ∃ next, stop ≤ next ∧ Q next s') E P := by
  induction fuel with
  | zero => exact fun start s hfuel => absurd hfuel (Nat.not_lt_zero _)
  | succ fuel ih =>
    intro start s hfuel hstart hQ
    refine (hbody start s hstart hQ).bind fun next s' ⟨hnext, hQ'⟩ => ?_
    have hpg : 0 < pgsize := by decide
    by_cases hlt : next < stop
    · have hcond : next ≠ 0 ∧ next < stop := ⟨by omega, hlt⟩
      rw [if_pos hcond]
      refine ih next s' ?_ hlt hQ'
      have hstep : (stop - next) / pgsize + 1 ≤ (stop - start) / pgsize := by
        rw [← Nat.add_div_right _ hpg]
        exact Nat.div_le_div_right (by omega)
      omega
    · rw [if_neg fun hcond => hlt hcond.2]
      exact ⟨next, Nat.le_of_not_lt hlt, hQ'⟩

theorem checkRange_meets (s : PageMem) (start stop : Nat) :
    (checkRange start stop s).Meets (fun _ s' => s' = s ∧ start % pgsize = 0 ∧ stop % pgsize = 0 ∧ UserAccess start stop)
      (fun _ _ => False) (fun p => p = .range ∧ ¬ ((start % pgsize = 0 ∧ stop % pgsize = 0) ∧ UserAccess start stop)) := by
  by_cases hal : start % pgsize = 0 ∧ stop % pgsize = 0
  · rw [checkRange, Proc.check_bind_pos hal]
    by_cases hac : UserAccess start stop
    · rw [Proc.check_run_pos hac]
      exact ⟨rfl, hal.1, hal.2, hac⟩
    · rw [Proc.check_run_neg hac]
      exact ⟨rfl, fun hcon => hac hcon.2⟩
  · rw [checkRange, Proc.check_bind_neg hal]
    exact ⟨rfl, fun hcon => hal hcon.1⟩

theorem checkRange_ok (hal : start % pgsize = 0) (hal' : stop % pgsize = 0) (hac : UserAccess start stop) :
    checkRange start stop s = .ok () s := by
  rw [checkRange, Proc.check_bind_pos ⟨hal, hal'⟩]
  exact Proc.check_run_pos hac s

theorem nextTable_eq (start : Nat) : nextTable start = (start / ptsize + 1) * ptsize := by
  show start + 2 ^ 21 - (start + 2 ^ 21) % 2 ^ 21 = (start / 2 ^ 21 + 1) * 2 ^ 21
  omega

theorem le_nextTable (h : start % pgsize = 0) : start + pgsize ≤ nextTable start := by
  have hal : start % 2 ^ 12 = 0 := h
  rw [nextTable_eq]
  show start + 2 ^ 12 ≤ (start / 2 ^ 21 + 1) * 2 ^ 21
  omega

theorem nextTable_aligned (start : Nat) : nextTable start % pgsize = 0 := by
  rw [nextTable_eq]
  show (start / 2 ^ 21 + 1) * 2 ^ 21 % 2 ^ 12 = 0
  omega

/-- The pages skipped have the same, missing, page table. -/
theorem ptSlot_skipped {m : Nat} (hm : start / pgsize ≤ m) (hm' : m * pgsize < nextTable start) :
    ptSlot m = ptSlot (start / pgsize) := by
  rw [nextTable_eq] at hm'
  have h1 : start / 2 ^ 12 ≤ m := hm
  have h2 : m * 2 ^ 12 < (start / 2 ^ 21 + 1) * 2 ^ 21 := hm'
  show TSlot.pt (m / 2 ^ 18) (m / 2 ^ 9 % 512) = .pt (start / 2 ^ 12 / 2 ^ 18) (start / 2 ^ 12 / 2 ^ 9 % 512)
  rw [show m / 2 ^ 9 = start / 2 ^ 12 / 2 ^ 9 by omega, show m / 2 ^ 18 = start / 2 ^ 12 / 2 ^ 18 by omega]

/-! ## `unmap_range` -/

/-- **A round of `unmap_range`.** -/
theorem unmapRound_spec (h : Sound s D L) (hd : d ∈ D) (hla : la < userTop) :
    (s.tab d (ptSlot (la / pgsize)) = none ∧ unmapRound d la s = .ok (nextTable la) s) ∨
    (¬ (s.leaf d (la / pgsize)).v = true ∧ unmapRound d la s = .ok (la + pgsize) s) ∨
    ∃ s', unmapRound d la s = .ok (la + pgsize) s' ∧ Remapped D L d (la / pgsize) .zero s s' := by
  rw [unmapRound, Proc.bind_ok (getPte_false s d hla)]
  cases hpt : s.tab d (ptSlot (la / pgsize)) with
  | none => exact .inl ⟨rfl, rfl⟩
  | some pt =>
    refine .inr ?_
    show (¬ _ ∧ (Proc.get >>= _) s = _) ∨ ∃ s', (Proc.get >>= _) s = _ ∧ _
    rw [Proc.get_bind]
    by_cases hv : (s.leaf d (la / pgsize)).v = true
    · have hne : s.table pt (la / pgsize % 512) ≠ .zero := by
        intro hz
        rw [leaf_of_tab hpt, hz] at hv
        exact Bool.noConfusion hv
      obtain ⟨s', hrun, hr⟩ := pageRemovePte_spec h hd (page_lt hla) hpt hv
      refine .inr ⟨s', ?_, hr⟩
      rw [if_pos hne, Proc.bind_ok hrun]
      rfl
    · refine .inl ⟨hv, ?_⟩
      rw [leaf_of_tab hpt] at hv
      by_cases hz : s.table pt (la / pgsize % 512) ≠ .zero
      · rw [if_pos hz, Proc.bind_ok (pageRemovePte_invalid hv)]
        rfl
      · rw [if_neg hz]
        rfl

/-! ## `copy_range` -/

/-- A page table that is there is found, with or without `create`. -/
theorem getPte_found (hla : la < userTop) {pt : Nat} (hpt : s.tab d (ptSlot (la / pgsize)) = some pt) (create : Bool) :
    getPte d la create s = .ok (some (pt, la / pgsize % 512)) s := by
  obtain ⟨pd0, h1, h2⟩ := Option.bind_eq_some_iff.mp hpt
  rw [getPte, pdx1_eq hla, Proc.bind_ok (getTable_found h1 create)]
  show (getTable pd0 (pdx0 la) create >>= _) s = _
  rw [pdx0_eq, Proc.bind_ok (getTable_found h2 create)]
  rfl

/-- The page that `copy_range` fills. -/
def PageMem.copied (s : PageMem) (p q : Nat) : PageMem :=
  (s.take p).setData p (memcpy (s.data p) 0 (s.data q) 0 pgsize)

theorem PageMem.Sound.copied (h : Sound s D L) (p q : Nat) : Sound (s.copied p q) D L :=
  h.of_free rfl (fun _ _ _ => rfl) fun _ hq => .inl (Finset.mem_of_mem_erase hq)

/-- **`copy_range` for one page**: the second `get_pte`, in `page_insert`, finds what the first one made. -/
theorem copyPage_spec (h : Sound s D L) (hd : d ∈ D) (hla : la < userTop) (pte : Pte) :
    (∃ s1, copyPage d la pte s = .err (-eNoMem) s1 ∧ Deepened D d (la / pgsize) s s1 ∧ s.nulls < s1.nulls) ∨
    (copyPage d la pte s = .panic .copyNoPage ∧
      ∃ s1, Deepened D d (la / pgsize) s s1 ∧ allocPage s1 = .ok none s1.tick) ∨
    ∃ s1 p s', Deepened D d (la / pgsize) s s1 ∧ p ∈ s1.free ∧ copyPage d la pte s = .ok () s' ∧
      Remapped D L d (la / pgsize) (pteCreate p pte.perm) (s1.copied p pte.ppn) s' := by
  obtain ⟨s1, hg, ⟨hrun, hnull⟩ | ⟨pt, hrun, hpt⟩⟩ := getPte_true h.toTrees hd hla
  · refine .inl ⟨s1, ?_, hg, hnull⟩
    rw [copyPage, Proc.bind_ok hrun]
    rfl
  · have hs1 := hg.sound h
    rcases allocPage_cases s1 with hal | ⟨p, hp, hal⟩
    · refine .inr (.inl ⟨?_, s1, hg, hal⟩)
      rw [copyPage, Proc.bind_ok hrun]
      show (allocPage >>= _) s1 = _
      rw [Proc.bind_ok hal]
      rfl
    · have hpt' : (s1.copied p pte.ppn).tab d (ptSlot (la / pgsize)) = some pt := hpt
      have hnot : ¬ (s1.copied p pte.ppn).IsTable D p := hs1.not_isTable hp
      obtain ⟨s', hat, hr⟩ := pageInsertAt_spec (hs1.copied p pte.ppn) hd (page_lt hla) hpt'
        (Finset.notMem_erase p s1.free) hnot (hs1.not_lost (.inl hp)) pte.perm
      refine .inr (.inr ⟨s1, p, s', hg, hp, ?_, hr⟩)
      have hins : pageInsert d p la pte.perm (s1.copied p pte.ppn) = .ok () s' := by
        rw [pageInsert, Proc.bind_ok (getPte_found hla hpt' true)]
        exact hat
      rw [copyPage, Proc.bind_ok hrun]
      show (allocPage >>= _) s1 = _
      rw [Proc.bind_ok hal]
      show (Proc.attempt (pageInsert d p la pte.perm) >>= _) (s1.copied p pte.ppn) = _
      rw [Proc.bind_ok (Proc.attempt_ok hins)]
      rfl

theorem copyRound_found {src pt : Nat} (hla : la < userTop) (hpt : s.tab src (ptSlot (la / pgsize)) = some pt) :
    copyRound d src la s = (if (s.leaf src (la / pgsize)).v = true then
      copyPage d la (s.leaf src (la / pgsize)) >>= fun _ => pure (la + pgsize) else pure (la + pgsize) : MemM Nat) s := by
  rw [copyRound, Proc.bind_ok (getPte_false s src hla), hpt, leaf_of_tab hpt]
  rfl

/-- **A round of `copy_range`.** -/
theorem copyRound_spec {src : Nat} (h : Sound s D L) (hd : d ∈ D) (hla : la < userTop) :
    (s.tab src (ptSlot (la / pgsize)) = none ∧ copyRound d src la s = .ok (nextTable la) s) ∨
    (¬ (s.leaf src (la / pgsize)).v = true ∧ copyRound d src la s = .ok (la + pgsize) s) ∨
    ((s.leaf src (la / pgsize)).v = true ∧
      ((∃ s1, copyRound d src la s = .err (-eNoMem) s1 ∧ Deepened D d (la / pgsize) s s1 ∧ s.nulls < s1.nulls) ∨
      (copyRound d src la s = .panic .copyNoPage ∧
        ∃ s1, Deepened D d (la / pgsize) s s1 ∧ allocPage s1 = .ok none s1.tick) ∨
      ∃ s1 p s', Deepened D d (la / pgsize) s s1 ∧ p ∈ s1.free ∧ copyRound d src la s = .ok (la + pgsize) s' ∧
        Remapped D L d (la / pgsize) (pteCreate p (s.leaf src (la / pgsize)).perm)
          (s1.copied p (s.leaf src (la / pgsize)).ppn) s')) := by
  cases hpt : s.tab src (ptSlot (la / pgsize)) with
  | none =>
    refine .inl ⟨rfl, ?_⟩
    rw [copyRound, Proc.bind_ok (getPte_false s src hla), hpt]
    rfl
  | some pt =>
    refine .inr ?_
    have hrun := @copyRound_found s d la src pt hla hpt
    by_cases hv : (s.leaf src (la / pgsize)).v = true
    · refine .inr ⟨hv, ?_⟩
      rw [if_pos hv] at hrun
      rcases copyPage_spec h hd hla (s.leaf src (la / pgsize)) with ⟨s1, hc, hg⟩ | ⟨hc, hnull⟩ | ⟨s1, p, s', hg, hp, hc, hr⟩
      · exact .inl ⟨s1, hrun.trans (Proc.bind_err hc), hg⟩
      · exact .inr (.inl ⟨hrun.trans (Proc.bind_panic hc), hnull⟩)
      · exact .inr (.inr ⟨s1, p, s', hg, hp, hrun.trans (Proc.bind_ok hc), hr⟩)
    · rw [if_neg hv] at hrun
      exact .inl ⟨hv, hrun⟩

end Ucore
