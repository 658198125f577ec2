import Ucore.Mm.Correctness.Unmap

/-!
# `Mm.Correctness.Copy` — `copy_range` as a whole

`Mapped R`: entries of the directory have been written for pages of `R`, and nothing else has changed that a
process could see. After a `copy_range` that returns, the valid pages of the source have copies with the same
permissions in the target.
-/

namespace Ucore

namespace PageMem

/-- **Entries were written for the pages in `R` of the directory `d`.** -/
structure Mapped (D : Finset Nat) (L : Nat → Prop) (d : Nat) (R : Nat → Prop) (s s' : PageMem) : Prop where
  sound : Sound s' D L
  leaf : ∀ d' ∈ D, ∀ n, n < userPages → ¬ (d' = d ∧ R n) → s'.leaf d' n = s.leaf d' n
  nulls : s.nulls ≤ s'.nulls

variable {s s' s1 s2 : PageMem} {D : Finset Nat} {L : Nat → Prop} {d d' n p : Nat} {R R' : Nat → Prop}

namespace Mapped

theorem refl (h : Sound s D L) : Mapped D L d R s s := ⟨h, fun _ _ _ _ _ => rfl, Nat.le_refl _⟩

theorem trans (h : Mapped D L d R s s1) (h' : Mapped D L d R s1 s2) : Mapped D L d R s s2 where
  sound := h'.sound
  leaf d' hd' n hn hno := (h'.leaf d' hd' n hn hno).trans (h.leaf d' hd' n hn hno)
  nulls := Nat.le_trans h.nulls h'.nulls

theorem mono (h : Mapped D L d R s s') (hR : ∀ n, R n → R' n) : Mapped D L d R' s s' where
  sound := h.sound
  leaf d' hd' n hn hno := h.leaf d' hd' n hn fun hcon => hno ⟨hcon.1, hR n hcon.2⟩
  nulls := h.nulls

theorem maps (h : Mapped D L d R s s') (hd' : d' ∈ D) (hn : n < userPages) (hno : ¬ (d' = d ∧ R n)) :
    s'.maps d' n = s.maps d' n := maps_of_leaf (h.leaf d' hd' n hn hno)

end Mapped

theorem Deepened.mapped (h : Deepened D d n s s') (hs : Sound s D L) : Mapped D L d R s s' where
  sound := h.sound hs
  leaf d' hd' m hm _ := h.leaf d' hd' m hm
  nulls := h.nulls

theorem Remapped.mapped {e : Pte} (h : Remapped D L d n e s s') (hn : R n) : Mapped D L d R s s' where
  sound := h.sound
  leaf := by
    intro d' hd' m hm hno
    rw [h.leaf d' hd' m hm, if_neg]
    rintro ⟨rfl, rfl⟩
    exact hno ⟨rfl, hn⟩
  nulls := h.nulls.ge

end PageMem

open PageMem

variable {s s' s1 : PageMem} {D : Finset Nat} {L : Nat → Prop} {dst src la start stop n : Nat}

/-- What `copy_range` has made of page `n` of the target. -/
def Copied (s s' : PageMem) (dst src n : Nat) : Prop :=
  if (s.leaf src n).v = true then ∃ p, s'.leaf dst n = pteCreate p (s.leaf src n).perm
  else s'.leaf dst n = s.leaf dst n

/-- **A round.** -/
theorem copyRound_mapped (h : Sound s D L) (hd : dst ∈ D) (hla : la < userTop)
    (hal : la % pgsize = 0) :
    (copyRound dst src la s).Meets
      (fun next s' => la + pgsize ≤ next ∧ next % pgsize = 0 ∧ Mapped D L dst (fun n => n = la / pgsize) s s' ∧
        ∀ n, n < userPages → la ≤ n * pgsize → n * pgsize < next → Copied s s' dst src n)
      (fun _ s' => Mapped D L dst (fun n => n = la / pgsize) s s' ∧ s.nulls < s'.nulls) (fun p => p = .copyNoPage) := by
  have hstep : (la + pgsize) % pgsize = 0 := by rw [Nat.add_mod_right, hal]
  have hcur : la / pgsize * pgsize = la := Nat.div_mul_cancel (Nat.dvd_of_mod_eq_zero hal)
  have hpg : 0 < pgsize := by decide
  have hthis : ∀ n, la ≤ n * pgsize → n * pgsize < la + pgsize → n = la / pgsize := by
    intro n h1 h2
    have hle : la / pgsize ≤ n := by
      rw [← Nat.mul_le_mul_right_iff hpg, hcur]
      exact h1
    have hlt : n < la / pgsize + 1 := by
      rw [← Nat.mul_lt_mul_right hpg, Nat.succ_mul, hcur]
      exact h2
    omega
  rcases @copyRound_spec s D L dst la src h hd hla with ⟨hnone, hrun⟩ | ⟨hv, hrun⟩ | ⟨hv, hrest⟩
  · rw [hrun]
    refine ⟨le_nextTable hal, nextTable_aligned la, .refl h, fun n hn h1 h2 => ?_⟩
    have hle : la / pgsize ≤ n := by
      rw [← Nat.mul_le_mul_right_iff hpg, hcur]
      exact h1
    have hleaf : s.leaf src n = .zero := leaf_of_none ((ptSlot_skipped hle h2).symm ▸ hnone)
    rw [Copied, hleaf, if_neg Bool.noConfusion]
  · rw [hrun]
    refine ⟨Nat.le_refl _, hstep, .refl h, fun n hn h1 h2 => ?_⟩
    obtain rfl := hthis n h1 h2
    rw [Copied, if_neg hv]
  · rcases hrest with ⟨s1, hrun, hg, hnull⟩ | ⟨hrun, _⟩ | ⟨s1, p, s', hg, hp, hrun, hr⟩
    · rw [hrun]
      exact ⟨hg.mapped h, hnull⟩
    · rw [hrun]
      rfl
    · rw [hrun]
      have hs1 : Mapped D L dst (fun n => n = la / pgsize) s (s1.copied p (s.leaf src (la / pgsize)).ppn) := by
        have hm := @Deepened.mapped s s1 D L dst (la / pgsize) (fun n => n = la / pgsize) hg h
        exact ⟨hm.sound.copied p _, hm.leaf, hm.nulls⟩
      refine ⟨Nat.le_refl _, hstep, hs1.trans (hr.mapped rfl), fun n hn h1 h2 => ?_⟩
      obtain rfl := hthis n h1 h2
      rw [Copied, if_pos hv]
      exact ⟨p, by rw [hr.leaf dst hd _ hn, if_pos ⟨rfl, rfl⟩]⟩

/-- **`copy_range`** between two directories. -/
theorem copyRange_spec (h : Sound s D L) (hd : dst ∈ D) (hs : src ∈ D) (hne : dst ≠ src) :
    (copyRange dst src start stop s).Meets
      (fun _ s' => Mapped D L dst (InRange start stop) s s' ∧
        ∀ n, n < userPages → InRange start stop n → Copied s s' dst src n)
      (fun _ s' => Mapped D L dst (InRange start stop) s s' ∧ s.nulls < s'.nulls)
      (fun p => (p = .range ∧ ¬ ((start % pgsize = 0 ∧ stop % pgsize = 0) ∧ UserAccess start stop)) ∨ p = .copyNoPage) := by
  refine ((checkRange_meets s start stop).imp (fun _ _ h => h) (fun _ _ h => h.elim) fun _ hp => .inl hp).bind ?_
  rintro _ s0 ⟨heq, hal, _, _, hlt, htop⟩
  obtain rfl : s = s0 := heq.symm
  -- the invariant of the loop: the pages below the cursor have been copied
  have hloop := @rangeLoop_meets stop (copyRound dst src)
    (fun la s' => start ≤ la ∧ la % pgsize = 0 ∧ Mapped D L dst (fun n => InRange start stop n ∧ n * pgsize < la) s s' ∧
      ∀ n, n < userPages → InRange start stop n → n * pgsize < la → Copied s s' dst src n)
    (fun _ s' => Mapped D L dst (InRange start stop) s s' ∧ s.nulls < s'.nulls)
    (fun p => (p = .range ∧ ¬ ((start % pgsize = 0 ∧ stop % pgsize = 0) ∧ UserAccess start stop)) ∨ p = .copyNoPage)
    ?_ (rangeFuel start stop) start s (Nat.lt_succ_self _) hlt ⟨Nat.le_refl _, hal, .refl h, ?_⟩
  · refine hloop.imp ?_ (fun _ _ h => h) fun _ h => h
    rintro _ s' ⟨next, hnext, _, _, hm, hc⟩
    exact ⟨hm.mono fun n hh => hh.1, fun n hn hin => hc n hn hin (Nat.lt_of_lt_of_le hin.2 hnext)⟩
  · rintro la s1 hla ⟨hlo, hal1, hm, hc⟩
    have hcur : la / pgsize * pgsize = la := Nat.div_mul_cancel (Nat.dvd_of_mod_eq_zero hal1)
    have hpg : 0 < pgsize := by decide
    have hin : InRange start stop (la / pgsize) := by
      rw [InRange, hcur]
      exact ⟨hlo, hla⟩
    refine (copyRound_mapped hm.sound hd (Nat.lt_of_lt_of_le hla htop) hal1).imp ?_ ?_ fun _ hp => .inr hp
    · rintro next s2 ⟨hnext, hal2, hm2, hc2⟩
      have hnew : ∀ n, n = la / pgsize → InRange start stop n ∧ n * pgsize < next := by
        rintro n rfl
        exact ⟨hin, by omega⟩
      refine ⟨hnext, by omega, hal2, (hm.mono fun n hh => ⟨hh.1, by omega⟩).trans (hm2.mono hnew), ?_⟩
      intro n hn hin' hlt'
      by_cases hlow : n * pgsize < la
      · -- this page was copied in an earlier round
        have hkeep : s2.leaf dst n = s1.leaf dst n := by
          refine hm2.leaf dst hd n hn fun hcon => ?_
          rw [hcon.2, hcur] at hlow
          exact Nat.lt_irrefl _ hlow
        have hold := hc n hn hin' hlow
        rw [Copied] at hold ⊢
        rw [hkeep]
        exact hold
      · have hnow := hc2 n hn (Nat.le_of_not_lt hlow) hlt'
        have hsrc : s1.leaf src n = s.leaf src n := hm.leaf src hs n hn fun hcon => hne hcon.1.symm
        have hdst : s1.leaf dst n = s.leaf dst n := hm.leaf dst hd n hn fun hcon => hlow hcon.2.2
        rw [Copied, hsrc, hdst] at hnow
        exact hnow
    · rintro e s2 ⟨hm2, hnull⟩
      refine ⟨(hm.mono fun n hh => hh.1).trans (hm2.mono ?_), Nat.lt_of_le_of_lt hm.nulls hnull⟩
      rintro n rfl
      exact hin
  · intro n _ hin hlt'
    exact absurd hin.1 (by omega)

end Ucore
