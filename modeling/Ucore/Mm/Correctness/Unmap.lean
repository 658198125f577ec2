import Ucore.Mm.Correctness.Ranges

/-!
# `Mm.Correctness.Unmap` — `unmap_range` as a whole

`Unmapped R`: the pages of `R` are mapped no more in the directory, and a page is given back if this has taken its
last reference.
-/

namespace Ucore

namespace PageMem

/-- **The entries of the pages in `R` have been removed.** -/
structure Unmapped (D : Finset Nat) (L : Nat → Prop) (d : Nat) (R : Nat → Prop) (s s' : PageMem) : Prop where
  sound : Sound s' D L
  maps : ∀ d' ∈ D, ∀ n p, n < userPages → (s'.maps d' n = some p ↔ s.maps d' n = some p ∧ ¬ (d' = d ∧ R n))
  tab : ∀ d' ∈ D, ∀ v, TSlot.User v → s'.tab d' v = s.tab d' v
  freed : ∃ l, s'.freed = l ++ s.freed ∧ l.Nodup ∧ (∀ p, p ∈ l ↔ 0 < s.count D p ∧ s'.count D p = 0) ∧
    ∀ p, p ∈ s'.free ↔ p ∈ s.free ∨ p ∈ l

variable {s s' s1 s2 : PageMem} {D : Finset Nat} {L : Nat → Prop} {d d' n p : Nat} {R R' : Nat → Prop}

theorem Remapped.maps {e : Pte} (h : Remapped D L d n e s s') (hd' : d' ∈ D) {m : Nat} (hm : m < userPages) :
    s'.maps d' m = if d' = d ∧ m = n then target e else s.maps d' m := maps_of_written (h.leaf d' hd' m hm)

namespace Unmapped

theorem refl (h : Sound s D L) : Unmapped D L d (fun _ => False) s s where
  sound := h
  maps _ _ _ _ _ := ⟨fun hq => ⟨hq, fun hcon => hcon.2⟩, fun hq => hq.1⟩
  tab _ _ _ _ := rfl
  freed := by
    refine ⟨[], rfl, List.nodup_nil, fun p => ?_, fun p => ?_⟩
    · refine ⟨fun hp => absurd hp List.not_mem_nil, ?_⟩
      rintro ⟨hpos, hzero⟩
      exact absurd hzero (Nat.ne_of_gt hpos)
    · exact ⟨fun hp => .inl hp, fun hp => hp.resolve_right List.not_mem_nil⟩

theorem one (hd : d ∈ D) (hn : n < userPages) (h : Remapped D L d n .zero s s') : Unmapped D L d (fun m => m = n) s s' where
  sound := h.sound
  maps := by
    intro d' hd' m p hm
    rw [h.maps hd' hm]
    split
    · next heq => exact ⟨fun hq => (nomatch hq), fun hq => absurd heq hq.2⟩
    · next hne => exact ⟨fun hq => ⟨hq, hne⟩, fun hq => hq.1⟩
  tab := h.tab
  freed := by
    obtain ⟨l, hl, hlen, hmem, hfree⟩ := h.gone
    have hcount : ∀ p, s.count D p ≤ s'.count D p + 1 := by
      intro p
      have hc := h.count hd hn p
      split at hc <;> split at hc <;> omega
    refine ⟨l, hl, ?_, fun p => ?_, hfree⟩
    · match l, hlen with
      | [], _ => exact List.nodup_nil
      | [p], _ => exact List.nodup_singleton p
    · rw [hmem]
      have hc := hcount p
      omega

theorem count_le (h : Unmapped D L d R s s') (p : Nat) : s'.count D p ≤ s.count D p := by
  refine Finset.card_le_card fun k hk => ?_
  rw [Finset.mem_filter] at hk ⊢
  obtain ⟨hk1, hk2⟩ := mem_places.mp hk.1
  exact ⟨hk.1, ((h.maps k.1 hk1 k.2 p hk2).mp hk.2).1⟩

theorem trans (h : Unmapped D L d R s s1) (h' : Unmapped D L d R' s1 s2) : Unmapped D L d (fun n => R n ∨ R' n) s s2 where
  sound := h'.sound
  maps := by
    intro d' hd' n p hn
    rw [h'.maps d' hd' n p hn, h.maps d' hd' n p hn, and_assoc, and_or_left, not_or]
  tab d' hd' v hv := (h'.tab d' hd' v hv).trans (h.tab d' hd' v hv)
  freed := by
    obtain ⟨l, hl, hnd, hmem, hfree⟩ := h.freed
    obtain ⟨l', hl', hnd', hmem', hfree'⟩ := h'.freed
    refine ⟨l' ++ l, ?_, List.nodup_append.mpr ⟨hnd', hnd, ?_⟩, fun p => ?_, fun p => ?_⟩
    · rw [hl', hl, List.append_assoc]
    · rintro p hp _ hq rfl
      have hpos := ((hmem' p).mp hp).1
      have hzero := ((hmem p).mp hq).2
      omega
    · rw [List.mem_append, hmem', hmem]
      have h1 := h.count_le p
      have h2 := h'.count_le p
      omega
    · rw [hfree', hfree, List.mem_append]
      tauto

/-- Pages that were not mapped make no difference. -/
theorem congr (h : Unmapped D L d R s s') (hR : ∀ n, n < userPages → s.maps d n ≠ none → (R n ↔ R' n)) :
    Unmapped D L d R' s s' where
  sound := h.sound
  maps := by
    intro d' hd' n p hn
    rw [h.maps d' hd' n p hn]
    refine and_congr_right fun hq => not_congr (and_congr_right fun heq => hR n hn ?_)
    rw [← heq, hq]
    exact Option.some_ne_none p
  tab := h.tab
  freed := h.freed

end Unmapped

end PageMem

open PageMem

variable {s : PageMem} {D : Finset Nat} {L : Nat → Prop} {d start stop : Nat}

/-- The pages of `[start, stop)`. -/
def InRange (start stop n : Nat) : Prop := start ≤ n * pgsize ∧ n * pgsize < stop

/-- **`unmap_range`** for a range of user pages. -/
theorem unmapRange_spec (h : Sound s D L) (hd : d ∈ D) (hal : start % pgsize = 0) (hal' : stop % pgsize = 0)
    (hac : UserAccess start stop) :
    ∃ s', unmapRange d start stop s = .ok () s' ∧ Unmapped D L d (InRange start stop) s s' := by
  -- the invariant of the loop: the pages below the cursor have gone
  have hloop := @rangeLoop_meets stop (unmapRound d)
    (fun la s' => start ≤ la ∧ la % pgsize = 0 ∧ Unmapped D L d (fun n => InRange start stop n ∧ n * pgsize < la) s s')
    (fun _ _ => False) (fun _ => False) ?_ (rangeFuel start stop) start s (Nat.lt_succ_self _) hac.2.1
    ⟨Nat.le_refl _, hal, ?_⟩
  · rw [unmapRange, Proc.bind_ok (checkRange_ok hal hal' hac)]
    cases hrun : rangeLoop (unmapRound d) stop (rangeFuel start stop) start s with
    | ok u s' =>
      obtain ⟨next, hnext, _, _, hun⟩ := hloop.of_ok hrun
      refine ⟨s', rfl, hun.congr fun n _ _ => ⟨fun hh => hh.1, fun hh => ⟨hh, Nat.lt_of_lt_of_le hh.2 hnext⟩⟩⟩
    | err e s' => exact (hloop.of_err hrun).elim
    | panic p => exact (hloop.of_panic hrun).elim
  · rintro la s1 hla ⟨hlo, hal1, hun⟩
    have htop : la < userTop := Nat.lt_of_lt_of_le hla hac.2.2
    have hcur : la / pgsize * pgsize = la := Nat.div_mul_cancel (Nat.dvd_of_mod_eq_zero hal1)
    have hpg : 0 < pgsize := by decide
    have hthis : ∀ n, la ≤ n * pgsize → n * pgsize < la + pgsize → n = la / pgsize := by
      intro n h1 h2
      have hle : la / pgsize ≤ n := by
        rw [← Nat.mul_le_mul_right_iff hpg, hcur]
        exact h1
      have hlt : n < la / pgsize + 1 := by
        rw [← Nat.mul_lt_mul_right hpg, Nat.succ_mul, hcur]
        exact h2
      omega
    have hstep : start ≤ la + pgsize := Nat.le_trans hlo (Nat.le_add_right _ _)
    rcases unmapRound_spec hun.sound hd htop with ⟨hnone, hrun⟩ | ⟨hv, hrun⟩ | ⟨s2, hrun, hr⟩
    · rw [hrun]
      refine ⟨le_nextTable hal1, Nat.le_trans hstep (le_nextTable hal1), nextTable_aligned la, hun.congr fun n hn hmap => ?_⟩
      refine ⟨fun hh => ⟨hh.1, Nat.lt_of_lt_of_le hh.2 (Nat.le_trans (Nat.le_add_right _ _) (le_nextTable hal1))⟩, ?_⟩
      rintro ⟨hin, hlt⟩
      refine ⟨hin, ?_⟩
      by_contra hge
      -- a page that is skipped has no page table, and was not mapped before either
      have hle : la / pgsize ≤ n := by
        rw [← Nat.mul_le_mul_right_iff hpg, hcur]
        omega
      have hslot := ptSlot_skipped hle hlt
      have htab := hun.tab d hd (ptSlot n) (ptSlot_user hn)
      rw [hslot, hnone, ← hslot] at htab
      refine hmap ?_
      rw [maps, leaf_of_none htab.symm]
      rfl
    · rw [hrun]
      refine ⟨Nat.le_refl _, hstep, by rw [Nat.add_mod_right, hal1], hun.congr fun n hn hmap => ?_⟩
      refine ⟨fun hh => ⟨hh.1, by omega⟩, ?_⟩
      rintro ⟨hin, hlt⟩
      refine ⟨hin, ?_⟩
      by_contra hge
      -- the one page of this round was not mapped
      obtain ⟨p, hp⟩ := Option.ne_none_iff_exists'.mp hmap
      have hp1 := (hun.maps d hd n p hn).mpr ⟨hp, fun hcon => hge hcon.2.2⟩
      rw [hthis n (by omega) hlt] at hp1
      exact hv (maps_eq_some.mp hp1).1
    · rw [hrun]
      refine ⟨Nat.le_refl _, hstep, by rw [Nat.add_mod_right, hal1], ?_⟩
      refine (hun.trans (.one hd (page_lt htop) hr)).congr fun n hn _ => ?_
      constructor
      · rintro (hh | rfl)
        · exact ⟨hh.1, by omega⟩
        · refine ⟨⟨?_, by omega⟩, by omega⟩
          rw [hcur]
          exact hlo
      · rintro ⟨hin, hlt⟩
        by_cases hge : n * pgsize < la
        · exact .inl ⟨hin, hge⟩
        · exact .inr (hthis n (by omega) hlt)
  · refine (Unmapped.refl h).congr fun n _ _ => ⟨False.elim, ?_⟩
    rintro ⟨⟨hlo, _⟩, hlt⟩
    omega

end Ucore
