import Ucore.Mm.Correctness.VmRun
import Ucore.Mm.Correctness.Exit

/-!
# `Mm.Correctness.Teardown` — `exit_mmap`, `put_pgdir` and `mm_destroy`

`exit_mmap` goes over the areas twice: `unmap_range` empties the page tables, then `exit_range` gives them back, in
passes over the directories at the two entries of the root. A pass frees the directory as soon as all the tables
it looked at were there, whether or not there are others. `Released` is the condition under which this comes out
right for one directory.
-/

namespace Ucore

open PageMem

/-- A pass that finds all its page tables must be the one that finds all there are; and there must be one. -/
def Released : List (Finset Nat) → Finset Nat → Prop
  | [], _        => False
  | S :: rest, V => if S ⊆ V then S = V else Released rest (V \ S)

instance decidableReleased : (rest : List (Finset Nat)) → (V : Finset Nat) → Decidable (Released rest V)
  | [], _        => inferInstanceAs (Decidable False)
  | S :: rest, V =>
    have : Decidable (Released rest (V \ S)) := decidableReleased rest (V \ S)
    inferInstanceAs (Decidable (if S ⊆ V then S = V else Released rest (V \ S)))

/-- The passes over the directory at entry `i`. -/
def visits (i : Nat) (ps : List (Nat × Finset Nat)) : List (Finset Nat) :=
  (ps.filter fun p => decide (p.1 = i)).map Prod.snd

/-- The passes of `exit_mmap`. -/
def vmaPasses (vs : List Vma) : List (Nat × Finset Nat) := vs.flatMap fun v => rangePasses v.vmStart v.vmEnd

variable {s s' s1 : PageMem} {D : Finset Nat} {L : Nat → Prop} {d i k n p : Nat} {S : Finset Nat} {vs : List Vma}

theorem visits_cons_self (ps : List (Nat × Finset Nat)) : visits i ((i, S) :: ps) = S :: visits i ps := by
  simp [visits]

theorem visits_cons_ne (h : i ≠ k) (ps : List (Nat × Finset Nat)) : visits k ((i, S) :: ps) = visits k ps := by
  simp [visits, h]

/-! ## The passes together -/

theorem TSlot.under_pd {v : TSlot} : (TSlot.pd i).Under v ↔ v = .pd i ∨ ∃ j, v = .pt i j := by
  cases v with
  | root => exact ⟨fun h => h.elim, fun h => h.elim (fun h => nomatch h) fun ⟨_, h⟩ => nomatch h⟩
  | pd k =>
    constructor
    · rintro rfl
      exact .inl rfl
    · rintro (h | ⟨j, h⟩)
      · injection h
      · cases h
  | pt k j =>
    constructor
    · rintro rfl
      exact .inr ⟨j, rfl⟩
    · rintro (h | ⟨j, h⟩)
      · cases h
      · injection h

theorem passX_under {v : TSlot} (h : s.passX d i S v) : (TSlot.pd i).Under v := by
  rcases h.2 with ⟨j, _, rfl⟩ | ⟨_, h⟩
  · rfl
  · exact h

theorem passG_passX {v : TSlot} (h : s.passG d i S v) : s.passX d i S v := by
  refine ⟨h.1, h.2.imp (fun h => h) fun h => ⟨h.1, ?_⟩⟩
  rw [h.2]
  rfl

/-- All of the directory at entry `i` has been given back. -/
def AllOf (s : PageMem) (d i : Nat) (G : TSlot → Prop) : Prop :=
  ∀ v, v.User → (TSlot.pd i).Under v → (s.tab d v).isSome → G v

theorem isSome_iff_of_exited {X G : TSlot → Prop} (hex : Exited D d X G s s1) (hd : d ∈ D) {v : TSlot} (hv : v.User) :
    (s1.tab d v).isSome ↔ (s.tab d v).isSome ∧ ¬ X v := by
  rw [Option.isSome_iff_exists, Option.isSome_iff_exists]
  constructor
  · rintro ⟨p, hp⟩
    obtain ⟨hold, hno⟩ := (hex.tab d hd v p hv).mp hp
    exact ⟨⟨p, hold⟩, fun hx => hno ⟨rfl, hx⟩⟩
  · rintro ⟨⟨p, hp⟩, hno⟩
    exact ⟨p, (hex.tab d hd v p hv).mpr ⟨hp, fun hcon => hno hcon.2⟩⟩

theorem mem_below_iff {j : Nat} : j ∈ s.below d i ↔ j < 512 ∧ (s.tab d (.pt i j)).isSome := by
  rw [mem_below, Option.isSome_iff_exists]

theorem passX_elsewhere (hne : i ≠ k) {v : TSlot} (hunder : (TSlot.pd k).Under v) : ¬ s.passX d i S v := by
  intro hx
  have hi := passX_under hx
  rw [TSlot.under_pd] at hi hunder
  rcases hi with rfl | ⟨j, rfl⟩
  · rcases hunder with h | ⟨_, h⟩
    · injection h with h
      exact hne h
    · cases h
  · rcases hunder with h | ⟨_, h⟩
    · cases h
    · injection h with h _
      exact hne h

/-- The other directory does not notice a pass. -/
theorem pass_other (hd : d ∈ D) (hne : i ≠ k) (hex : Exited D d (s.passX d i S) (s.passG d i S) s s1)
    {v : TSlot} (hv : v.User) (hunder : (TSlot.pd k).Under v) : (s1.tab d v).isSome ↔ (s.tab d v).isSome := by
  rw [isSome_iff_of_exited hex hd hv]
  exact and_iff_left (passX_elsewhere hne hunder)

/-- What a pass and the passes after it give back: all of a directory that the pass frees, if it has looked at all tables. -/
theorem allOf_freed (hi : i < 2) (hsome : (s.tab d (.pd i)).isSome = true) (hall : S ⊆ s.below d i) (G : TSlot → Prop) :
    AllOf s d i (fun v => s.passG d i S v ∨ G v ∧ ¬ s.passX d i S v) ↔ S = s.below d i := by
  have hgone : ∀ v, (TSlot.pd i).Under v → s.passX d i S v := fun v hv => ⟨hsome, .inr ⟨hall, hv⟩⟩
  constructor
  · intro hG
    refine Finset.Subset.antisymm hall fun j hj => ?_
    obtain ⟨hj5, hjs⟩ := mem_below_iff.mp hj
    rcases hG (.pt i j) ⟨hi, hj5⟩ rfl hjs with hg | hg
    · rcases hg.2 with ⟨j', hj', heq⟩ | ⟨_, heq⟩
      · injection heq with _ heq
        rw [heq]
        exact hj'
      · cases heq
    · exact absurd (hgone (.pt i j) rfl) hg.2
  · rintro rfl v hv hunder hvs
    refine .inl ⟨hsome, ?_⟩
    rcases TSlot.under_pd.mp hunder with rfl | ⟨j, rfl⟩
    · exact .inr ⟨hall, rfl⟩
    · exact .inl ⟨j, mem_below_iff.mpr ⟨hv.2, hvs⟩, rfl⟩

/-- A pass that gives back all that it takes away below entry `k` leaves the rest to the passes after it. -/
theorem allOf_rest (hd : d ∈ D) (hex : Exited D d (s.passX d i S) (s.passG d i S) s s1) (G : TSlot → Prop)
    (hgive : ∀ v, (TSlot.pd k).Under v → s.passX d i S v → s.passG d i S v) :
    AllOf s d k (fun v => s.passG d i S v ∨ G v ∧ ¬ s.passX d i S v) ↔ AllOf s1 d k G := by
  constructor
  · intro hG v hv hunder hvs
    obtain ⟨hold, hno⟩ := (isSome_iff_of_exited hex hd hv).mp hvs
    exact ((hG v hv hunder hold).resolve_left fun hg => hno (passG_passX hg)).1
  · intro hG v hv hunder hvs
    by_cases hx : s.passX d i S v
    · exact .inl (hgive v hunder hx)
    · exact .inr ⟨hG v hv hunder ((isSome_iff_of_exited hex hd hv).mpr ⟨hvs, hx⟩), hx⟩

/-- A directory that a pass does not free stays, without the tables that were looked at. -/
theorem pass_stays (hd : d ∈ D) (hi : i < 2) (hex : Exited D d (s.passX d i S) (s.passG d i S) s s1)
    (hX : ∀ v, s.passX d i S v ↔ ∃ j ∈ S, v = .pt i j) :
    s1.tab d (.pd i) = s.tab d (.pd i) ∧ s1.below d i = s.below d i \ S := by
  constructor
  · refine Option.ext fun p => (hex.tab d hd (.pd i) p hi).trans (and_iff_left fun hcon => ?_)
    obtain ⟨_, _, heq⟩ := (hX _).mp hcon.2
    cases heq
  · ext j
    rw [Finset.mem_sdiff, mem_below_iff, mem_below_iff, and_assoc]
    refine and_congr_right fun hj => ?_
    rw [isSome_iff_of_exited hex hd (v := .pt i j) ⟨hi, hj⟩, hX]
    refine and_congr_right fun _ => not_congr ⟨?_, fun hj => ⟨j, hj, rfl⟩⟩
    rintro ⟨j', hj', heq⟩
    injection heq with _ heq
    rw [heq]
    exact hj'

/-- **All the passes**: the directory at entry `i` is given back completely if and only if its passes release it. -/
theorem passes_spec (hd : d ∈ D) {ps : List (Nat × Finset Nat)} (h : Passes D d ps s s') (hs : Trees s D) :
    ∃ X G : TSlot → Prop, Exited D d X G s s' ∧ (∀ v, G v → X v) ∧ (∀ v, X v → v ≠ .root) ∧
      ∀ k < 2, ∀ pd0, s.tab d (.pd k) = some pd0 → (AllOf s d k G ↔ Released (visits k ps) (s.below d k)) := by
  induction h with
  | nil =>
    refine ⟨_, _, .refl hs, fun _ h => h, fun _ h => h.elim, fun k hk pd0 hpd => ?_⟩
    refine ⟨fun hall => hall (.pd k) hk rfl ?_, False.elim⟩
    rw [hpd]
    rfl
  | @cons s s1 s2 i S ps hi hex hrest ih =>
    obtain ⟨X, G, hex2, hGX, hroot, hiff⟩ := ih hex.trees
    refine ⟨_, _, hex.trans hs hd hex2 fun _ => passG_passX, ?_, ?_, fun k hk pd0 hpd => ?_⟩
    · rintro v (hg | hg)
      · exact .inl (passG_passX hg)
      · exact .inr (hGX v hg.1)
    · rintro v (hx | hx)
      · rcases TSlot.under_pd.mp (passX_under hx) with rfl | ⟨j, rfl⟩
        · exact TSlot.noConfusion
        · exact TSlot.noConfusion
      · exact hroot v hx
    · by_cases hne : i = k
      · subst hne
        have hsome : (s.tab d (.pd i)).isSome = true := by
          rw [hpd]
          rfl
        rw [visits_cons_self, Released]
        by_cases hall : S ⊆ s.below d i
        · -- this pass frees the directory: only what it has given back itself counts
          rw [if_pos hall]
          exact allOf_freed hi hsome hall G
        · rw [if_neg hall]
          have hX : ∀ v, s.passX d i S v ↔ ∃ j ∈ S, v = .pt i j := fun v =>
            ⟨fun hx => hx.2.resolve_right fun hh => hall hh.1, fun hj => ⟨hsome, .inl hj⟩⟩
          obtain ⟨hpd1, hbelow⟩ := pass_stays hd hi hex hX
          rw [← hbelow, ← hiff i hk pd0 (hpd1.trans hpd)]
          exact allOf_rest hd hex G fun v _ hx => ⟨hsome, .inl ((hX v).mp hx)⟩
      · have hother : ∀ v, v.User → (TSlot.pd k).Under v → ((s1.tab d v).isSome ↔ (s.tab d v).isSome) :=
          fun v hv hunder => pass_other hd hne hex hv hunder
        have hbelow : s1.below d k = s.below d k := by
          ext j
          rw [mem_below_iff, mem_below_iff]
          exact and_congr_right fun hj => hother (.pt k j) ⟨hk, hj⟩ rfl
        have hpd1 : ∃ pd1, s1.tab d (.pd k) = some pd1 := by
          refine Option.isSome_iff_exists.mp ((hother (.pd k) hk rfl).mpr ?_)
          rw [hpd]
          rfl
        obtain ⟨pd1, hpd1⟩ := hpd1
        rw [visits_cons_ne hne, ← hbelow, ← hiff k hk pd1 hpd1]
        exact allOf_rest hd hex G fun v hunder hx => absurd hx (passX_elsewhere hne hunder)

/-! ## The two loops of `exit_mmap` -/

theorem unmapVmas_spec (hd : d ∈ D) (vs : List Vma) : ∀ {s : PageMem}, Sound s D L → (∀ v ∈ vs, v.Ok) →
    ∃ s', unmapVmas d vs s = .ok () s' ∧ Unmapped D L d (fun n => ∃ v ∈ vs, v.Has n) s s' := by
  induction vs with
  | nil =>
    intro s h _
    refine ⟨s, rfl, (Unmapped.refl h).congr fun n _ _ => ⟨False.elim, ?_⟩⟩
    rintro ⟨v, hv, _⟩
    exact absurd hv List.not_mem_nil
  | cons v vs ih =>
    intro s h hok
    have hv := hok v List.mem_cons_self
    obtain ⟨s1, hrun1, h1⟩ := unmapRange_spec h hd hv.1 hv.2.1 hv.2.2
    obtain ⟨s2, hrun2, h2⟩ := ih h1.sound fun w hw => hok w (List.mem_cons_of_mem v hw)
    refine ⟨s2, ?_, (h1.trans h2).congr fun n _ _ => ?_⟩
    · rw [unmapVmas, Proc.bind_ok hrun1, hrun2]
    · simp only [List.mem_cons, exists_eq_or_imp]
      rfl

theorem exitVmas_spec (hd : d ∈ D) (vs : List Vma) : ∀ {s : PageMem}, Trees s D → s.Blank d → (∀ v ∈ vs, v.Ok) →
    ∃ s', exitVmas d vs s = .ok () s' ∧ Passes D d (vmaPasses vs) s s' := by
  induction vs with
  | nil => exact fun _ _ _ => ⟨_, rfl, .nil⟩
  | cons v vs ih =>
    intro s h hb hok
    have hv := hok v List.mem_cons_self
    obtain ⟨s1, hrun1, h1⟩ := exitRange_spec h hd hb hv.1 hv.2.1 hv.2.2
    obtain ⟨ht, hb1⟩ := h1.keep h hd hb
    obtain ⟨s2, hrun2, h2⟩ := ih ht hb1 fun w hw => hok w (List.mem_cons_of_mem v hw)
    refine ⟨s2, ?_, h1.append h2⟩
    rw [exitVmas, Proc.bind_ok hrun1, hrun2]

/-! ## The whole teardown -/

/-- **What giving up the directory `d` should do**: `l` are the pages that come back. Data pages whose last
    reference was here and all the tables come back, each once, and nothing comes back that an entry leads to. -/
structure TornDown (D : Finset Nat) (d : Nat) (l : List Nat) (s s' : PageMem) : Prop where
  freed : s'.freed = l ++ s.freed
  pages : ∀ p, 0 < s.count D p → (∀ d' ∈ D, d' ≠ d → ∀ n, n < userPages → s.maps d' n ≠ some p) → l.count p = 1
  tables : ∀ t p, TSlot.User t → s.tab d t = some p → l.count p = 1
  tabs : ∀ p ∈ l, ∀ d' ∈ D, ∀ t, TSlot.User t → s'.tab d' t = some p → d' = d ∧ t = .root
  maps : ∀ p ∈ l, ∀ d' ∈ D, ∀ n, n < userPages → s'.maps d' n ≠ some p

/-- For every valid entry of the root, the passes release the directory there. -/
structure AllReleased (s : PageMem) (d : Nat) (vs : List Vma) : Prop where
  dirs : ∀ i < 2, ∀ pd0, s.tab d (.pd i) = some pd0 → Released (visits i (vmaPasses vs)) (s.below d i)

theorem allReleased_low (h : Released (visits 0 (vmaPasses vs)) (s.below d 0)) (hnone : s.tab d (.pd 1) = none) :
    AllReleased s d vs where
  dirs := by
    intro i hi pd0 hpd
    obtain rfl | rfl : i = 0 ∨ i = 1 := by omega
    · exact h
    · rw [hnone] at hpd
      cases hpd

theorem not_allReleased {pd0 : Nat} (hi : i < 2) (hpd : s.tab d (.pd i) = some pd0)
    (h : ¬ Released (visits i (vmaPasses vs)) (s.below d i)) : ¬ AllReleased s d vs := fun hall => h (hall.dirs i hi pd0 hpd)

section Teardown

variable {s2 : PageMem} {R : Nat → Prop} {X G : TSlot → Prop} (h : Sound s D L) (hd : d ∈ D)
  (h1 : Unmapped D L d R s s1) (h2 : Exited D d X G s1 s2) (hGX : ∀ v, G v → X v) (hroot : ∀ v, X v → v ≠ .root)
  (hb : s1.Blank d)

include h hd h1 h2 hGX hroot hb

/-- All of it holds, apart from the tables that nobody gives back. -/
theorem tornDown_iff : (∃ l, TornDown D d l s (s2.give d)) ↔
    ∀ v p, TSlot.User v → v ≠ .root → s.tab d v = some p → G v := by
  obtain ⟨l1, hl1, hnd1, hmem1, _⟩ := h1.freed
  obtain ⟨l2, hl2, hnd2, hmem2, _⟩ := h2.freed
  have htab : ∀ v, v.User → s1.tab d v = s.tab d v := h1.tab d hd
  have hsame : (s2.give d).tab = s2.tab := tab_congr rfl
  have hsame' : (s2.give d).maps = s2.maps := maps_congr rfl
  have hfreed : (s2.give d).freed = (d :: (l2 ++ l1)) ++ s.freed := by
    show d :: s2.freed = _
    rw [hl2, hl1, List.cons_append, List.append_assoc]
  have htables : ∀ p, p ∈ l2 → ∃ v, v.User ∧ G v ∧ s.tab d v = some p := by
    intro p hp
    obtain ⟨v, hv, hg, hvp⟩ := (hmem2 p).mp hp
    exact ⟨v, hv, hg, (htab v hv).symm.trans hvp⟩
  -- the pages of the first loop are data, those of the second one are tables below the root
  have hdata : ∀ p, p ∈ l1 → ¬ s.IsTable D p := by
    intro p hp ht
    have hpos := ((hmem1 p).mp hp).1
    rw [h.count_isTable ht] at hpos
    exact Nat.lt_irrefl 0 hpos
  have hnd : (d :: (l2 ++ l1)).Nodup := by
    refine List.nodup_cons.mpr ⟨fun hmem => ?_, List.nodup_append.mpr ⟨hnd2, hnd1, ?_⟩⟩
    · rcases List.mem_append.mp hmem with hp | hp
      · obtain ⟨v, hv, hg, hvp⟩ := htables d hp
        exact hroot v (hGX v hg) (h.inj d hd d hd v .root d hv trivial hvp rfl).2
      · exact hdata d hp ⟨d, hd, .root, trivial, rfl⟩
    · rintro p hp _ hq rfl
      obtain ⟨v, hv, _, hvp⟩ := htables p hp
      exact hdata p hq ⟨d, hd, v, hv, hvp⟩
  have honce : ∀ p, p ∈ d :: (l2 ++ l1) → (d :: (l2 ++ l1)).count p = 1 := fun p hp => List.count_eq_one_of_mem hnd hp
  have hIn : ∀ v p, TSlot.User v → v ≠ .root → s.tab d v = some p → p ∈ d :: (l2 ++ l1) → G v := by
    intro v p hv hne hvp hp
    rcases List.mem_cons.mp hp with rfl | hp
    · exact absurd (h.inj p hd p hd v .root p hv trivial hvp rfl).2 hne
    · rcases List.mem_append.mp hp with hp | hp
      · obtain ⟨w, hw, hg, hwp⟩ := htables p hp
        exact (h.inj d hd d hd v w p hv hw hvp hwp).2 ▸ hg
      · exact absurd ⟨d, hd, v, hv, hvp⟩ (hdata p hp)
  constructor
  · rintro ⟨l, ht⟩ v p hv hne hvp
    have hl : l = d :: (l2 ++ l1) := List.append_cancel_right (ht.freed.symm.trans hfreed)
    have hone := ht.tables v p hv hvp
    rw [hl] at hone
    exact hIn v p hv hne hvp (List.count_pos_iff.mp (by omega))
  · intro hall
    refine ⟨d :: (l2 ++ l1), hfreed, ?_, ?_, ?_, ?_⟩
    · intro p hpos hlast
      refine honce p (List.mem_cons_of_mem d (List.mem_append_right l2 ((hmem1 p).mpr ⟨hpos, ?_⟩)))
      refine count_eq_zero.mpr fun d' hd' n hn hmap => ?_
      by_cases hdd : d' = d
      · rw [hdd, hb n hn] at hmap
        cases hmap
      · exact hlast d' hd' hdd n hn ((h1.maps d' hd' n p hn).mp hmap).1
    · intro t p ht htp
      refine honce p ?_
      by_cases hne : t = .root
      · subst hne
        obtain rfl := Option.some.inj htp
        exact List.mem_cons_self
      · refine List.mem_cons_of_mem d (List.mem_append_left l1 ((hmem2 p).mpr ⟨t, ht, hall t p ht hne htp, ?_⟩))
        rw [htab t ht, htp]
    · intro p hp d' hd' t ht htp
      rw [hsame] at htp
      obtain ⟨hold, hno⟩ := (h2.tab d' hd' t p ht).mp htp
      rw [h1.tab d' hd' t ht] at hold
      rcases List.mem_cons.mp hp with rfl | hp
      · exact h.inj d' hd' p hd t .root p ht trivial hold rfl
      · rcases List.mem_append.mp hp with hp | hp
        · obtain ⟨v, hv, hg, hvp⟩ := htables p hp
          obtain ⟨rfl, rfl⟩ := h.inj d' hd' d hd t v p ht hv hold hvp
          exact absurd ⟨rfl, hGX t hg⟩ hno
        · exact absurd ⟨d', hd', t, ht, hold⟩ (hdata p hp)
    · intro p hp d' hd' n hn hmap
      rw [hsame', h2.maps d' hd' n hn] at hmap
      have hold := ((h1.maps d' hd' n p hn).mp hmap).1
      have hnot := (h.leafBusy d' hd' n p hn hold).2
      rcases List.mem_cons.mp hp with rfl | hp
      · exact hnot ⟨p, hd, .root, trivial, rfl⟩
      · rcases List.mem_append.mp hp with hp | hp
        · obtain ⟨v, hv, _, hvp⟩ := htables p hp
          exact hnot ⟨d, hd, v, hv, hvp⟩
        · exact Nat.ne_of_gt (count_pos hd' hn hmap) ((hmem1 p).mp hp).2

end Teardown

/-- **The memory after a teardown.** -/
theorem teardown_mem (h : Sound s D L) (hd : d ∈ D) (hok : ∀ v ∈ vs, v.Ok)
    (hin : ∀ n, n < userPages → s.maps d n ≠ none → ∃ v ∈ vs, v.Has n) :
    ∃ s1 s2, unmapVmas d vs s = .ok () s1 ∧ exitVmas d vs s1 = .ok () s2 ∧
      ((∃ l, TornDown D d l s (s2.give d)) ↔ AllReleased s d vs) := by
  obtain ⟨s1, hrun1, h1⟩ := unmapVmas_spec hd vs h hok
  have hb : s1.Blank d := by
    intro n hn
    by_contra hne
    obtain ⟨p, hp⟩ := Option.ne_none_iff_exists'.mp hne
    obtain ⟨hold, hno⟩ := (h1.maps d hd n p hn).mp hp
    refine hno ⟨rfl, hin n hn ?_⟩
    rw [hold]
    exact Option.some_ne_none p
  obtain ⟨s2, hrun2, hps⟩ := exitVmas_spec hd vs h1.sound.toTrees hb hok
  obtain ⟨X, G, hex, hGX, hroot, hiff⟩ := passes_spec hd hps h1.sound.toTrees
  refine ⟨s1, s2, hrun1, hrun2, ?_⟩
  rw [tornDown_iff h hd h1 hex hGX hroot hb]
  have htab : ∀ v, v.User → s1.tab d v = s.tab d v := h1.tab d hd
  have hbelow : ∀ i < 2, s1.below d i = s.below d i := by
    intro i hi
    ext j
    rw [mem_below_iff, mem_below_iff]
    exact and_congr_right fun hj => by rw [htab (.pt i j) ⟨hi, hj⟩]
  have hdir : ∀ i < 2, ∀ pd0, s.tab d (.pd i) = some pd0 →
      (AllOf s1 d i G ↔ Released (visits i (vmaPasses vs)) (s.below d i)) := by
    intro i hi pd0 hpd
    rw [← hbelow i hi]
    exact hiff i hi pd0 ((htab (.pd i) hi).trans hpd)
  constructor
  · refine fun hall => ⟨fun i hi pd0 hpd => ?_⟩
    rw [← hdir i hi pd0 hpd]
    intro v hv hunder hvs
    rw [htab v hv] at hvs
    obtain ⟨p, hp⟩ := Option.isSome_iff_exists.mp hvs
    refine hall v p hv ?_ hp
    rintro rfl
    exact hunder
  · intro hall v p hv hne hvp
    have hsome : (s1.tab d v).isSome = true := by
      rw [htab v hv, hvp]
      rfl
    cases v with
    | root => exact absurd rfl hne
    | pd i => exact (hdir i hv p hvp).mpr (hall.dirs i hv p hvp) (.pd i) hv rfl hsome
    | pt i j =>
      obtain ⟨pd0, hpd, _⟩ := Option.bind_eq_some_iff.mp hvp
      exact (hdir i hv.1 pd0 hpd).mpr (hall.dirs i hv.1 pd0 hpd) (.pt i j) hv rfl hsome

theorem kfreeVmas_run (vs : List Vma) : ∀ s : Vm, ∃ s', kfreeVmas vs s = .ok () s' ∧ s'.mem = s.mem := by
  induction vs with
  | nil => exact fun s => ⟨s, rfl, rfl⟩
  | cons v vs ih =>
    intro s
    obtain ⟨s', hrun, hmem⟩ := ih (s.kgive v.obj)
    exact ⟨s', hrun, hmem⟩

theorem mmTeardown_inv {s : Vm} {M : Finset Nat} {m : Nat} {L : Nat → Prop} (hinv : s.Inv M L) (hm : m ∈ M) :
    ∃ s', mmTeardown m s = .ok () s' ∧ ((∃ l, TornDown (s.dirs M) (s.mm m).pgdir l s.mem s'.mem) ↔
      AllReleased s.mem (s.mm m).pgdir (s.mm m).mmapList) := by
  obtain ⟨s1, s2, hrun1, hrun2, hiff⟩ := teardown_mem hinv.sound (Vm.mem_dirs hm) (hinv.wf m hm).ok (hinv.inside m hm)
  have hexit : exitMmap m s = .ok () (s.setMem s2) := by
    have hr1 : inMem (unmapVmas (s.mm m).pgdir (s.mm m).mmapList) s = .ok () (s.setMem s1) := Proc.zoom_ok hrun1
    have hr2 : inMem (exitVmas (s.mm m).pgdir (s.mm m).mmapList) (s.setMem s1) = .ok () (s.setMem s2) :=
      Proc.zoom_ok hrun2
    rw [exitMmap, Proc.get_bind, Proc.check_bind_pos (hinv.count m hm), Proc.bind_ok hr1, hr2]
  obtain ⟨s', hrun, hmem⟩ := kfreeVmas_run (s.mm m).mmapList (s.setMem (s2.give (s.mm m).pgdir))
  refine ⟨s'.kgive m, ?_, ?_⟩
  · have hput : putPgdir m (s.setMem s2) = .ok () (s.setMem (s2.give (s.mm m).pgdir)) := rfl
    have hcount : ((s.setMem (s2.give (s.mm m).pgdir)).mm m).mmCount = 0 := hinv.count m hm
    rw [mmTeardown, Proc.bind_ok hexit, Proc.bind_ok hput, mmDestroy, Proc.get_bind, Proc.check_bind_pos hcount]
    show (kfreeVmas (s.mm m).mmapList >>= _) _ = _
    rw [Proc.bind_ok hrun]
    rfl
  · show (∃ l, TornDown _ _ l s.mem s'.mem) ↔ _
    rw [hmem]
    exact hiff

/-- **Teardown.** Whatever way the address spaces have been built, giving one up comes to its end, and does what it
    should if and only if the passes release every directory. -/
theorem mmTeardown_iff {a : VmState} (h : Reaches VmInit VmStep (fun _ _ => True) a) {m : Nat} (hm : m ∈ a.2) :
    ∃ s', mmTeardown m a.1 = .ok () s' ∧
      ((∃ l, TornDown (a.1.dirs a.2) (a.1.mm m).pgdir l a.1.mem s'.mem) ↔
        AllReleased a.1.mem (a.1.mm m).pgdir (a.1.mm m).mmapList) :=
  mmTeardown_inv (vmReaches_inv h) hm

/-! ## Areas of one page -/

def freshVm : Vm := { mem := eightPages, mm := fun _ => .empty, live := ∅, kpick := some, kticks := 0 }

/-- A new address space with an area of one page, which is mapped. -/
def emptyVm : Vm := (mmNew (fun _ => .zero) freshVm).left freshVm
def areaVm : Vm := (mmMap 0 0x200000 0x1000 ⟨true, true, false, false⟩ emptyVm).left emptyVm
def oneAreaVm : Vm := (inMem (pgdirAllocPage (areaVm.mm 0).pgdir 0x200000 ⟨true, true, false, true⟩) areaVm).left areaVm

/-- A second area like the first one, 2 MB higher. -/
def areasVm : Vm := (mmMap 0 0x400000 0x1000 ⟨true, true, false, false⟩ oneAreaVm).left oneAreaVm
def twoAreasVm : Vm := (inMem (pgdirAllocPage (areasVm.mm 0).pgdir 0x400000 ⟨true, true, false, true⟩) areasVm).left areasVm

theorem oneAreaVm_reached : Reaches VmInit VmStep (fun _ _ => True) (oneAreaVm, insert 0 ∅) := by
  have hstart : Reaches VmInit VmStep (fun _ _ => True) (freshVm, ∅) := .start ⟨rfl, fun _ => rfl⟩
  have hcreate : VmStep (freshVm, ∅) (.create fun _ => .zero) (emptyVm, insert 0 ∅) := .create (fun _ _ => rfl) rfl
  have hmap : VmStep (emptyVm, insert 0 ∅) (.map 0 0x200000 0x1000 ⟨true, true, false, false⟩) (areaVm, insert 0 ∅) :=
    .map (Finset.mem_insert_self 0 ∅) rfl
  have halloc : VmStep (areaVm, insert 0 ∅) (.allocAt 0 0x200000 ⟨true, true, false, true⟩) (oneAreaVm, insert 0 ∅) :=
    .allocAt (Finset.mem_insert_self 0 ∅) (List.mem_singleton_self _) (by decide) rfl
  exact ((hstart.next trivial hcreate).next trivial hmap).next trivial halloc

theorem twoAreasVm_reached : Reaches VmInit VmStep (fun _ _ => True) (twoAreasVm, insert 0 ∅) := by
  have hmap : VmStep (oneAreaVm, insert 0 ∅) (.map 0 0x400000 0x1000 ⟨true, true, false, false⟩) (areasVm, insert 0 ∅) :=
    .map (Finset.mem_insert_self 0 ∅) rfl
  have halloc : VmStep (areasVm, insert 0 ∅) (.allocAt 0 0x400000 ⟨true, true, false, true⟩) (twoAreasVm, insert 0 ∅) :=
    .allocAt (Finset.mem_insert_self 0 ∅) (List.mem_cons_of_mem _ (List.mem_singleton_self _)) (by decide) rfl
  exact (oneAreaVm_reached.next trivial hmap).next trivial halloc

theorem oneAreaVm_released : AllReleased oneAreaVm.mem (oneAreaVm.mm 0).pgdir (oneAreaVm.mm 0).mmapList :=
  allReleased_low (by decide +kernel) rfl

/-- The first pass finds its one page table, and there is another one. -/
theorem twoAreasVm_not_released : ¬ AllReleased twoAreasVm.mem (twoAreasVm.mm 0).pgdir (twoAreasVm.mm 0).mmapList :=
  @not_allReleased _ _ 0 _ 2 (by decide) rfl (by decide +kernel)

/-- With one area everything comes back. -/
theorem mmTeardown_oneArea : ∃ s', mmTeardown 0 oneAreaVm = .ok () s' ∧
    ∃ l, TornDown (oneAreaVm.dirs (insert 0 ∅)) (oneAreaVm.mm 0).pgdir l oneAreaVm.mem s'.mem := by
  have hreach := oneAreaVm_reached
  have hall := oneAreaVm_released
  generalize oneAreaVm = s at *
  obtain ⟨s', hrun, hiff⟩ := mmTeardown_iff hreach (Finset.mem_insert_self 0 ∅)
  exact ⟨s', hrun, hiff.mpr hall⟩

/-- With two, the pass for the first one frees the directory above the page table of the second one. -/
theorem mmTeardown_twoAreas : Reaches VmInit VmStep (fun _ _ => True) (twoAreasVm, insert 0 ∅) ∧
    ∀ s', mmTeardown 0 twoAreasVm = .ok () s' →
      ¬ ∃ l, TornDown (twoAreasVm.dirs (insert 0 ∅)) (twoAreasVm.mm 0).pgdir l twoAreasVm.mem s'.mem := by
  have hreach := twoAreasVm_reached
  have hnot := twoAreasVm_not_released
  generalize twoAreasVm = s at *
  refine ⟨hreach, fun s' hrun htorn => ?_⟩
  obtain ⟨s1, hrun1, hiff⟩ := mmTeardown_inv (vmReaches_inv hreach) (Finset.mem_insert_self 0 ∅)
  cases hrun.symm.trans hrun1
  exact hnot (hiff.mp htorn)

end Ucore
