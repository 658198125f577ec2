import Ucore.Mm.Correctness.Counts

/-!
# `Mm.Correctness.Cut` — taking a table out of a directory

`exit_range` gives a table back and clears the entry that led to it. With a table of level 1 all the page tables
below it go out of sight, also those that have not been given back. `Exited X G` keeps the two apart: `X` are the
places that are gone from the directory, `G` are those whose tables the allocator got back.
-/

namespace Ucore

/-- The place `v` is `u` or below it. -/
def TSlot.Under : TSlot → TSlot → Prop
  | .root, _          => True
  | .pd i, .pd i'     => i' = i
  | .pd i, .pt i' _   => i' = i
  | .pd _, .root      => False
  | .pt i j, v        => v = .pt i j

theorem TSlot.under_self (u : TSlot) : u.Under u := by
  cases u with
  | root => trivial
  | pd i => rfl
  | pt i j => rfl

namespace PageMem

/-- The table `p` is given back, and the entry that led to it is cleared. -/
def cutTable (s : PageMem) (t i p : Nat) : PageMem := (s.give p).setPte t i .zero

variable {s s' s1 s2 : PageMem} {D : Finset Nat} {d d' t i j n m p : Nat} {u v : TSlot}

theorem sub_cutTable (s : PageMem) (t i p a j : Nat) :
    (s.cutTable t i p).sub a j = if a = t ∧ j = i then none else s.sub a j := by
  have htab : (s.cutTable t i p).table a j = if a = t ∧ j = i then .zero else s.table a j := by
    show Function.update s.table t (Function.update (s.table t) i .zero) a j = _
    by_cases ha : a = t
    · subst ha
      rw [Function.update_self]
      by_cases hj : j = i
      · rw [hj, Function.update_self, if_pos ⟨rfl, rfl⟩]
      · rw [Function.update_of_ne hj, if_neg fun h => hj h.2]
    · rw [Function.update_of_ne ha, if_neg fun h => ha h.1]
  rw [sub, sub, htab]
  split
  · rfl
  · rfl

section CutTable

variable (h : Trees s D) (hd : d ∈ D) (hu : u.User) (hpar : s.parent d u = some (t, i)) (htab : s.tab d u = some p)

include h hd hu hpar

theorem tab_cutTable (hd' : d' ∈ D) (hv : v.User) {q : Nat} :
    (s.cutTable t i p).tab d' v = some q ↔ s.tab d' v = some q ∧ ¬ (d' = d ∧ u.Under v) := by
  have hentry : ∀ {w : TSlot} {x y : Nat}, w.User → s.parent d' w = some (x, y) → x = t ∧ y = i → d' = d ∧ w = u := by
    rintro w x y hw hpw ⟨rfl, rfl⟩
    exact parent_inj h hd' hd hw hu hpw hpar
  cases v with
  | root =>
    have hno : ¬ (d' = d ∧ u.Under .root) := by
      rintro ⟨-, hunder⟩
      cases u with
      | root => cases hpar
      | pd k => exact hunder
      | pt k j => cases hunder
    exact ⟨fun hq => ⟨hq, hno⟩, fun hq => hq.1⟩
  | pd k =>
    show (s.cutTable t i p).sub d' k = some q ↔ s.sub d' k = some q ∧ _
    rw [sub_cutTable]
    by_cases hcut : d' = t ∧ k = i
    · obtain ⟨hdd, rfl⟩ := hentry (w := .pd k) hv rfl hcut
      rw [if_pos hcut]
      exact ⟨fun hq => (nomatch hq), fun hq => absurd ⟨hdd, rfl⟩ hq.2⟩
    · rw [if_neg hcut]
      refine ⟨fun hq => ⟨hq, ?_⟩, fun hq => hq.1⟩
      rintro ⟨rfl, hunder⟩
      cases u with
      | root => cases hpar
      | pd k' =>
        obtain rfl : k = k' := hunder
        injection hpar with hpar
        injection hpar with h1 h2
        exact hcut ⟨h1, h2⟩
      | pt k' j => cases hunder
  | pt k j =>
    show ((s.cutTable t i p).sub d' k).bind _ = some q ↔ (s.sub d' k).bind _ = some q ∧ _
    rw [sub_cutTable]
    by_cases hcut : d' = t ∧ k = i
    · obtain ⟨hdd, rfl⟩ := hentry (w := .pd k) hv.1 rfl hcut
      rw [if_pos hcut]
      exact ⟨fun hq => (nomatch hq), fun hq => absurd ⟨hdd, rfl⟩ hq.2⟩
    · rw [if_neg hcut, Option.bind_eq_some_iff, Option.bind_eq_some_iff]
      constructor
      · rintro ⟨pd0, hpd, hq⟩
        rw [sub_cutTable] at hq
        split at hq
        · cases hq
        · next hcut' =>
          refine ⟨⟨pd0, hpd, hq⟩, ?_⟩
          rintro ⟨rfl, hunder⟩
          cases u with
          | root => cases hpar
          | pd k' =>
            obtain rfl : k = k' := hunder
            injection hpar with hpar
            injection hpar with h1 h2
            exact hcut ⟨h1, h2⟩
          | pt k' j' =>
            injection hunder with h1 h2
            subst h1 h2
            rw [parent, hpd] at hpar
            injection hpar with hpar
            injection hpar with h1 h2
            exact hcut' ⟨h1, h2⟩
      · rintro ⟨⟨pd0, hpd, hq⟩, hno⟩
        refine ⟨pd0, hpd, ?_⟩
        rw [sub_cutTable, if_neg, hq]
        intro hcut'
        have hparv : s.parent d' (.pt k j) = some (pd0, j) := by
          rw [parent, hpd]
          rfl
        obtain ⟨hdd, rfl⟩ := hentry hv hparv hcut'
        exact hno ⟨hdd, rfl⟩

/-- The page tables that stay keep their entries. -/
theorem maps_cutTable (hd' : d' ∈ D) (hm : m < userPages) {q : Nat} :
    (s.cutTable t i p).maps d' m = some q ↔ s.maps d' m = some q ∧ ¬ (d' = d ∧ u.Under (ptSlot m)) := by
  have hiff := fun {a : Nat} => @tab_cutTable s D d d' t i p u (ptSlot m) h hd hu hpar hd' (ptSlot_user hm) a
  -- the entry that is cleared belongs to a directory or to a table of level 1
  obtain ⟨w, hw, hwt, hwpt, -⟩ := parent_isTable hu hpar
  have hkeep : ∀ {a : Nat}, s.tab d' (ptSlot m) = some a → (s.cutTable t i p).table a = s.table a := by
    intro a ha
    refine Function.update_of_ne ?_ _ _
    rintro rfl
    exact hwpt _ _ (h.inj d hd d' hd' w (ptSlot m) a hw (ptSlot_user hm) hwt ha).2
  rw [maps_eq_some, maps_eq_some]
  cases ha : (s.cutTable t i p).tab d' (ptSlot m) with
  | some a =>
    obtain ⟨hold, hno⟩ := hiff.mp ha
    rw [leaf_of_tab ha, leaf_of_tab hold, hkeep hold]
    exact ⟨fun hq => ⟨hq, hno⟩, fun hq => hq.1⟩
  | none =>
    rw [leaf_of_none ha]
    refine ⟨fun hq => Bool.noConfusion hq.1, ?_⟩
    rintro ⟨hq, hno⟩
    cases hold : s.tab d' (ptSlot m) with
    | none =>
      rw [leaf_of_none hold] at hq
      exact Bool.noConfusion hq.1
    | some a =>
      have hnew := hiff.mpr ⟨hold, hno⟩
      rw [ha] at hnew
      cases hnew

include htab

theorem trees_cutTable : Trees (s.cutTable t i p) D where
  inj := by
    intro d1 hd1 d2 hd2 v w q hv hw h1 h2
    exact h.inj d1 hd1 d2 hd2 v w q hv hw ((tab_cutTable h hd hu hpar hd1 hv).mp h1).1
      ((tab_cutTable h hd hu hpar hd2 hw).mp h2).1
  busy := by
    rintro q ⟨d1, hd1, v, hv, hq⟩ hmem
    obtain ⟨hold, hno⟩ := (tab_cutTable h hd hu hpar hd1 hv).mp hq
    rcases Finset.mem_insert.mp hmem with rfl | hmem
    · obtain ⟨rfl, rfl⟩ := h.inj d1 hd1 d hd v u q hv hu hold htab
      exact hno ⟨rfl, v.under_self⟩
    · exact h.busy q ⟨d1, hd1, v, hv, hold⟩ hmem
  leafBusy := by
    intro d1 hd1 m q hm hq
    obtain ⟨hfree, htable⟩ := h.leafBusy d1 hd1 m q hm ((maps_cutTable h hd hu hpar hd1 hm).mp hq).1
    constructor
    · intro hmem
      rcases Finset.mem_insert.mp hmem with rfl | hmem
      · exact htable ⟨d, hd, u, hu, htab⟩
      · exact hfree hmem
    · rintro ⟨d2, hd2, v, hv, hvq⟩
      exact htable ⟨d2, hd2, v, hv, ((tab_cutTable h hd hu hpar hd2 hv).mp hvq).1⟩

end CutTable

/-! ## What `exit_range` has done so far -/

/-- No page is mapped. -/
def Blank (s : PageMem) (d : Nat) : Prop := ∀ n, n < userPages → s.maps d n = none

/-- **The places `X` are gone from the directory `d`, and the tables of `G` were given back.** -/
structure Exited (D : Finset Nat) (d : Nat) (X G : TSlot → Prop) (s s' : PageMem) : Prop where
  trees : Trees s' D
  maps : ∀ d' ∈ D, ∀ n, n < userPages → s'.maps d' n = s.maps d' n
  tab : ∀ d' ∈ D, ∀ v p, TSlot.User v → (s'.tab d' v = some p ↔ s.tab d' v = some p ∧ ¬ (d' = d ∧ X v))
  data : s'.data = s.data
  freed : ∃ l, s'.freed = l ++ s.freed ∧ l.Nodup ∧
    (∀ p, p ∈ l ↔ ∃ v, v.User ∧ G v ∧ s.tab d v = some p) ∧ ∀ p, p ∈ s'.free ↔ p ∈ s.free ∨ p ∈ l

namespace Exited

variable {X G X' G' : TSlot → Prop}

theorem refl (h : Trees s D) : Exited D d (fun _ => False) (fun _ => False) s s where
  trees := h
  maps _ _ _ _ := rfl
  tab _ _ _ _ _ := ⟨fun hq => ⟨hq, fun hcon => hcon.2⟩, fun hq => hq.1⟩
  data := rfl
  freed := by
    refine ⟨[], rfl, List.nodup_nil, fun p => ?_, fun p => ?_⟩
    · exact ⟨fun hp => absurd hp List.not_mem_nil, fun ⟨_, _, hcon, _⟩ => hcon.elim⟩
    · exact ⟨fun hp => .inl hp, fun hp => hp.resolve_right List.not_mem_nil⟩

theorem congr (h : Exited D d X G s s') (hX : ∀ v, v.User → (X v ↔ X' v)) (hG : ∀ v, v.User → (G v ↔ G' v)) :
    Exited D d X' G' s s' where
  trees := h.trees
  maps := h.maps
  tab d' hd' v p hv := by rw [h.tab d' hd' v p hv, hX v hv]
  data := h.data
  freed := by
    obtain ⟨l, h1, h2, h3, h4⟩ := h.freed
    refine ⟨l, h1, h2, fun p => ?_, h4⟩
    rw [h3]
    constructor
    · rintro ⟨v, hv, hg, hp⟩
      exact ⟨v, hv, (hG v hv).mp hg, hp⟩
    · rintro ⟨v, hv, hg, hp⟩
      exact ⟨v, hv, (hG v hv).mpr hg, hp⟩

/-- What is out of sight is not given back any more. -/
theorem trans (hs : Trees s D) (hd : d ∈ D) (h : Exited D d X G s s1) (h' : Exited D d X' G' s1 s2)
    (hGX : ∀ v, G v → X v) : Exited D d (fun v => X v ∨ X' v) (fun v => G v ∨ G' v ∧ ¬ X v) s s2 where
  trees := h'.trees
  maps d' hd' n hn := (h'.maps d' hd' n hn).trans (h.maps d' hd' n hn)
  tab := by
    intro d' hd' v p hv
    rw [h'.tab d' hd' v p hv, h.tab d' hd' v p hv, and_assoc, and_or_left, not_or]
  data := h'.data.trans h.data
  freed := by
    obtain ⟨l, hl, hnd, hmem, hfree⟩ := h.freed
    obtain ⟨l', hl', hnd', hmem', hfree'⟩ := h'.freed
    have hmem2 : ∀ p, p ∈ l' ↔ ∃ v, v.User ∧ (G' v ∧ ¬ X v) ∧ s.tab d v = some p := by
      intro p
      rw [hmem']
      constructor
      · rintro ⟨v, hv, hg, hp⟩
        obtain ⟨hold, hno⟩ := (h.tab d hd v p hv).mp hp
        exact ⟨v, hv, ⟨hg, fun hx => hno ⟨rfl, hx⟩⟩, hold⟩
      · rintro ⟨v, hv, ⟨hg, hno⟩, hp⟩
        exact ⟨v, hv, hg, (h.tab d hd v p hv).mpr ⟨hp, fun hcon => hno hcon.2⟩⟩
    refine ⟨l' ++ l, ?_, List.nodup_append.mpr ⟨hnd', hnd, ?_⟩, fun p => ?_, fun p => ?_⟩
    · rw [hl', hl, List.append_assoc]
    · -- a place given back first is gone, and its table is behind no other place
      rintro p hp _ hq rfl
      obtain ⟨v, hv, ⟨_, hno⟩, hvp⟩ := (hmem2 p).mp hp
      obtain ⟨w, hw, hg, hwp⟩ := (hmem p).mp hq
      obtain ⟨-, rfl⟩ := hs.inj d hd d hd v w p hv hw hvp hwp
      exact hno (hGX v hg)
    · rw [List.mem_append, hmem2, hmem]
      constructor
      · rintro (⟨v, hv, hg, hp⟩ | ⟨v, hv, hg, hp⟩)
        · exact ⟨v, hv, .inr hg, hp⟩
        · exact ⟨v, hv, .inl hg, hp⟩
      · rintro ⟨v, hv, hg | hg, hp⟩
        · exact .inr ⟨v, hv, hg, hp⟩
        · exact .inl ⟨v, hv, hg, hp⟩
    · rw [hfree', hfree, List.mem_append]
      tauto

theorem blank (h : Exited D d X G s s') (hd : d ∈ D) (hb : s.Blank d) : s'.Blank d :=
  fun n hn => (h.maps d hd n hn).trans (hb n hn)

end Exited

/-- **One table goes.** -/
theorem exited_cutTable (h : Trees s D) (hd : d ∈ D) (hu : u.User) (hpar : s.parent d u = some (t, i))
    (htab : s.tab d u = some p) (hb : s.Blank d) :
    Exited D d u.Under (fun v => v = u) s (s.cutTable t i p) where
  trees := trees_cutTable h hd hu hpar htab
  maps := by
    intro d' hd' n hn
    ext q
    rw [maps_cutTable h hd hu hpar hd' hn]
    refine ⟨fun hq => hq.1, fun hq => ⟨hq, ?_⟩⟩
    rintro ⟨rfl, -⟩
    rw [hb n hn] at hq
    cases hq
  tab := fun d' hd' v p hv => tab_cutTable h hd hu hpar hd' hv
  data := rfl
  freed := by
    refine ⟨[p], rfl, List.nodup_singleton p, fun q => ?_, fun q => ?_⟩
    · rw [List.mem_singleton]
      constructor
      · rintro rfl
        exact ⟨u, hu, rfl, htab⟩
      · rintro ⟨_, _, rfl, hq⟩
        exact Option.some.inj (hq.symm.trans htab)
    · show q ∈ insert p s.free ↔ _
      rw [Finset.mem_insert, List.mem_singleton, or_comm]

end PageMem

end Ucore
