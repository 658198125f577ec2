import Ucore.Mm.PageTable

/-!
# `Mm.Correctness.Tables` — the page tables as trees

A directory `d` has a place for its root, one for each of the two tables of level 1 that serve user addresses,
and one for each page table below these (`TSlot`). `Trees s D` says that the tables of the directories in `D`
are pages of their own, and that mapped pages are neither tables nor free. The page table entry of the user
page `n` is `leaf`; what `get_pte` finds and makes is said in these terms.
-/

namespace Ucore

/-- The places for the tables of a directory. -/
inductive TSlot where
  | root
  | pd (i : Nat)
  | pt (i j : Nat)
deriving DecidableEq

/-- The place serves user addresses. -/
def TSlot.User : TSlot → Prop
  | .root   => True
  | .pd i   => i < 2
  | .pt i j => i < 2 ∧ j < 512

/-- The number of user pages. -/
def userPages : Nat := 2 ^ 19

/-- The page tables on the way to page `n`. -/
def pdSlot (n : Nat) : TSlot := .pd (n / 2 ^ 18)
def ptSlot (n : Nat) : TSlot := .pt (n / 2 ^ 18) (n / 2 ^ 9 % 512)

theorem pdSlot_user {n : Nat} (h : n < userPages) : (pdSlot n).User := by
  have hn : n < 2 ^ 19 := h
  show n / 2 ^ 18 < 2
  omega

theorem ptSlot_user {n : Nat} (h : n < userPages) : (ptSlot n).User := by
  have hn : n < 2 ^ 19 := h
  constructor <;> omega

theorem page_eq_of_slot {m n : Nat} (h : ptSlot m = ptSlot n) (hi : m % 512 = n % 512) : m = n := by
  injection h with h1 h2
  omega

namespace PageMem

/-- The table or page that entry `i` of the table `t` leads to. -/
def sub (s : PageMem) (t i : Nat) : Option Nat := if (s.table t i).v = true then some (s.table t i).ppn else none

/-- The page at a place of the directory `d`. -/
def tab (s : PageMem) (d : Nat) : TSlot → Option Nat
  | .root   => some d
  | .pd i   => s.sub d i
  | .pt i j => (s.sub d i).bind fun pd0 => s.sub pd0 j

/-- The page table entry of the user page `n`; all zero where there is no page table. -/
def leaf (s : PageMem) (d n : Nat) : Pte :=
  match s.tab d (ptSlot n) with
  | some pt => s.table pt (n % 512)
  | none    => .zero

/-- The page that the user page `n` is mapped to. -/
def maps (s : PageMem) (d n : Nat) : Option Nat := if (s.leaf d n).v = true then some (s.leaf d n).ppn else none

def IsTable (s : PageMem) (D : Finset Nat) (p : Nat) : Prop := ∃ d ∈ D, ∃ t : TSlot, t.User ∧ s.tab d t = some p

/-- **The tables of the directories in `D`.** -/
structure Trees (s : PageMem) (D : Finset Nat) : Prop where
  inj : ∀ d ∈ D, ∀ d' ∈ D, ∀ t u p, TSlot.User t → TSlot.User u → s.tab d t = some p → s.tab d' u = some p →
    d = d' ∧ t = u
  busy : ∀ p, s.IsTable D p → p ∉ s.free
  leafBusy : ∀ d ∈ D, ∀ n p, n < userPages → s.maps d n = some p → p ∉ s.free ∧ ¬ s.IsTable D p

variable {s s' : PageMem} {D : Finset Nat} {d d' t i n p : Nat} {e : Pte} {u : TSlot}

theorem leaf_of_tab {pt : Nat} (h : s.tab d (ptSlot n) = some pt) : s.leaf d n = s.table pt (n % 512) := by
  rw [leaf, h]

theorem leaf_of_none (h : s.tab d (ptSlot n) = none) : s.leaf d n = .zero := by
  rw [leaf, h]

theorem maps_of_leaf (h : s'.leaf d n = s.leaf d n) : s'.maps d n = s.maps d n := by
  rw [maps, maps, h]

theorem maps_eq_some : s.maps d n = some p ↔ (s.leaf d n).v = true ∧ (s.leaf d n).ppn = p := by
  rw [maps]
  split
  · next hv => exact ⟨fun h => ⟨hv, Option.some.inj h⟩, fun h => congrArg some h.2⟩
  · next hv => exact ⟨fun h => (Option.some_ne_none p h.symm).elim, fun h => absurd h.1 hv⟩

theorem tab_root_ne (h : Trees s D) (hd : d ∈ D) (hd' : d' ∈ D) (hu : u.User) (hne : u ≠ .root) :
    s.tab d u ≠ some d' := by
  intro heq
  exact hne (h.inj d hd d' hd' u .root d' hu trivial heq rfl).2

/-- Two places of one parent are different, so a page table is no table of level 1. -/
theorem tab_pt_ne_pd {i' j' k' p' : Nat} (h : Trees s D) (hd : d ∈ D) (hd' : d' ∈ D) (hi : i' < 2 ∧ j' < 512)
    (hk : k' < 2) (hpt : s.tab d (.pt i' j') = some p) (hpd : s.tab d' (.pd k') = some p') : p ≠ p' := by
  rintro rfl
  exact TSlot.noConfusion (h.inj d hd d' hd' (.pt i' j') (.pd k') _ hi hk hpt hpd).2

/-! ## Changing an entry of a page table -/

theorem sub_setPte_of_ne {a : Nat} (h : a ≠ t) (j : Nat) : (s.setPte t i e).sub a j = s.sub a j := by
  have htab : (s.setPte t i e).table a = s.table a := Function.update_of_ne h _ _
  rw [sub, sub, htab]

/-- The places stay what they are when the page written to is a page table. -/
theorem tab_setPte (h : Trees s D) (hd : d ∈ D) (hn : n < userPages) (hpt : s.tab d (ptSlot n) = some t)
    (hd' : d' ∈ D) (hu : u.User) : (s.setPte t i e).tab d' u = s.tab d' u := by
  have hroot : ∀ d' ∈ D, d' ≠ t := fun d' hd' heq => tab_root_ne h hd hd' (ptSlot_user hn) TSlot.noConfusion (heq ▸ hpt)
  cases u with
  | root => rfl
  | pd k => exact sub_setPte_of_ne (hroot d' hd') k
  | pt k j =>
    have hsub : (s.setPte t i e).sub d' k = s.sub d' k := sub_setPte_of_ne (hroot d' hd') k
    show ((s.setPte t i e).sub d' k).bind _ = (s.sub d' k).bind _
    rw [hsub]
    refine Option.bind_congr fun pd0 hpd => ?_
    have hne : t ≠ pd0 := tab_pt_ne_pd h hd hd' (ptSlot_user hn) hu.1 hpt hpd
    exact sub_setPte_of_ne hne.symm j

/-- **Writing an entry.** -/
theorem leaf_setPte (h : Trees s D) (hd : d ∈ D) (hn : n < userPages) (hpt : s.tab d (ptSlot n) = some t)
    (hd' : d' ∈ D) {m : Nat} (hm : m < userPages) :
    (s.setPte t (n % 512) e).leaf d' m = if d' = d ∧ m = n then e else s.leaf d' m := by
  have htab := @tab_setPte s D d d' t (n % 512) n e _ h hd hn hpt hd' (ptSlot_user hm)
  cases hm' : s.tab d' (ptSlot m) with
  | none =>
    rw [leaf_of_none (htab.trans hm'), leaf_of_none hm', if_neg]
    rintro ⟨rfl, rfl⟩
    rw [hpt] at hm'
    cases hm'
  | some a =>
    rw [leaf_of_tab (htab.trans hm'), leaf_of_tab hm']
    by_cases hat : a = t
    · subst hat
      obtain ⟨rfl, hslot⟩ := h.inj d' hd' d hd _ _ _ (ptSlot_user hm) (ptSlot_user hn) hm' hpt
      show Function.update s.table a (Function.update (s.table a) (n % 512) e) a (m % 512) = _
      rw [Function.update_self]
      by_cases hidx : m % 512 = n % 512
      · rw [hidx, Function.update_self, if_pos ⟨rfl, page_eq_of_slot hslot hidx⟩]
      · rw [Function.update_of_ne hidx, if_neg]
        rintro ⟨-, rfl⟩
        exact hidx rfl
    · have hsame : (s.setPte t (n % 512) e).table a = s.table a := Function.update_of_ne hat _ _
      rw [hsame, if_neg]
      rintro ⟨rfl, rfl⟩
      rw [hpt] at hm'
      exact hat (Option.some.inj hm').symm

/-! ## A new table -/

/-- The page `p` becomes the empty table behind entry `i` of `t`. -/
def addTable (s : PageMem) (t i p : Nat) : PageMem :=
  (((s.take p).setRef p 1).setTable p fun _ => .zero).setPte t i (pteCreate p { Perm.none with u := true })

/-- The entry that a place of a directory depends on. -/
def parent (s : PageMem) (d : Nat) : TSlot → Option (Nat × Nat)
  | .root   => none
  | .pd i   => some (d, i)
  | .pt i j => (s.sub d i).map fun pd0 => (pd0, j)

theorem table_addTable_of_ne {a : Nat} (ht : a ≠ t) (hp : a ≠ p) : (s.addTable t i p).table a = s.table a :=
  (Function.update_of_ne ht _ _).trans (Function.update_of_ne hp _ _)

theorem sub_addTable_self : (s.addTable t i p).sub t i = some p := by
  have htab : (s.addTable t i p).table t i = pteCreate p { Perm.none with u := true } :=
    (congrFun (Function.update_self t _ _) i).trans (Function.update_self ..)
  rw [sub, htab]
  rfl

theorem sub_addTable_new (ht : t ≠ p) (j : Nat) : (s.addTable t i p).sub p j = none := by
  have htab : (s.addTable t i p).table p = fun _ => .zero :=
    (Function.update_of_ne ht.symm _ _).trans (Function.update_self ..)
  rw [sub, htab]
  rfl

theorem sub_addTable_other {a j : Nat} (hp : a ≠ p) (hne : a ≠ t ∨ j ≠ i) : (s.addTable t i p).sub a j = s.sub a j := by
  have htab : (s.addTable t i p).table a j = s.table a j := by
    by_cases hat : a = t
    · subst hat
      have hj : j ≠ i := hne.resolve_left (not_not_intro rfl)
      refine (congrFun (Function.update_self a _ _) j).trans ((Function.update_of_ne hj _ _).trans ?_)
      exact congrFun (Function.update_of_ne hp _ _) j
    · exact congrFun (table_addTable_of_ne hat hp) j
  rw [sub, sub, htab]

/-- The parent of a place is itself a table of the directory, other than a page table. -/
theorem parent_isTable (hu : u.User) (hpar : s.parent d u = some (t, i)) :
    ∃ v : TSlot, v.User ∧ s.tab d v = some t ∧ (∀ k j, v ≠ .pt k j) ∧ s.tab d u = s.sub t i := by
  cases u with
  | root => cases hpar
  | pd k =>
    injection hpar with hpar
    injection hpar with h1 h2
    subst h1 h2
    exact ⟨.root, trivial, rfl, fun _ _ => TSlot.noConfusion, rfl⟩
  | pt k j =>
    obtain ⟨pd0, hsub, heq⟩ := Option.map_eq_some_iff.mp hpar
    injection heq with h1 h2
    subst h1 h2
    refine ⟨.pd k, hu.1, hsub, fun _ _ => TSlot.noConfusion, ?_⟩
    show (s.sub d k).bind _ = _
    rw [hsub]
    rfl

/-- An entry belongs to one place. -/
theorem parent_inj (h : Trees s D) (hd : d ∈ D) (hd' : d' ∈ D) {v : TSlot} {x : Nat × Nat} (hu : u.User) (hv : v.User)
    (hpu : s.parent d u = some x) (hpv : s.parent d' v = some x) : d = d' ∧ u = v := by
  cases u with
  | root => cases hpu
  | pd k =>
    cases v with
    | root => cases hpv
    | pd k' =>
      injection hpu.trans hpv.symm with heq
      injection heq with h1 h2
      exact ⟨h1, congrArg TSlot.pd h2⟩
    | pt k' j' =>
      obtain ⟨pd0, hsub, rfl⟩ := Option.map_eq_some_iff.mp hpv
      injection hpu with heq
      injection heq with h1 _
      have hsub' : s.tab d' (.pd k') = some d := h1 ▸ hsub
      exact absurd hsub' (@tab_root_ne s D d' d (.pd k') h hd' hd hv.1 TSlot.noConfusion)
  | pt k j =>
    obtain ⟨pd0, hsub, rfl⟩ := Option.map_eq_some_iff.mp hpu
    cases v with
    | root => cases hpv
    | pd k' =>
      injection hpv with heq
      injection heq with h1 _
      have hsub' : s.tab d (.pd k) = some d' := h1 ▸ hsub
      exact absurd hsub' (@tab_root_ne s D d d' (.pd k) h hd hd' hu.1 TSlot.noConfusion)
    | pt k' j' =>
      obtain ⟨pd0', hsub', heq⟩ := Option.map_eq_some_iff.mp hpv
      injection heq with h1 h2
      subst h1 h2
      obtain ⟨rfl, hslot⟩ := h.inj d hd d' hd' (.pd k) (.pd k') _ hu.1 hv.1 hsub hsub'
      injection hslot with hk
      exact ⟨rfl, by rw [hk]⟩

/-- A free page is no table. -/
theorem new_ne_tab (h : Trees s D) (hp : p ∈ s.free) (hd : d ∈ D) {v : TSlot} (hv : v.User) {a : Nat}
    (hva : s.tab d v = some a) : a ≠ p := by
  rintro rfl
  exact h.busy a ⟨d, hd, v, hv, hva⟩ hp

section AddTable

variable (h : Trees s D) (hd : d ∈ D) (hu : u.User) (hpar : s.parent d u = some (t, i)) (hnone : s.tab d u = none)
  (hp : p ∈ s.free)

include h hd hu hpar hp

theorem sub_root_addTable (hd' : d' ∈ D) {k : Nat} (hk : k < 2) :
    (s.addTable t i p).sub d' k = if d' = d ∧ .pd k = u then some p else s.sub d' k := by
  by_cases heq : d' = d ∧ .pd k = u
  · obtain ⟨rfl, rfl⟩ := heq
    injection hpar with hpar
    injection hpar with h1 h2
    subst h1 h2
    rw [if_pos ⟨rfl, rfl⟩]
    exact sub_addTable_self
  · rw [if_neg heq]
    have hroot : s.IsTable D d' := ⟨d', hd', .root, trivial, rfl⟩
    refine sub_addTable_other (fun heq => h.busy d' hroot (heq ▸ hp)) ?_
    by_contra hcon
    rw [not_or, not_not, not_not] at hcon
    refine heq (parent_inj h hd' hd hk hu ?_ hpar)
    rw [← hcon.1, ← hcon.2]
    rfl

include hnone

/-- **The places after a table has been added.** -/
theorem tab_addTable (hd' : d' ∈ D) {v : TSlot} (hv : v.User) :
    (s.addTable t i p).tab d' v = if d' = d ∧ v = u then some p else s.tab d' v := by
  cases v with
  | root =>
    rw [if_neg]
    · rfl
    · rintro ⟨-, rfl⟩
      cases hpar
  | pd k => exact sub_root_addTable h hd hu hpar hp hd' hv
  | pt k j =>
    have hsub := sub_root_addTable h hd hu hpar hp hd' hv.1
    show ((s.addTable t i p).sub d' k).bind _ = if _ then some p else (s.sub d' k).bind _
    rw [hsub]
    by_cases heq : d' = d ∧ .pd k = u
    · -- the new table is empty, and before it there was nothing
      obtain ⟨rfl, rfl⟩ := heq
      have htp : t ≠ p := by
        rintro rfl
        injection hpar with hpar
        injection hpar with h1 _
        exact h.busy t ⟨d', hd, .root, trivial, congrArg some h1⟩ hp
      rw [if_pos ⟨rfl, rfl⟩, if_neg fun hcon => TSlot.noConfusion hcon.2, show s.sub d' k = none from hnone]
      exact sub_addTable_new htp j
    · rw [if_neg heq]
      cases hpd : s.sub d' k with
      | none =>
        rw [if_neg]
        · rfl
        · rintro ⟨rfl, rfl⟩
          rw [parent, hpd] at hpar
          cases hpar
      | some pd0 =>
        have hparv : s.parent d' (.pt k j) = some (pd0, j) := by
          rw [parent, hpd]
          rfl
        show (s.addTable t i p).sub pd0 j = if _ then some p else s.sub pd0 j
        by_cases hthis : d' = d ∧ .pt k j = u
        · obtain ⟨rfl, rfl⟩ := hthis
          rw [hparv] at hpar
          injection hpar with hpar
          injection hpar with h1 h2
          subst h1 h2
          rw [if_pos ⟨rfl, rfl⟩]
          exact sub_addTable_self
        · rw [if_neg hthis]
          refine sub_addTable_other (fun heq => h.busy pd0 ⟨d', hd', .pd k, hv.1, hpd⟩ (heq ▸ hp)) ?_
          by_contra hcon
          rw [not_or, not_not, not_not] at hcon
          refine hthis (parent_inj h hd' hd hv hu ?_ hpar)
          rw [← hcon.1, ← hcon.2]
          exact hparv

/-- The page table entries stay what they are: those of a new table are all zero. -/
theorem leaf_addTable (hd' : d' ∈ D) {m : Nat} (hm : m < userPages) : (s.addTable t i p).leaf d' m = s.leaf d' m := by
  have htab := tab_addTable h hd hu hpar hnone hp hd' (ptSlot_user hm)
  by_cases heq : d' = d ∧ ptSlot m = u
  · rw [if_pos heq] at htab
    have hold : s.tab d' (ptSlot m) = none := by rw [heq.1, heq.2, hnone]
    rw [leaf_of_tab htab, leaf_of_none hold]
    obtain ⟨v, hv, hvt, -, -⟩ := parent_isTable hu hpar
    have hne : p ≠ t := fun heq => new_ne_tab h hp hd hv hvt heq.symm
    have hnew : (s.addTable t i p).table p = fun _ => .zero :=
      (Function.update_of_ne hne _ _).trans (Function.update_self ..)
    exact congrFun hnew (m % 512)
  · rw [if_neg heq] at htab
    cases ha : s.tab d' (ptSlot m) with
    | none => rw [leaf_of_none (htab.trans ha), leaf_of_none ha]
    | some a =>
      rw [leaf_of_tab (htab.trans ha), leaf_of_tab ha]
      -- the entry that is written belongs to a directory or to a table of level 1
      obtain ⟨v, hv, hvt, hvpt, -⟩ := parent_isTable hu hpar
      have hat : a ≠ t := by
        rintro rfl
        exact hvpt _ _ (h.inj d hd d' hd' v (ptSlot m) a hv (ptSlot_user hm) hvt ha).2
      exact congrFun (table_addTable_of_ne hat (new_ne_tab h hp hd' (ptSlot_user hm) ha)) (m % 512)

theorem isTable_addTable {q : Nat} (hq : (s.addTable t i p).IsTable D q) : q = p ∨ s.IsTable D q := by
  obtain ⟨d', hd', v, hv, htab⟩ := hq
  rw [tab_addTable h hd hu hpar hnone hp hd' hv] at htab
  split at htab
  · exact .inl (Option.some.inj htab).symm
  · exact .inr ⟨d', hd', v, hv, htab⟩

theorem trees_addTable : Trees (s.addTable t i p) D where
  inj := by
    intro d1 hd1 d2 hd2 v w q hv hw h1 h2
    have h1' := (tab_addTable h hd hu hpar hnone hp hd1 hv).symm.trans h1
    have h2' := (tab_addTable h hd hu hpar hnone hp hd2 hw).symm.trans h2
    split at h1'
    · next heq1 =>
      obtain rfl := Option.some.inj h1'
      split at h2'
      · next heq2 => exact ⟨heq1.1.trans heq2.1.symm, heq1.2.trans heq2.2.symm⟩
      · exact absurd rfl (new_ne_tab h hp hd2 hw h2')
    · split at h2'
      · obtain rfl := Option.some.inj h2'
        exact absurd rfl (new_ne_tab h hp hd1 hv h1')
      · exact h.inj d1 hd1 d2 hd2 v w q hv hw h1' h2'
  busy := by
    intro q hq
    rcases isTable_addTable h hd hu hpar hnone hp hq with rfl | hq
    · exact Finset.notMem_erase q s.free
    · exact fun hmem => h.busy q hq (Finset.mem_of_mem_erase hmem)
  leafBusy := by
    intro d' hd' m q hm hmaps
    rw [maps_of_leaf (leaf_addTable h hd hu hpar hnone hp hd' hm)] at hmaps
    obtain ⟨hfree, htable⟩ := h.leafBusy d' hd' m q hm hmaps
    refine ⟨fun hmem => hfree (Finset.mem_of_mem_erase hmem), fun hq => ?_⟩
    rcases isTable_addTable h hd hu hpar hnone hp hq with rfl | hq
    · exact hfree hp
    · exact htable hq

end AddTable

end PageMem

end Ucore
