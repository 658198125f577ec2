import Ucore.Mm.Correctness.Tables

/-!
# `Mm.Correctness.Walk` — `get_pte`

Without `create`, `get_pte` finds the page table that `tab` names. With it, tables appear on the way to the
page asked for and nothing else happens (`Deepened`).
-/

namespace Ucore

theorem pdx1_eq {la : Nat} (h : la < userTop) : pdx1 la = la / pgsize / 2 ^ 18 := by
  have hla : la < 2 ^ 31 := h
  show la / 2 ^ 30 % 512 = la / 2 ^ 12 / 2 ^ 18
  omega

theorem pdx0_eq (la : Nat) : pdx0 la = la / pgsize / 2 ^ 9 % 512 := by
  show la / 2 ^ 21 % 512 = la / 2 ^ 12 / 2 ^ 9 % 512
  omega

theorem page_lt {la : Nat} (h : la < userTop) : la / pgsize < userPages := by
  have hla : la < 2 ^ 31 := h
  show la / 2 ^ 12 < 2 ^ 19
  omega

namespace PageMem

/-- **What a walk to page `n` of the directory `d` may do:** free pages become tables on this way. -/
structure Deepened (D : Finset Nat) (d n : Nat) (s s' : PageMem) : Prop where
  trees : Trees s' D
  leaf : ∀ d' ∈ D, ∀ m, m < userPages → s'.leaf d' m = s.leaf d' m
  tab : ∀ d' ∈ D, ∀ t p, TSlot.User t → s.tab d' t = some p → s'.tab d' t = some p
  path : ∀ d' ∈ D, ∀ t p, TSlot.User t → s'.tab d' t = some p →
    s.tab d' t = some p ∨ d' = d ∧ (t = pdSlot n ∨ t = ptSlot n) ∧ p ∈ s.free
  data : s'.data = s.data
  freed : s'.freed = s.freed
  pick : s'.pick = s.pick
  nulls : s.nulls ≤ s'.nulls
  free : s'.free ⊆ s.free
  taken : ∀ p ∈ s.free, p ∉ s'.free → s'.IsTable D p
  ref : ∀ p, ¬ s'.IsTable D p → s'.ref p = s.ref p

variable {s s' s'' : PageMem} {D : Finset Nat} {d d' t i n p : Nat} {u : TSlot}

theorem sub_congr (htable : s'.table = s.table) : s'.sub = s.sub := by
  funext a j
  rw [sub, sub, htable]

theorem tab_congr (htable : s'.table = s.table) : s'.tab = s.tab := by
  funext d' t
  cases t with
  | root => rfl
  | pd k => rw [tab, tab, sub_congr htable]
  | pt k j => rw [tab, tab, sub_congr htable]

theorem leaf_congr (htable : s'.table = s.table) : s'.leaf = s.leaf := by
  funext d' m
  rw [leaf, leaf, tab_congr htable, htable]

theorem maps_congr (htable : s'.table = s.table) : s'.maps = s.maps := by
  funext d' m
  rw [maps, maps, leaf_congr htable]

theorem isTable_congr (htable : s'.table = s.table) : s'.IsTable D = s.IsTable D := by
  funext p
  rw [IsTable, IsTable, tab_congr htable]

theorem Trees.congr (h : Trees s D) (htable : s'.table = s.table) (hfree : s'.free = s.free) : Trees s' D where
  inj := by
    rw [tab_congr htable]
    exact h.inj
  busy := by
    rw [isTable_congr htable, hfree]
    exact h.busy
  leafBusy := by
    rw [isTable_congr htable, hfree, maps_congr htable]
    exact h.leafBusy

namespace Deepened

theorem of_same (h : Trees s D) (htable : s'.table = s.table) (hdata : s'.data = s.data) (hfreed : s'.freed = s.freed)
    (hpick : s'.pick = s.pick) (hfree : s'.free = s.free) (href : s'.ref = s.ref) (hnulls : s.nulls ≤ s'.nulls) :
    Deepened D d n s s' := by
  have htab := tab_congr htable
  have hleaf := leaf_congr htable
  refine ⟨h.congr htable hfree, ?_, ?_, ?_, hdata, hfreed, hpick, hnulls, hfree.le, ?_, ?_⟩
  · exact fun d' _ m _ => congrFun (congrFun hleaf d') m
  · exact fun d' _ t p _ htp => (congrFun (congrFun htab d') t).trans htp
  · exact fun d' _ t p _ htp => .inl ((congrFun (congrFun htab d') t).symm.trans htp)
  · exact fun p hp hp' => absurd (hfree ▸ hp) hp'
  · exact fun p _ => congrFun href p

theorem refl (h : Trees s D) : Deepened D d n s s := of_same h rfl rfl rfl rfl rfl rfl (Nat.le_refl _)

theorem isTable (h : Deepened D d n s s') (hp : s.IsTable D p) : s'.IsTable D p := by
  obtain ⟨d', hd', t, ht, htp⟩ := hp
  exact ⟨d', hd', t, ht, h.tab d' hd' t p ht htp⟩

theorem trans (h : Deepened D d n s s') (h' : Deepened D d n s' s'') : Deepened D d n s s'' where
  trees := h'.trees
  leaf d' hd' m hm := (h'.leaf d' hd' m hm).trans (h.leaf d' hd' m hm)
  tab d' hd' t p ht htp := h'.tab d' hd' t p ht (h.tab d' hd' t p ht htp)
  path := by
    intro d' hd' t p ht htp
    rcases h'.path d' hd' t p ht htp with htp' | ⟨hd, hpath, hfree⟩
    · exact h.path d' hd' t p ht htp'
    · exact .inr ⟨hd, hpath, h.free hfree⟩
  data := h'.data.trans h.data
  freed := h'.freed.trans h.freed
  pick := h'.pick.trans h.pick
  nulls := Nat.le_trans h.nulls h'.nulls
  free := fun _ hp => h.free (h'.free hp)
  taken := by
    intro p hp hp''
    by_cases hp' : p ∈ s'.free
    · exact h'.taken p hp' hp''
    · exact h'.isTable (h.taken p hp hp')
  ref p hp := (h'.ref p hp).trans (h.ref p fun hs => hp (h'.isTable hs))

theorem maps (h : Deepened D d n s s') (hd' : d' ∈ D) {m : Nat} (hm : m < userPages) : s'.maps d' m = s.maps d' m :=
  maps_of_leaf (h.leaf d' hd' m hm)

/-- A page that is neither free nor a table stays so. -/
theorem not_isTable (h : Deepened D d n s s') (hfree : p ∉ s.free) (hp : ¬ s.IsTable D p) : ¬ s'.IsTable D p := by
  rintro ⟨d', hd', t, ht, htp⟩
  rcases h.path d' hd' t p ht htp with htp' | ⟨-, -, hp'⟩
  · exact hp ⟨d', hd', t, ht, htp'⟩
  · exact hfree hp'

end Deepened

theorem deepened_addTable (h : Trees s D) (hd : d ∈ D) (hu : u.User) (hpar : s.parent d u = some (t, i))
    (hnone : s.tab d u = none) (hp : p ∈ s.free) (hn : u = pdSlot n ∨ u = ptSlot n) :
    Deepened D d n s (s.addTable t i p) := by
  have htab : ∀ d' ∈ D, ∀ v : TSlot, v.User → _ := fun d' hd' v hv => tab_addTable h hd hu hpar hnone hp hd' hv
  have hself : (s.addTable t i p).tab d u = some p := by rw [htab d hd u hu, if_pos ⟨rfl, rfl⟩]
  refine ⟨trees_addTable h hd hu hpar hnone hp, ?_, ?_, ?_, rfl, rfl, rfl, Nat.le_refl _, ?_, ?_, ?_⟩
  · exact fun d' hd' m hm => leaf_addTable h hd hu hpar hnone hp hd' hm
  · intro d' hd' v q hv hvq
    rw [htab d' hd' v hv, if_neg, hvq]
    rintro ⟨rfl, rfl⟩
    rw [hnone] at hvq
    cases hvq
  · intro d' hd' v q hv hvq
    rw [htab d' hd' v hv] at hvq
    split at hvq
    · next heq =>
      obtain rfl := Option.some.inj hvq
      exact .inr ⟨heq.1, heq.2 ▸ hn, hp⟩
    · exact .inl hvq
  · exact Finset.erase_subset p s.free
  · intro q hq hq'
    have hqp : q = p := by
      by_contra hne
      exact hq' (Finset.mem_erase.mpr ⟨hne, hq⟩)
    exact ⟨d, hd, u, hu, hqp ▸ hself⟩
  · intro q hq
    have hqp : q ≠ p := fun heq => hq ⟨d, hd, u, hu, heq ▸ hself⟩
    exact Function.update_of_ne hqp _ _

end PageMem

/-! ## `get_pte` -/

open PageMem

variable {s s' : PageMem} {D : Finset Nat} {d t i n p : Nat} {u : TSlot}

theorem allocPage_none (h : ∀ p, s.pick s.ticks = some p → p ∉ s.free) : allocPage s = .ok none s.tick := by
  rw [allocPage, Proc.get_bind]
  cases hpick : s.pick s.ticks with
  | none => rfl
  | some p =>
    simp only [if_neg (h p hpick)]
    rfl

theorem allocPage_some (hpick : s.pick s.ticks = some p) (hp : p ∈ s.free) : allocPage s = .ok (some p) (s.take p) := by
  rw [allocPage, Proc.get_bind, hpick]
  simp only [if_pos hp]
  rfl

theorem allocPage_cases (s : PageMem) :
    allocPage s = .ok none s.tick ∨ ∃ p, p ∈ s.free ∧ allocPage s = .ok (some p) (s.take p) := by
  by_cases h : ∃ p, s.pick s.ticks = some p ∧ p ∈ s.free
  · obtain ⟨p, hpick, hp⟩ := h
    exact .inr ⟨p, hp, allocPage_some hpick hp⟩
  · exact .inl (allocPage_none fun p hpick hp => h ⟨p, hpick, hp⟩)

theorem getTable_false (s : PageMem) (t i : Nat) : getTable t i false s = .ok (s.sub t i) s := by
  rw [getTable, Proc.get_bind, PageMem.sub]
  split
  · rfl
  · rfl

/-- A table that is there is found, with or without `create`. -/
theorem getTable_found (h : s.sub t i = some p) (create : Bool) : getTable t i create s = .ok (some p) s := by
  by_cases hv : (s.table t i).v = true
  · rw [PageMem.sub, if_pos hv] at h
    rw [getTable, Proc.get_bind, if_pos hv, h]
    rfl
  · rw [PageMem.sub, if_neg hv] at h
    cases h

/-- **One level with `create`.** -/
theorem getTable_true (h : Trees s D) (hd : d ∈ D) (hu : u.User) (hpar : s.parent d u = some (t, i))
    (hn : u = pdSlot n ∨ u = ptSlot n) :
    ∃ s', Deepened D d n s s' ∧ ((getTable t i true s = .ok none s' ∧ s.nulls < s'.nulls) ∨
      ∃ p, getTable t i true s = .ok (some p) s' ∧ s'.tab d u = some p) := by
  obtain ⟨_, _, _, _, htab⟩ := parent_isTable hu hpar
  by_cases hv : (s.table t i).v = true
  · refine ⟨s, .refl h, .inr ⟨(s.table t i).ppn, ?_, ?_⟩⟩
    · rw [getTable, Proc.get_bind, if_pos hv]
      rfl
    · rw [htab, PageMem.sub, if_pos hv]
  · have hnone : s.tab d u = none := by rw [htab, PageMem.sub, if_neg hv]
    rw [getTable, Proc.get_bind, if_neg hv, if_neg (Ne.symm Bool.false_ne_true)]
    rcases allocPage_cases s with hal | ⟨p, hp, hal⟩
    · refine ⟨s.tick, .of_same h rfl rfl rfl rfl rfl rfl (Nat.le_succ _), .inl ⟨?_, Nat.lt_succ_self _⟩⟩
      rw [Proc.bind_ok hal]
      rfl
    · refine ⟨s.addTable t i p, deepened_addTable h hd hu hpar hnone hp hn, .inr ⟨p, ?_, ?_⟩⟩
      · rw [Proc.bind_ok hal]
        rfl
      · rw [tab_addTable h hd hu hpar hnone hp hd hu, if_pos ⟨rfl, rfl⟩]

/-- **`get_pte` without `create`.** -/
theorem getPte_false (s : PageMem) (d : Nat) {la : Nat} (hla : la < userTop) :
    getPte d la false s = .ok ((s.tab d (ptSlot (la / pgsize))).map fun pt => (pt, la / pgsize % 512)) s := by
  rw [getPte, Proc.bind_ok (getTable_false s d (pdx1 la)), pdx1_eq hla]
  show _ = Outcome.ok (Option.map _ ((s.sub d (la / pgsize / 2 ^ 18)).bind _)) s
  cases s.sub d (la / pgsize / 2 ^ 18) with
  | none => rfl
  | some pd0 =>
    show (getTable pd0 (pdx0 la) false >>= _) s = _
    rw [Proc.bind_ok (getTable_false s pd0 (pdx0 la)), pdx0_eq]
    show _ = Outcome.ok (Option.map _ (s.sub pd0 (la / pgsize / 2 ^ 9 % 512))) s
    cases s.sub pd0 (la / pgsize / 2 ^ 9 % 512) with
    | none => rfl
    | some pt => rfl

/-- **`get_pte` with `create`.** -/
theorem getPte_true (h : Trees s D) (hd : d ∈ D) {la : Nat} (hla : la < userTop) :
    ∃ s', Deepened D d (la / pgsize) s s' ∧ ((getPte d la true s = .ok none s' ∧ s.nulls < s'.nulls) ∨
      ∃ pt, getPte d la true s = .ok (some (pt, la / pgsize % 512)) s' ∧
        s'.tab d (ptSlot (la / pgsize)) = some pt) := by
  have hn := page_lt hla
  have hpar : s.parent d (pdSlot (la / pgsize)) = some (d, pdx1 la) := by
    rw [pdx1_eq hla]
    rfl
  obtain ⟨s1, hg1, ⟨h1, hnull⟩ | ⟨pd0, h1, htab1⟩⟩ := getTable_true h hd (pdSlot_user hn) hpar (.inl rfl)
  · refine ⟨s1, hg1, .inl ⟨?_, hnull⟩⟩
    rw [getPte, Proc.bind_ok h1]
    rfl
  · have hpar1 : s1.parent d (ptSlot (la / pgsize)) = some (pd0, pdx0 la) := by
      rw [pdx0_eq]
      show (s1.sub d (la / pgsize / 2 ^ 18)).map _ = _
      rw [show s1.sub d (la / pgsize / 2 ^ 18) = some pd0 from htab1]
      rfl
    obtain ⟨s2, hg2, ⟨h2, hnull⟩ | ⟨pt, h2, htab2⟩⟩ := getTable_true hg1.trees hd (ptSlot_user hn) hpar1 (.inr rfl)
    · refine ⟨s2, hg1.trans hg2, .inl ⟨?_, Nat.lt_of_le_of_lt hg1.nulls hnull⟩⟩
      rw [getPte, Proc.bind_ok h1]
      show (getTable pd0 (pdx0 la) true >>= _) s1 = _
      rw [Proc.bind_ok h2]
      rfl
    · refine ⟨s2, hg1.trans hg2, .inr ⟨pt, ?_, htab2⟩⟩
      rw [getPte, Proc.bind_ok h1]
      show (getTable pd0 (pdx0 la) true >>= _) s1 = _
      rw [Proc.bind_ok h2]
      rfl

end Ucore
