import Ucore.Lib.Tally
import Ucore.Mm.Correctness.Walk

/-!
# `Mm.Correctness.Counts` — reference counts and the entries that map a page

`Sound s D L`: the tables of the directories in `D` are in order, and the counter of every page that is not one of
these tables is the number of valid page table entries that map it. The pages of `L` are the exception: nobody
has given them back, and nobody maps them any more. `Remapped` says what writing one entry does
when the counters are kept as `page_insert` and `page_remove_pte` keep them: a page is given back to the
allocator if and only if this was the last entry that mapped it.
-/

namespace Ucore

namespace PageMem

/-- The user pages of the directories in `D`. -/
def places (D : Finset Nat) : Finset (Nat × Nat) := D ×ˢ Finset.range userPages

/-- The number of valid page table entries that map `p`. -/
def count (s : PageMem) (D : Finset Nat) (p : Nat) : Nat := tally (places D) (fun k => s.maps k.1 k.2) p

/-- **The invariant.** -/
structure Sound (s : PageMem) (D : Finset Nat) (L : Nat → Prop) : Prop extends Trees s D where
  ref : ∀ p, ¬ s.IsTable D p → ¬ L p → s.ref p = s.count D p
  lost : ∀ p, L p → p ∉ s.free ∧ s.count D p = 0

/-- **What writing the entry of page `n` of the directory `d` does.** -/
structure Remapped (D : Finset Nat) (L : Nat → Prop) (d n : Nat) (e : Pte) (s s' : PageMem) : Prop where
  sound : Sound s' D L
  leaf : ∀ d' ∈ D, ∀ m, m < userPages → s'.leaf d' m = if d' = d ∧ m = n then e else s.leaf d' m
  tab : ∀ d' ∈ D, ∀ t, TSlot.User t → s'.tab d' t = s.tab d' t
  data : s'.data = s.data
  pick : s'.pick = s.pick
  nulls : s'.nulls = s.nulls
  gone : ∃ l, s'.freed = l ++ s.freed ∧ l.length ≤ 1 ∧ (∀ p, p ∈ l ↔ s.count D p = 1 ∧ s'.count D p = 0) ∧
    ∀ p, p ∈ s'.free ↔ p ∈ s.free ∨ p ∈ l

variable {s s' s1 : PageMem} {D : Finset Nat} {L : Nat → Prop} {d d' t n m p q page : Nat} {e : Pte} {perm : Perm}

theorem mem_places : (d, n) ∈ places D ↔ d ∈ D ∧ n < userPages := by
  rw [places, Finset.mem_product, Finset.mem_range]

theorem count_congr (h : ∀ d' ∈ D, ∀ m, m < userPages → s'.maps d' m = s.maps d' m) (p : Nat) :
    s'.count D p = s.count D p := by
  refine tally_congr (fun k hk => ?_) p
  obtain ⟨hk1, hk2⟩ := mem_places.mp hk
  exact h k.1 hk1 k.2 hk2

theorem count_pos (hd : d ∈ D) (hn : n < userPages) (h : s.maps d n = some p) : 0 < s.count D p := by
  have hmem : (d, n) ∈ places D := mem_places.mpr ⟨hd, hn⟩
  rw [count]
  exact tally_pos hmem h

theorem count_eq_zero : s.count D p = 0 ↔ ∀ d ∈ D, ∀ n, n < userPages → s.maps d n ≠ some p := by
  rw [count, tally_eq_zero]
  constructor
  · intro h d hd n hn
    exact h (d, n) (mem_places.mpr ⟨hd, hn⟩)
  · intro h k hk
    obtain ⟨hk1, hk2⟩ := mem_places.mp hk
    exact h k.1 hk1 k.2 hk2

/-- A free page is mapped nowhere, and neither is a table. -/
theorem Trees.count_free (h : Trees s D) (hp : p ∈ s.free) : s.count D p = 0 :=
  count_eq_zero.mpr fun d hd n hn hmaps => (h.leafBusy d hd n p hn hmaps).1 hp

theorem Trees.count_isTable (h : Trees s D) (hp : s.IsTable D p) : s.count D p = 0 :=
  count_eq_zero.mpr fun d hd n hn hmaps => (h.leafBusy d hd n p hn hmaps).2 hp

theorem Sound.ref_mapped (h : Sound s D L) (hd : d ∈ D) (hn : n < userPages) (hmaps : s.maps d n = some p) :
    s.ref p = s.count D p := by
  refine h.ref p (h.leafBusy d hd n p hn hmaps).2 fun hl => ?_
  have hpos := count_pos hd hn hmaps
  have hzero := (h.lost p hl).2
  omega

/-- A page that is given out or mapped is not lost. -/
theorem Sound.not_lost (h : Sound s D L) (hp : p ∈ s.free ∨ 0 < s.count D p) : ¬ L p := by
  intro hl
  obtain ⟨hfree, hzero⟩ := h.lost p hl
  rcases hp with hp | hp
  · exact hfree hp
  · omega

theorem Deepened.count (h : Deepened D d n s s') (p : Nat) : s'.count D p = s.count D p :=
  count_congr (fun _ hd' _ hm => h.maps hd' hm) p

theorem Deepened.sound (h : Deepened D d n s s') (hs : Sound s D L) : Sound s' D L where
  toTrees := h.trees
  ref p hp hl := by rw [h.ref p hp, h.count p, hs.ref p (fun hp' => hp (h.isTable hp')) hl]
  lost p hl := ⟨fun hmem => (hs.lost p hl).1 (h.free hmem), (h.count p).trans (hs.lost p hl).2⟩

/-! ## Writing an entry -/

/-- The page that an entry maps. -/
def target (e : Pte) : Option Nat := if e.v = true then some e.ppn else none

theorem maps_eq_target : s.maps d n = target (s.leaf d n) := rfl

theorem maps_of_written (h : s'.leaf d' m = if d' = d ∧ m = n then e else s.leaf d' m) :
    s'.maps d' m = if d' = d ∧ m = n then target e else s.maps d' m := by
  rw [maps_eq_target, h]
  split
  · rfl
  · rfl

/-- One entry is redirected: its old page loses a reference, the new one gets it. -/
theorem count_of_leaf (hd : d ∈ D) (hn : n < userPages)
    (h : ∀ d' ∈ D, ∀ m, m < userPages → s'.leaf d' m = if d' = d ∧ m = n then e else s.leaf d' m) (p : Nat) :
    s'.count D p + (if s.maps d n = some p then 1 else 0) = s.count D p + if target e = some p then 1 else 0 := by
  have hmem : (d, n) ∈ places D := mem_places.mpr ⟨hd, hn⟩
  have hmove : ∀ k ∈ places D, s'.maps k.1 k.2 = if k = (d, n) then target e else s.maps k.1 k.2 := by
    intro k hk
    obtain ⟨hk1, hk2⟩ := mem_places.mp hk
    rw [maps_of_written (h k.1 hk1 k.2 hk2)]
    simp only [Prod.ext_iff]
  rw [count, count]
  exact tally_update (f := fun k : Nat × Nat => s.maps k.1 k.2) hmem hmove p

/-- A page with one reference that loses this entry was mapped by it, and by no other. -/
theorem Sound.lastRef (h : Sound s D L) (hd : d ∈ D) (hn : n < userPages)
    (hc : s'.count D p + (if s.maps d n = some p then 1 else 0) = s.count D p + if target e = some p then 1 else 0) :
    s.maps d n = some p ∧ target e ≠ some p ∧ s.ref p = 1 ↔ s.count D p = 1 ∧ s'.count D p = 0 := by
  constructor
  · rintro ⟨hmap, hne, hone⟩
    have hr := h.ref_mapped hd hn hmap
    rw [if_pos hmap, if_neg hne] at hc
    omega
  · rintro ⟨hone, hzero⟩
    have hmap : s.maps d n = some p := by
      by_contra hcon
      rw [if_neg hcon] at hc
      omega
    refine ⟨hmap, fun heq => ?_, ?_⟩
    · rw [if_pos hmap, if_pos heq] at hc
      omega
    · rw [h.ref_mapped hd hn hmap, hone]
      rfl

/-- The trees after an entry is written and the pages of `l`, which nothing maps any more, are given back. -/
theorem Trees.rewritten {l : List Nat} (h : Trees s D) (htab : ∀ d' ∈ D, ∀ v, TSlot.User v → s'.tab d' v = s.tab d' v)
    (hmaps : ∀ d' ∈ D, ∀ m, m < userPages → s'.maps d' m = if d' = d ∧ m = n then target e else s.maps d' m)
    (hnew : ∀ p, target e = some p → p ∉ s.free ∧ ¬ s.IsTable D p) (hfree : ∀ p, p ∈ s'.free ↔ p ∈ s.free ∨ p ∈ l)
    (hlast : ∀ p ∈ l, s.count D p = 1 ∧ s'.count D p = 0) : Trees s' D := by
  have hIs : ∀ p, s'.IsTable D p ↔ s.IsTable D p := by
    intro p
    constructor
    · rintro ⟨d', hd', v, hv, hvp⟩
      exact ⟨d', hd', v, hv, (htab d' hd' v hv).symm.trans hvp⟩
    · rintro ⟨d', hd', v, hv, hvp⟩
      exact ⟨d', hd', v, hv, (htab d' hd' v hv).trans hvp⟩
  refine ⟨?_, ?_, ?_⟩
  · intro d1 hd1 d2 hd2 v w p hv hw h1 h2
    rw [htab d1 hd1 v hv] at h1
    rw [htab d2 hd2 w hw] at h2
    exact h.inj d1 hd1 d2 hd2 v w p hv hw h1 h2
  · intro p hp hmem
    rw [hIs] at hp
    rcases (hfree p).mp hmem with hmem | hmem
    · exact h.busy p hp hmem
    · have hzero := h.count_isTable hp
      have hone := (hlast p hmem).1
      omega
  · intro d' hd' m p hm hmp
    have hpos := count_pos hd' hm hmp
    rw [hIs]
    rw [hmaps d' hd' m hm] at hmp
    have hold : p ∉ s.free ∧ ¬ s.IsTable D p := by
      split at hmp
      · exact hnew p hmp
      · exact h.leafBusy d' hd' m p hm hmp
    refine ⟨fun hmem => ?_, hold.2⟩
    rcases (hfree p).mp hmem with hmem | hmem
    · exact hold.1 hmem
    · have hzero := (hlast p hmem).2
      omega

/-- An entry is written and the counters follow: `l` are the pages given back. -/
theorem remapped (h : Sound s D L) (hd : d ∈ D) (hn : n < userPages) (hpt : s.tab d (ptSlot n) = some t)
    (hnew : ∀ p, target e = some p → p ∉ s.free ∧ ¬ s.IsTable D p ∧ ¬ L p) (htable : s1.table = s.table)
    (hdata : s1.data = s.data) (hpick : s1.pick = s.pick) (hnulls : s1.nulls = s.nulls)
    (href : ∀ p, s1.ref p + (if s.maps d n = some p then 1 else 0) = s.ref p + if target e = some p then 1 else 0)
    {l : List Nat} (hfreed : s1.freed = l ++ s.freed) (hlen : l.length ≤ 1)
    (hl : ∀ p, p ∈ l ↔ s.maps d n = some p ∧ target e ≠ some p ∧ s.ref p = 1)
    (hfree : ∀ p, p ∈ s1.free ↔ p ∈ s.free ∨ p ∈ l) : Remapped D L d n e s (s1.setPte t (n % 512) e) := by
  have htab' : (s1.setPte t (n % 512) e).table = (s.setPte t (n % 512) e).table := by
    show Function.update s1.table _ _ = Function.update s.table _ _
    rw [htable]
  have htab : ∀ d' ∈ D, ∀ v, TSlot.User v → (s1.setPte t (n % 512) e).tab d' v = s.tab d' v := by
    intro d' hd' v hv
    rw [tab_congr htab']
    exact tab_setPte h.toTrees hd hn hpt hd' hv
  have hleaf : ∀ d' ∈ D, ∀ m, m < userPages →
      (s1.setPte t (n % 512) e).leaf d' m = if d' = d ∧ m = n then e else s.leaf d' m := by
    intro d' hd' m hm
    rw [leaf_congr htab']
    exact leaf_setPte h.toTrees hd hn hpt hd' hm
  have hmaps : ∀ d' ∈ D, ∀ m, m < userPages →
      (s1.setPte t (n % 512) e).maps d' m = if d' = d ∧ m = n then target e else s.maps d' m :=
    fun d' hd' m hm => maps_of_written (hleaf d' hd' m hm)
  have hcount := count_of_leaf hd hn hleaf
  have hlast : ∀ p, p ∈ l ↔ s.count D p = 1 ∧ (s1.setPte t (n % 512) e).count D p = 0 :=
    fun p => (hl p).trans (h.lastRef hd hn (hcount p))
  have htrees : Trees (s1.setPte t (n % 512) e) D :=
    h.toTrees.rewritten htab hmaps (fun p hp => ⟨(hnew p hp).1, (hnew p hp).2.1⟩) hfree fun p hp => (hlast p).mp hp
  refine ⟨⟨htrees, ?_, ?_⟩, hleaf, htab, hdata, hpick, hnulls, l, hfreed, hlen, hlast, hfree⟩
  · intro p hp hlost
    have hp' : ¬ s.IsTable D p := fun ⟨d', hd', v, hv, hvp⟩ => hp ⟨d', hd', v, hv, (htab d' hd' v hv).trans hvp⟩
    have hc := hcount p
    have hr := href p
    have hold := h.ref p hp' hlost
    show s1.ref p = _
    split at hc <;> split at hc <;> simp only [*, if_true, if_false] at hr <;> omega
  · intro p hlost
    obtain ⟨hnot, hzero⟩ := h.lost p hlost
    have hc := hcount p
    rw [if_neg (fun heq => (hnew p heq).2.2 hlost)] at hc
    refine ⟨fun hmem => ?_, by omega⟩
    rcases (hfree p).mp hmem with hmem | hmem
    · exact hnot hmem
    · have hone := ((hlast p).mp hmem).1
      omega

/-! ## `page_remove_pte` -/

/-- `page_ref_dec`, and `free_page` for the last reference. -/
def unref (s : PageMem) (p : Nat) : PageMem :=
  if s.ref p = 1 then (s.setRef p (s.ref p - 1)).give p else s.setRef p (s.ref p - 1)

theorem unref_ref (s : PageMem) (q p : Nat) : (s.unref q).ref p = s.ref p - if p = q then 1 else 0 := by
  rw [unref]
  split
  · next hq =>
    show Function.update (Function.update s.ref q _) q 0 p = _
    by_cases hpq : p = q
    · subst hpq
      rw [Function.update_self, if_pos rfl, hq]
      rfl
    · rw [Function.update_of_ne hpq, Function.update_of_ne hpq, if_neg hpq, sub_zero]
  · show Function.update s.ref q _ p = _
    by_cases hpq : p = q
    · subst hpq
      rw [Function.update_self, if_pos rfl]
    · rw [Function.update_of_ne hpq, if_neg hpq, sub_zero]

/-- The pages that `unref` gives back. -/
def lastRef (s : PageMem) (p : Nat) : List Nat := if s.ref p = 1 then [p] else []

theorem lastRef_length (s : PageMem) (p : Nat) : (s.lastRef p).length ≤ 1 := by
  rw [lastRef]
  split
  · exact Nat.le_refl 1
  · exact Nat.zero_le 1

theorem mem_lastRef : p ∈ s.lastRef q ↔ p = q ∧ s.ref q = 1 := by
  rw [lastRef]
  split
  · next hq => exact ⟨fun hp => ⟨List.mem_singleton.mp hp, hq⟩, fun hp => List.mem_singleton.mpr hp.1⟩
  · next hq => exact ⟨fun hp => absurd hp List.not_mem_nil, fun hp => absurd hp.2 hq⟩

theorem unref_freed (s : PageMem) (p : Nat) : (s.unref p).freed = s.lastRef p ++ s.freed := by
  rw [unref, lastRef]
  split
  · rfl
  · rfl

theorem mem_unref_free : p ∈ (s.unref q).free ↔ p ∈ s.free ∨ p ∈ s.lastRef q := by
  rw [unref, lastRef]
  split
  · show p ∈ insert q s.free ↔ _
    rw [Finset.mem_insert, List.mem_singleton, or_comm]
  · exact ⟨fun hp => .inl hp, fun hp => hp.resolve_right List.not_mem_nil⟩

theorem unref_same (s : PageMem) (p : Nat) : (s.unref p).table = s.table ∧ (s.unref p).data = s.data ∧
    (s.unref p).pick = s.pick ∧ (s.unref p).nulls = s.nulls := by
  rw [unref]
  split
  · exact ⟨rfl, rfl, rfl, rfl⟩
  · exact ⟨rfl, rfl, rfl, rfl⟩

end PageMem

end Ucore
