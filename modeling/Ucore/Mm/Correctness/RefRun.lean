import Mathlib.Logic.Relation
import Ucore.Lib.Run
import Ucore.Mm.Correctness.Ranges

/-!
# `Mm.Correctness.RefRun` — reference counts over whole runs

The system is the physical memory together with the directories set up so far; its steps are calls of the mapping
functions, in any order, for any of the directories. The range functions go page by page, and a round of their
loop is the unit in which a reference is lost: `Exact` says that a page comes back to the allocator in a round if
and only if its last reference went in it.
-/

namespace Ucore

open PageMem

/-- The calls that write page table entries, `alloc_page` for a page to be mapped, and `setup_pgdir`. -/
inductive MmCall where
  | alloc
  | setup (boot : Nat → Pte)
  | insert (d page la : Nat) (perm : Perm)
  | remove (d la : Nat)
  | allocAt (d la : Nat) (perm : Perm)
  | unmap (d start stop : Nat)
  | copy (dst src start stop : Nat)

/-- The memory and the directories in use. -/
abbrev MmState := PageMem × Finset Nat

/-- Addresses are user addresses, and a page that is inserted is neither free nor a table. `boot_pgdir` maps no
    user address. -/
inductive MmStep : MmState → MmCall → MmState → Prop where
  | alloc {s s' : PageMem} {D : Finset Nat} (h : (allocPage s).EndsIn s') : MmStep (s, D) .alloc (s', D)
  | setup {s s' : PageMem} {D : Finset Nat} {boot : Nat → Pte} {d : Nat} (hboot : ∀ i < 2, (boot i).v = false)
      (h : setupPgdir boot s = .ok d s') : MmStep (s, D) (.setup boot) (s', insert d D)
  | noSetup {s s' : PageMem} {D : Finset Nat} {boot : Nat → Pte} {e : Int}
      (h : setupPgdir boot s = .err e s') : MmStep (s, D) (.setup boot) (s', D)
  | insert {s s' : PageMem} {D : Finset Nat} {d page la : Nat} {perm : Perm} (hd : d ∈ D) (hla : la < userTop)
      (hfree : page ∉ s.free) (htable : ¬ s.IsTable D page) (h : (pageInsert d page la perm s).EndsIn s') :
      MmStep (s, D) (.insert d page la perm) (s', D)
  | remove {s s' : PageMem} {D : Finset Nat} {d la : Nat} (hd : d ∈ D) (hla : la < userTop)
      (h : (pageRemove d la s).EndsIn s') : MmStep (s, D) (.remove d la) (s', D)
  | allocAt {s s' : PageMem} {D : Finset Nat} {d la : Nat} {perm : Perm} (hd : d ∈ D) (hla : la < userTop)
      (h : (pgdirAllocPage d la perm s).EndsIn s') : MmStep (s, D) (.allocAt d la perm) (s', D)
  | unmap {s s' : PageMem} {D : Finset Nat} {d start stop : Nat} (hd : d ∈ D)
      (h : (unmapRange d start stop s).EndsIn s') : MmStep (s, D) (.unmap d start stop) (s', D)
  | copy {s s' : PageMem} {D : Finset Nat} {dst src start stop : Nat} (hd : dst ∈ D) (hs : src ∈ D)
      (h : (copyRange dst src start stop s).EndsIn s') : MmStep (s, D) (.copy dst src start stop) (s', D)

/-- No directory, and no page is referenced. -/
def MmInit (a : MmState) : Prop := a.2 = ∅ ∧ ∀ p, a.1.ref p = 0

def MmCall.isRange : MmCall → Bool
  | .unmap .. => true
  | .copy ..  => true
  | _         => false

/-- The rounds of a call: those of its loop, or the call as a whole. -/
inductive MmRound : MmCall → MmState → MmState → Prop where
  | unmap {s s' : PageMem} {D : Finset Nat} {d start stop la : Nat} (hlo : start ≤ la) (hhi : la < stop)
      (h : (unmapRound d la s).EndsIn s') : MmRound (.unmap d start stop) (s, D) (s', D)
  | copy {s s' : PageMem} {D : Finset Nat} {dst src start stop la : Nat} (hlo : start ≤ la) (hhi : la < stop)
      (h : (copyRound dst src la s).EndsIn s') : MmRound (.copy dst src start stop) (s, D) (s', D)
  | call {c : MmCall} {a b : MmState} (hc : c.isRange = false) (h : MmStep a c b) : MmRound c a b

/-- **A page is returned to the allocator exactly when the number of entries that map it drops from 1 to 0.** -/
def Exact (a b : MmState) : Prop :=
  ∀ p, (p ∉ a.1.free ∧ p ∈ b.1.free) ↔ (a.1.count a.2 p = 1 ∧ b.1.count b.2 p = 0)

variable {s s' s1 : PageMem} {D : Finset Nat} {L : Nat → Prop} {d d' n p q page la start stop : Nat} {perm : Perm} {c : MmCall}

/-! ## One round -/

theorem exact_of_same (hcount : ∀ p, s'.count D p = s.count D p) (hfree : ∀ p, p ∈ s'.free → p ∈ s.free) :
    Exact (s, D) (s', D) := by
  intro p
  constructor
  · exact fun h => absurd (hfree p h.2) h.1
  · rintro ⟨hone, hzero⟩
    have hsame : s'.count D p = s.count D p := hcount p
    have hone' : s.count D p = 1 := hone
    have hzero' : s'.count D p = 0 := hzero
    omega

/-- Tables and pages are taken, and then an entry is written. -/
theorem exact_remapped {e : Pte} (h : Sound s D L) (hcount : ∀ p, s1.count D p = s.count D p)
    (hfree : ∀ p, p ∈ s1.free → p ∈ s.free) (hr : Remapped D L d n e s1 s') : Exact (s, D) (s', D) := by
  obtain ⟨l, _, _, hlast, hgone⟩ := hr.gone
  intro p
  show p ∉ s.free ∧ p ∈ s'.free ↔ s.count D p = 1 ∧ s'.count D p = 0
  rw [hgone, ← hcount, ← hlast]
  constructor
  · rintro ⟨hp, hp1 | hl⟩
    · exact absurd (hfree p hp1) hp
    · exact hl
  · intro hl
    refine ⟨fun hp => ?_, .inr hl⟩
    have hzero := h.count_free hp
    have hone := ((hlast p).mp hl).1
    have hsame := hcount p
    omega

theorem unmapRound_exact (h : Sound s D L) (hd : d ∈ D) (hla : la < userTop) (hal : la % pgsize = 0) :
    ∃ next s', unmapRound d la s = .ok next s' ∧ la + pgsize ≤ next ∧ next % pgsize = 0 ∧ Sound s' D L ∧
      Exact (s, D) (s', D) := by
  have hstep : (la + pgsize) % pgsize = 0 := by rw [Nat.add_mod_right, hal]
  have hsame : Exact (s, D) (s, D) := exact_of_same (fun _ => rfl) fun _ hp => hp
  rcases unmapRound_spec h hd hla with ⟨_, hrun⟩ | ⟨_, hrun⟩ | ⟨s', hrun, hr⟩
  · exact ⟨_, s, hrun, le_nextTable hal, nextTable_aligned la, h, hsame⟩
  · exact ⟨_, s, hrun, Nat.le_refl _, hstep, h, hsame⟩
  · exact ⟨_, s', hrun, Nat.le_refl _, hstep, hr.sound, exact_remapped h (fun _ => rfl) (fun _ hp => hp) hr⟩

theorem copyRound_exact {src : Nat} (h : Sound s D L) (hd : d ∈ D) (hla : la < userTop) (hal : la % pgsize = 0) :
    (copyRound d src la s).Meets
      (fun next s' => la + pgsize ≤ next ∧ next % pgsize = 0 ∧ Sound s' D L ∧ Exact (s, D) (s', D))
      (fun _ s' => Sound s' D L ∧ Exact (s, D) (s', D)) (fun p => p = .copyNoPage) := by
  have hstep : (la + pgsize) % pgsize = 0 := by rw [Nat.add_mod_right, hal]
  have hsame : Exact (s, D) (s, D) := exact_of_same (fun _ => rfl) fun _ hp => hp
  rcases @copyRound_spec s D L d la src h hd hla with ⟨_, hrun⟩ | ⟨_, hrun⟩ | ⟨_, hrest⟩
  · rw [hrun]
    exact ⟨le_nextTable hal, nextTable_aligned la, h, hsame⟩
  · rw [hrun]
    exact ⟨Nat.le_refl _, hstep, h, hsame⟩
  · rcases hrest with ⟨s1, hrun, hg, _⟩ | ⟨hrun, _⟩ | ⟨s1, p, s', hg, hp, hrun, hr⟩
    · rw [hrun]
      exact ⟨hg.sound h, exact_of_same hg.count fun _ hp => hg.free hp⟩
    · rw [hrun]
      rfl
    · rw [hrun]
      refine ⟨Nat.le_refl _, hstep, hr.sound, exact_remapped h (fun q => ?_) (fun q hq => ?_) hr⟩
      · exact hg.count q
      · exact hg.free (Finset.mem_of_mem_erase hq)

/-! ## The range functions -/

/-- A call that is a chain of exact rounds. -/
def Chain (c : MmCall) (a b : MmState) : Prop := Relation.ReflTransGen (fun a b => MmRound c a b ∧ Exact a b) a b

theorem Chain.of_call (hc : c.isRange = false) {a b : MmState} (h : MmStep a c b) (he : Exact a b) : Chain c a b :=
  .single ⟨.call hc h, he⟩

/-- **`unmap_range`** ends well, after exact rounds only. -/
theorem unmapRange_chain (h : Sound s D L) (hd : d ∈ D) :
    (unmapRange d start stop s).Meets (fun _ s' => Sound s' D L ∧ Chain (.unmap d start stop) (s, D) (s', D))
      (fun _ _ => False) (fun p => p = .range) := by
  refine ((checkRange_meets s start stop).imp (fun _ _ h => h) (fun _ _ h => h) fun _ hp => hp.1).bind ?_
  rintro _ s0 ⟨heq, hal, _, _, hlt, htop⟩
  obtain rfl : s = s0 := heq.symm
  -- the invariant of the loop: exact rounds have led here
  have hloop := @rangeLoop_meets stop (unmapRound d)
    (fun la s' => start ≤ la ∧ la % pgsize = 0 ∧ Sound s' D L ∧ Chain (.unmap d start stop) (s, D) (s', D))
    (fun _ _ => False) (fun p => p = .range) ?_ (rangeFuel start stop) start s (Nat.lt_succ_self _) hlt
    ⟨Nat.le_refl _, hal, h, .refl⟩
  · exact hloop.imp (fun _ _ ⟨_, _, _, _, hend⟩ => hend) (fun _ _ h => h) fun _ h => h
  · rintro la s1 hla ⟨hlo, hal, hs1, hchain⟩
    obtain ⟨next, s2, hrun, hnext, hal', hs2, he⟩ := unmapRound_exact hs1 hd (Nat.lt_of_lt_of_le hla htop) hal
    have hround : MmRound (.unmap d start stop) (s1, D) (s2, D) := by
      refine .unmap hlo hla ?_
      rw [hrun]
      rfl
    rw [hrun]
    exact ⟨hnext, by omega, hal', hs2, hchain.tail ⟨hround, he⟩⟩

/-- **`copy_range`** goes through exact rounds; it stops the machine only for want of a page. -/
theorem copyRange_chain {dst src : Nat} (h : Sound s D L) (hd : dst ∈ D) :
    (copyRange dst src start stop s).Meets
      (fun _ s' => Sound s' D L ∧ Chain (.copy dst src start stop) (s, D) (s', D))
      (fun _ s' => Sound s' D L ∧ Chain (.copy dst src start stop) (s, D) (s', D))
      (fun p => p = .range ∨ p = .copyNoPage) := by
  refine ((checkRange_meets s start stop).imp (fun _ _ h => h) (fun _ _ h => h.elim) fun _ hp => .inl hp.1).bind ?_
  rintro _ s0 ⟨heq, hal, _, _, hlt, htop⟩
  obtain rfl : s = s0 := heq.symm
  have hloop := @rangeLoop_meets stop (copyRound dst src)
    (fun la s' => start ≤ la ∧ la % pgsize = 0 ∧ Sound s' D L ∧ Chain (.copy dst src start stop) (s, D) (s', D))
    (fun _ s' => Sound s' D L ∧ Chain (.copy dst src start stop) (s, D) (s', D))
    (fun p => p = .range ∨ p = .copyNoPage) ?_ (rangeFuel start stop) start s (Nat.lt_succ_self _) hlt
    ⟨Nat.le_refl _, hal, h, .refl⟩
  · exact hloop.imp (fun _ _ ⟨_, _, _, _, hend⟩ => hend) (fun _ _ h => h) fun _ h => h
  · rintro la s1 hla ⟨hlo, hal, hs1, hchain⟩
    have hmeets := @copyRound_exact s1 D L dst la src hs1 hd (Nat.lt_of_lt_of_le hla htop) hal
    have hround : ∀ s2, (copyRound dst src la s1).EndsIn s2 → MmRound (.copy dst src start stop) (s1, D) (s2, D) :=
      fun s2 hend => .copy hlo hla hend
    cases hrun : copyRound dst src la s1 with
    | ok next s2 =>
      rw [hrun] at hround
      obtain ⟨hnext, hal', hs2, he⟩ := hmeets.of_ok hrun
      exact ⟨hnext, by omega, hal', hs2, hchain.tail ⟨hround s2 rfl, he⟩⟩
    | err e s2 =>
      rw [hrun] at hround
      obtain ⟨hs2, he⟩ := hmeets.of_err hrun
      exact ⟨hs2, hchain.tail ⟨hround s2 rfl, he⟩⟩
    | panic p => exact .inr (hmeets.of_panic hrun)

/-! ## A new directory -/

theorem setupPgdir_cases (boot : Nat → Pte) (s : PageMem) :
    (setupPgdir boot s = .err (-eNoMem) s.tick) ∨
    ∃ p, p ∈ s.free ∧ setupPgdir boot s = .ok p ((s.take p).setTable p boot) := by
  rcases allocPage_cases s with hal | ⟨p, hp, hal⟩
  · refine .inl ?_
    rw [setupPgdir, Proc.bind_ok hal]
    rfl
  · refine .inr ⟨p, hp, ?_⟩
    rw [setupPgdir, Proc.bind_ok hal]
    rfl

section Setup

variable {boot : Nat → Pte} (hboot : ∀ i < 2, (boot i).v = false)

include hboot

/-- The new directory has no tables. -/
theorem setup_tab_new {t : TSlot} (ht : t.User) :
    ((s.take p).setTable p boot).tab p t = if t = .root then some p else none := by
  have hsub : ∀ i < 2, ((s.take p).setTable p boot).sub p i = none := by
    intro i hi
    have htable : ((s.take p).setTable p boot).table p = boot := Function.update_self ..
    rw [PageMem.sub, htable, hboot i hi]
    rfl
  cases t with
  | root => rfl
  | pd i => exact hsub i ht
  | pt i j =>
    show (((s.take p).setTable p boot).sub p i).bind _ = none
    rw [hsub i ht.1]
    rfl

theorem setup_maps_new (hn : n < userPages) : ((s.take p).setTable p boot).maps p n = none := by
  have htab := @setup_tab_new s p boot hboot _ (ptSlot_user hn)
  rw [if_neg TSlot.noConfusion] at htab
  rw [maps, leaf_of_none htab]
  rfl

omit hboot

variable (h : Sound s D L) (hp : p ∈ s.free)

include h hp

/-- The other directories do not see the new page. -/
theorem setup_tab_old (hd : d ∈ D) {t : TSlot} (ht : t.User) : ((s.take p).setTable p boot).tab d t = s.tab d t := by
  have hsub : ∀ {v : TSlot} {a : Nat}, v.User → s.tab d v = some a → ∀ i,
      ((s.take p).setTable p boot).sub a i = s.sub a i := by
    intro v a hv hva i
    have hne : a ≠ p := new_ne_tab h.toTrees hp hd hv hva
    have htable : ((s.take p).setTable p boot).table a = s.table a := Function.update_of_ne hne _ _
    rw [PageMem.sub, PageMem.sub, htable]
  have hroot : ∀ i, ((s.take p).setTable p boot).sub d i = s.sub d i := hsub (v := .root) trivial rfl
  cases t with
  | root => rfl
  | pd i => exact hroot i
  | pt i j =>
    show (((s.take p).setTable p boot).sub d i).bind _ = (s.sub d i).bind _
    rw [hroot]
    refine Option.bind_congr fun pd0 hpd => ?_
    exact hsub (v := .pd i) ht.1 hpd j

theorem setup_leaf_old (hd : d ∈ D) (hn : n < userPages) : ((s.take p).setTable p boot).leaf d n = s.leaf d n := by
  have htab := @setup_tab_old s D L d p boot h hp hd _ (ptSlot_user hn)
  cases ha : s.tab d (ptSlot n) with
  | none => rw [leaf_of_none (htab.trans ha), leaf_of_none ha]
  | some a =>
    have hne : a ≠ p := new_ne_tab h.toTrees hp hd (ptSlot_user hn) ha
    rw [leaf_of_tab (htab.trans ha), leaf_of_tab ha]
    exact congrFun (Function.update_of_ne hne _ _) (n % 512)

include hboot

theorem setup_count (q : Nat) : ((s.take p).setTable p boot).count (insert p D) q = s.count D q := by
  have hold : ((s.take p).setTable p boot).count D q = s.count D q :=
    count_congr (fun d hd n hn => maps_of_leaf (setup_leaf_old h hp hd hn)) q
  rw [← hold, count, count]
  refine tally_subset (Finset.product_subset_product_left (Finset.subset_insert p D)) fun k hk hnot => ?_
  obtain ⟨hk1, hk2⟩ := mem_places.mp hk
  rcases Finset.mem_insert.mp hk1 with heq | hk1
  · rw [heq, setup_maps_new hboot hk2]
    exact Option.some_ne_none q ∘ Eq.symm
  · exact absurd (mem_places.mpr ⟨hk1, hk2⟩) hnot

theorem setup_isTable (q : Nat) :
    ((s.take p).setTable p boot).IsTable (insert p D) q ↔ q = p ∨ s.IsTable D q := by
  constructor
  · rintro ⟨d, hd, t, ht, htq⟩
    rcases Finset.mem_insert.mp hd with rfl | hd
    · rw [setup_tab_new hboot ht] at htq
      split at htq
      · exact .inl (Option.some.inj htq).symm
      · cases htq
    · rw [setup_tab_old h hp hd ht] at htq
      exact .inr ⟨d, hd, t, ht, htq⟩
  · rintro (rfl | ⟨d, hd, t, ht, htq⟩)
    · exact ⟨q, Finset.mem_insert_self q D, .root, trivial, rfl⟩
    · exact ⟨d, Finset.mem_insert_of_mem hd, t, ht, (setup_tab_old h hp hd ht).trans htq⟩

/-- **The new directory is in order.** -/
theorem setup_sound : Sound ((s.take p).setTable p boot) (insert p D) L := by
  have hmaps : ∀ d ∈ D, ∀ n, n < userPages → ((s.take p).setTable p boot).maps d n = s.maps d n :=
    fun d hd n hn => maps_of_leaf (setup_leaf_old h hp hd hn)
  refine ⟨⟨?_, ?_, ?_⟩, ?_, ?_⟩
  · intro d hd d' hd' t u q ht hu h1 h2
    rcases Finset.mem_insert.mp hd with rfl | hdD
    · rw [setup_tab_new hboot ht] at h1
      split at h1
      · next hroot =>
        obtain rfl := Option.some.inj h1
        rcases Finset.mem_insert.mp hd' with rfl | hd'
        · rw [setup_tab_new hboot hu] at h2
          split at h2
          · next hroot' => exact ⟨rfl, hroot.trans hroot'.symm⟩
          · cases h2
        · rw [setup_tab_old h hp hd' hu] at h2
          exact absurd rfl (new_ne_tab h.toTrees hp hd' hu h2)
      · cases h1
    · rw [setup_tab_old h hp hdD ht] at h1
      rcases Finset.mem_insert.mp hd' with rfl | hd'
      · rw [setup_tab_new hboot hu] at h2
        split at h2
        · obtain rfl := Option.some.inj h2
          exact absurd rfl (new_ne_tab h.toTrees hp hdD ht h1)
        · cases h2
      · rw [setup_tab_old h hp hd' hu] at h2
        exact h.inj d hdD d' hd' t u q ht hu h1 h2
  · intro q hq
    rcases (setup_isTable hboot h hp q).mp hq with rfl | hq
    · exact Finset.notMem_erase q s.free
    · exact fun hmem => h.busy q hq (Finset.mem_of_mem_erase hmem)
  · intro d hd n q hn hnq
    rcases Finset.mem_insert.mp hd with rfl | hdD
    · rw [setup_maps_new hboot hn] at hnq
      cases hnq
    · rw [hmaps d hdD n hn] at hnq
      obtain ⟨hfree, htable⟩ := h.leafBusy d hdD n q hn hnq
      refine ⟨fun hmem => hfree (Finset.mem_of_mem_erase hmem), fun hq => ?_⟩
      rcases (setup_isTable hboot h hp q).mp hq with rfl | hq
      · exact hfree hp
      · exact htable hq
  · intro q hq hl
    have hq' : ¬ s.IsTable D q := fun ht => hq ((setup_isTable hboot h hp q).mpr (.inr ht))
    rw [setup_count hboot h hp]
    exact h.ref q hq' hl
  · intro q hl
    obtain ⟨hfree, hzero⟩ := h.lost q hl
    refine ⟨fun hmem => hfree (Finset.mem_of_mem_erase hmem), ?_⟩
    rw [setup_count hboot h hp]
    exact hzero

end Setup

/-! ## Runs -/

theorem inserted_exact {e : Pte} (h : Sound s D L) (hcount : ∀ p, s1.count D p = s.count D p)
    (hfree : ∀ p, p ∈ s1.free → p ∈ s.free) (hi : Inserted D L d n e s1 s') : Exact (s, D) (s', D) := by
  obtain ⟨s2, hg, hr⟩ := hi
  exact exact_remapped h (fun p => (hg.count p).trans (hcount p)) (fun p hp => hfree p (hg.free hp)) hr

theorem pageInsert_exact (h : Sound s D L) (hd : d ∈ D) (hla : la < userTop) (hfree : page ∉ s.free)
    (htable : ¬ s.IsTable D page) (hlost : ¬ L page) (hend : (pageInsert d page la perm s).EndsIn s') :
    Sound s' D L ∧ Exact (s, D) (s', D) := by
  rcases pageInsert_spec h hd hla hfree htable hlost perm with ⟨s1, hrun, hg, _⟩ | ⟨s1, hrun, hi⟩
  · rw [hrun] at hend
    obtain rfl : s1 = s' := hend
    exact ⟨hg.sound h, exact_of_same hg.count fun _ hp => hg.free hp⟩
  · rw [hrun] at hend
    obtain rfl : s1 = s' := hend
    exact ⟨hi.sound, inserted_exact h (fun _ => rfl) (fun _ hp => hp) hi⟩

theorem pgdirAllocPage_exact (h : Sound s D L) (hd : d ∈ D) (hla : la < userTop)
    (hend : (pgdirAllocPage d la perm s).EndsIn s') : Sound s' D L ∧ Exact (s, D) (s', D) := by
  rcases pgdirAllocPage_spec h hd hla perm with hrun | ⟨p, s1, hp, hg, _, hrun⟩ | ⟨p, s1, hp, hi, hrun⟩
  · rw [hrun] at hend
    obtain rfl : s.tick = s' := hend
    exact ⟨h.tick, exact_of_same (fun _ => rfl) fun _ hp => hp⟩
  · -- there is no page table for it: the page goes back, mapped nowhere
    rw [hrun] at hend
    obtain rfl : s1.give p = s' := hend
    have hnot : ¬ s1.IsTable D p := hg.not_isTable (Finset.notMem_erase p s.free) (h.not_isTable hp)
    have hcount : ∀ q, s1.count D q = s.count D q := hg.count
    have hlost : ¬ L p := h.not_lost (.inl hp)
    refine ⟨(hg.sound (h.take p)).give hnot hlost ((hcount p).trans (h.count_free hp)), exact_of_same hcount fun q hq => ?_⟩
    rcases Finset.mem_insert.mp hq with rfl | hq
    · exact hp
    · exact Finset.mem_of_mem_erase (hg.free hq)
  · rw [hrun] at hend
    obtain rfl : s1 = s' := hend
    have hcount : ∀ q, (s.take p).count D q = s.count D q := fun _ => rfl
    exact ⟨hi.sound, inserted_exact h hcount (fun q hq => Finset.mem_of_mem_erase hq) hi⟩

/-- **The step lemma.** -/
theorem mmStep_chain {a b : MmState} (h : Sound a.1 a.2 fun _ => False) (hs : MmStep a c b) :
    (Sound b.1 b.2 fun _ => False) ∧ Chain c a b := by
  have hs0 := hs
  cases hs with
  | alloc hend =>
    rename_i s s' D
    rcases allocPage_cases s with hal | ⟨p, hp, hal⟩
    · rw [hal] at hend
      obtain rfl : s.tick = s' := hend
      exact ⟨Sound.tick h, .of_call rfl hs0 (exact_of_same (fun _ => rfl) fun _ hp => hp)⟩
    · rw [hal] at hend
      obtain rfl : s.take p = s' := hend
      exact ⟨Sound.take h p, .of_call rfl hs0 (exact_of_same (fun _ => rfl) fun _ hq => Finset.mem_of_mem_erase hq)⟩
  | setup hboot hrun =>
    rename_i s s' D boot d
    rcases setupPgdir_cases boot s with hrun' | ⟨p, hp, hrun'⟩
    · rw [hrun'] at hrun
      cases hrun
    · rw [hrun'] at hrun
      cases hrun
      refine ⟨setup_sound hboot h hp, .of_call rfl hs0 fun q => ?_⟩
      show q ∉ s.free ∧ q ∈ s.free.erase d ↔
        s.count D q = 1 ∧ ((s.take d).setTable d boot).count (insert d D) q = 0
      rw [setup_count hboot h hp]
      constructor
      · exact fun hq => absurd (Finset.mem_of_mem_erase hq.2) hq.1
      · rintro ⟨hone, hzero⟩
        rw [hone] at hzero
        cases hzero
  | noSetup hrun =>
    rename_i s s' D boot e
    rcases setupPgdir_cases boot s with hrun' | ⟨p, hp, hrun'⟩
    · rw [hrun'] at hrun
      cases hrun
      exact ⟨Sound.tick h, .of_call rfl hs0 (exact_of_same (fun _ => rfl) fun _ hp => hp)⟩
    · rw [hrun'] at hrun
      cases hrun
  | insert hd hla hfree htable hend =>
    obtain ⟨hsound, he⟩ := pageInsert_exact h hd hla hfree htable id hend
    exact ⟨hsound, .of_call rfl hs0 he⟩
  | remove hd hla hend =>
    rename_i s s' D d la
    rcases pageRemove_spec h hd hla with ⟨_, hrun⟩ | ⟨s1, hrun, hr⟩
    · rw [hrun] at hend
      obtain rfl : s = s' := hend
      exact ⟨h, .of_call rfl hs0 (exact_of_same (fun _ => rfl) fun _ hp => hp)⟩
    · rw [hrun] at hend
      obtain rfl : s1 = s' := hend
      exact ⟨hr.sound, .of_call rfl hs0 (exact_remapped h (fun _ => rfl) (fun _ hp => hp) hr)⟩
  | allocAt hd hla hend =>
    obtain ⟨hsound, he⟩ := pgdirAllocPage_exact h hd hla hend
    exact ⟨hsound, .of_call rfl hs0 he⟩
  | unmap hd hend =>
    rename_i s s' D d start stop
    have hmeets := @unmapRange_chain s D _ d start stop h hd
    exact (hmeets.imp (fun _ _ h => h) (fun _ _ h => h.elim) fun _ h => h).endsIn hend
  | copy hd hs hend => exact (copyRange_chain h hd).endsIn hend

theorem mmInit_sound {a : MmState} (h : MmInit a) : Sound a.1 a.2 (fun _ => False) := by
  obtain ⟨s, D⟩ := a
  obtain ⟨rfl, href⟩ : D = ∅ ∧ ∀ p, s.ref p = 0 := h
  refine ⟨⟨?_, ?_, ?_⟩, fun p _ _ => ?_, fun _ hl => hl.elim⟩
  · exact fun d hd => absurd hd (Finset.notMem_empty d)
  · rintro p ⟨d, hd, _⟩
    exact absurd hd (Finset.notMem_empty d)
  · exact fun d hd => absurd hd (Finset.notMem_empty d)
  · have hzero : s.count ∅ p = 0 := count_eq_zero.mpr fun d hd => absurd hd (Finset.notMem_empty d)
    rw [href p, hzero]
    rfl

/-- **The run lemma.** -/
theorem reaches_sound {a : MmState} (h : Reaches MmInit MmStep (fun _ _ => True) a) :
    Sound a.1 a.2 (fun _ => False) := by
  refine h.invariant (I := fun a => Sound a.1 a.2 (fun _ => False)) (fun _ h => mmInit_sound h) ?_
  intro a c b ha _ hs
  exact (mmStep_chain ha hs).1

/-- **Reference counts.** In every state reached, the counter of every page but the tables is the number of valid
    page table entries that map it, in all the directories; and every call goes through rounds in which exactly
    the pages whose number drops from 1 to 0 are returned to the allocator. -/
theorem page_ref_exact {a : MmState} (h : Reaches MmInit MmStep (fun _ _ => True) a) :
    (∀ p, ¬ a.1.IsTable a.2 p → a.1.ref p = a.1.count a.2 p) ∧ ∀ c b, MmStep a c b → Chain c a b :=
  ⟨fun p hp => (reaches_sound h).ref p hp id, fun _ _ hs => (mmStep_chain (reaches_sound h) hs).2⟩

/-- Eight free pages, given out in their order. -/
def eightPages : PageMem :=
  { ref := fun _ => 0, table := fun _ _ => .zero, data := fun _ _ => 0, free := Finset.range 8, freed := [],
    pick := some, ticks := 0, nulls := 0 }

/-- A directory is set up, and a page is mapped at `USERBASE`. -/
theorem page_ref_exact_mapped : ∃ s, Reaches MmInit MmStep (fun _ _ => True) (s, insert 0 ∅) ∧
    s.maps 0 512 = some 1 ∧ s.ref 1 = s.count (insert 0 ∅) 1 := by
  have hstart : Reaches MmInit MmStep (fun _ _ => True) (eightPages, ∅) := .start ⟨rfl, fun _ => rfl⟩
  have hsetup : MmStep (eightPages, ∅) (.setup fun _ => .zero)
      ((eightPages.take 0).setTable 0 fun _ => .zero, insert 0 ∅) := .setup (fun _ _ => rfl) rfl
  obtain ⟨s, hrun, hmap⟩ : ∃ s, pgdirAllocPage 0 userBase { Perm.none with u := true, r := true }
      ((eightPages.take 0).setTable 0 fun _ => .zero) = .ok (some 1) s ∧ s.maps 0 512 = some 1 := ⟨_, rfl, rfl⟩
  have hend : (pgdirAllocPage 0 userBase { Perm.none with u := true, r := true }
      ((eightPages.take 0).setTable 0 fun _ => .zero)).EndsIn s := by
    rw [hrun]
    rfl
  have hreach := (hstart.next trivial hsetup).next trivial
    (.allocAt (Finset.mem_insert_self 0 ∅) (by decide) hend)
  have hnot := ((reaches_sound hreach).leafBusy 0 (Finset.mem_insert_self 0 ∅) 512 1 (by decide) hmap).2
  exact ⟨s, hreach, hmap, (page_ref_exact hreach).1 1 hnot⟩

end Ucore
