import Mathlib.Dynamics.PeriodicPts.Defs
import Ucore.Mm.Correctness.SlobHeap

/-!
# `Mm.Correctness.SlobAlloc` — the search of `slob_alloc`

The search goes around the ring once. It takes units from the first block that has enough, and else a page is put on the
list, and the search begins anew; then a block with enough units is there. The list must keep another block than the one
the units come from (`Spare`): `slobfree` is left on the block in front of it.
-/

namespace Ucore.Slob

open Blocks

variable {s s' : SlobMem} {F P : Finset Nat} {E : List (Nat × Nat)} {a b c n p x y size : Nat}

/-! ## Taking units from a block -/

/-- Where the block has more units, the rest of it gets a header of its own. -/
theorem slobTake_eq (hne : c ≠ p) (hn : s.units c ≠ n) : slobTake s p c n =
    { s with
      lo := Function.update (Function.update s.lo (c + 16 * n) (s.units c - n)) c n
      hi := Function.update (Function.update s.hi p (c + 16 * n)) (c + 16 * n) (s.next c)
      slobfree := p } := by
  have hself : ∀ v : Nat, (s.setNext p v).next p = v := by
    intro v
    rw [next_setNext, Function.update_self]
  have hother : ∀ v : Nat, (s.setNext p v).next c = s.next c := by
    intro v
    rw [next_setNext, Function.update_of_ne hne]
  have hkeep : ∀ (s : SlobMem) (b v : Nat), (s.setUnits b v).next = s.next := fun _ _ _ => rfl
  rw [slobTake, if_neg hn]
  simp only [hkeep, hself, hother]
  rfl

theorem slobTake_len (hne : c ≠ p) (hn : s.units c ≠ n) : (slobTake s p c n).len =
    Function.update (Function.update s.len (c + 16 * n) (s.len c - 16 * n)) c (16 * n) := by
  rw [slobTake_eq hne hn]
  show ((s.setUnits (c + 16 * n) (s.units c - n)).setUnits c n).len = _
  rw [len_setUnits, len_setUnits, Nat.mul_sub]
  rfl

theorem slobTake_next (hne : c ≠ p) (hn : s.units c ≠ n) : (slobTake s p c n).next =
    Function.update (Function.update s.next p (c + 16 * n)) (c + 16 * n) (s.next c) := by
  rw [slobTake_eq hne hn]
  rfl

/-- Nothing is written outside of the free blocks. -/
theorem slobTake_same (hne : c ≠ p) (hp : Covered F s.len p) (hc : Covered F s.len c)
    (hcn : s.units c ≠ n → Covered F s.len (c + 16 * n)) (ha : ¬ Covered F s.len a) :
    (slobTake s p c n).lo a = s.lo a ∧ (slobTake s p c n).hi a = s.hi a := by
  have hap : a ≠ p := fun he => ha (he ▸ hp)
  have hac : a ≠ c := fun he => ha (he ▸ hc)
  by_cases hn : s.units c = n
  · rw [slobTake, if_pos hn]
    exact ⟨rfl, Function.update_of_ne hap _ s.hi⟩
  · have hacn : a ≠ c + 16 * n := fun he => ha (he ▸ hcn hn)
    rw [slobTake_eq hne hn]
    constructor
    · show Function.update (Function.update s.lo (c + 16 * n) _) c n a = s.lo a
      rw [Function.update_of_ne hac, Function.update_of_ne hacn]
    · show Function.update (Function.update s.hi p _) (c + 16 * n) _ a = s.hi a
      rw [Function.update_of_ne hacn, Function.update_of_ne hap]

theorem slobTake_rest (s : SlobMem) (p c n : Nat) : (slobTake s p c n).arena = s.arena ∧
    (slobTake s p c n).bigblocks = s.bigblocks ∧ (slobTake s p c n).taken = s.taken ∧ (slobTake s p c n).slobfree = p ∧
    (slobTake s p c n).pick = s.pick ∧ (slobTake s p c n).ticks = s.ticks := by
  rw [slobTake]
  split
  · exact ⟨rfl, rfl, rfl, rfl, rfl, rfl⟩
  · exact ⟨rfl, rfl, rfl, rfl, rfl, rfl⟩

theorem slobTake_units (hne : c ≠ p) (n : Nat) : (slobTake s p c n).units c = n := by
  by_cases hn : s.units c = n
  · rw [slobTake, if_pos hn]
    exact hn
  · rw [slobTake_eq hne hn]
    show Function.update (Function.update s.lo (c + 16 * n) (s.units c - n)) c n c = n
    rw [Function.update_self]

/-- When the rest of the free blocks is `F'`, and `n` units from `c` on are not in it any more. -/
theorem Heap.took (h : Heap s F P E) {F' : Finset Nat} (hpos : 0 < n) (hp : p ∈ F')
    (hblocks : Blocks F' (slobTake s p c n).len (slobTake s p c n).next) (hnt : NoTouch F' (slobTake s p c n).len)
    (hcov : ∀ a, Covered F s.len a ↔ Covered F' (slobTake s p c n).len a ∨ InExt (c, n) a)
    (hdis : ∀ a, Covered F' (slobTake s p c n).len a → ¬ InExt (c, n) a)
    (htot : total F s.len = total F' (slobTake s p c n).len + 16 * n) : Heap (slobTake s p c n) F' P ((c, n) :: E) := by
  obtain ⟨harena, -, htaken, hfirst, -⟩ := slobTake_rest s p c n
  have hown : ∀ a, Owned (slobTake s p c n) P a ↔ Owned s P a := by
    intro a
    rw [Owned, Owned, harena]
  refine ⟨?_, ?_, hblocks, hnt, ?_, ?_, ?_, ?_, ?_, ?_, ?_⟩
  · rw [harena]
    exact h.arena
  · rw [hfirst]
    exact hp
  · intro e he
    rcases List.mem_cons.mp he with rfl | he
    · exact hpos
    · exact h.live e he
  · intro e he a ha hcova
    rcases List.mem_cons.mp he with rfl | he
    · exact hdis a hcova ha
    · exact h.apart e he a ha ((hcov a).mpr (.inl hcova))
  · refine List.pairwise_cons.mpr ⟨fun e he a ha hea => ?_, h.distinct⟩
    exact h.apart e he a hea ((hcov a).mpr (.inr ha))
  · intro a ha
    refine (hown a).mpr (h.own a ?_)
    rcases ha with ha | ⟨e, he, ha⟩
    · exact .inl ((hcov a).mpr (.inl ha))
    · rcases List.mem_cons.mp he with rfl | he
      · exact .inl ((hcov a).mpr (.inr ha))
      · exact .inr ⟨e, he, ha⟩
  · have hacc := h.account
    rw [List.map_cons, List.sum_cons]
    show _ + 16 * (n + _) = _
    omega
  · rw [harena]
    exact h.page
  · rw [htaken]
    exact h.taken

/-- Exact fit: the block is unlinked. -/
theorem Heap.take_all (h : Heap s F P E) (hp : p ∈ F) (hpc : s.next p = c) (hne : c ≠ p) (hn : s.units c = n) :
    Heap (slobTake s p c n) (F.erase c) P ((c, n) :: E) ∧ (∀ x, F.erase c = {x} → c + 16 * n ≠ x) ∧
      ∀ a, Covered F s.len a ↔ Covered (F.erase c) (slobTake s p c n).len a ∨ InExt (c, n) a := by
  have hc : c ∈ F := hpc ▸ h.blocks.next_mem hp
  have hlenc : s.len c = 16 * n := congrArg (16 * ·) hn
  have hpos := h.blocks.pos c hc
  have hnext : (slobTake s p c n).next = Function.update s.next p (s.next c) := by
    rw [slobTake, if_pos hn]
    rfl
  have hlen : (slobTake s p c n).len = s.len := by
    rw [slobTake, if_pos hn]
    rfl
  have hin : ∀ a, InExt (c, n) a ↔ c ≤ a ∧ a < c + s.len c := by
    intro a
    rw [hlenc]
    rfl
  have hout := h.blocks.unlink hp (by rw [hpc]; exact hne)
  rw [hpc] at hout
  have hcov : ∀ a, Covered F s.len a ↔ Covered (F.erase c) (slobTake s p c n).len a ∨ InExt (c, n) a := by
    intro a
    rw [hlen, hin]
    exact covered_erase hc
  refine ⟨h.took (by omega) (Finset.mem_erase.mpr ⟨hne.symm, hp⟩) ?_ ?_ hcov ?_ ?_, ?_, hcov⟩
  · rw [hlen, hnext]
    exact hout
  · rw [hlen]
    rintro x y ⟨hx, hy, hxy⟩
    exact h.noTouch x y ⟨Finset.mem_of_mem_erase hx, Finset.mem_of_mem_erase hy, hxy⟩
  · rw [hlen]
    exact fun a ha hca => h.blocks.one_block hc ((hin a).mp hca) ha
  · rw [hlen, ← hlenc]
    exact total_erase hc
  · -- the block touched no other one
    intro x hx hcx
    have hxF : x ∈ F := by
      have hmem : x ∈ F.erase c := hx ▸ Finset.mem_singleton_self x
      exact Finset.mem_of_mem_erase hmem
    exact h.noTouch c x ⟨hc, hxF, by rw [hlenc]; exact hcx⟩

/-- Fragment: the upper end of the block is a free block. -/
theorem Heap.take_part (h : Heap s F P E) (hp : p ∈ F) (hpc : s.next p = c) (hne : c ≠ p) (hpos : 0 < n) (hn : n < s.units c) :
    Heap (slobTake s p c n) (insert (c + 16 * n) (F.erase c)) P ((c, n) :: E) ∧
      (∀ x, insert (c + 16 * n) (F.erase c) = {x} → c + 16 * n ≠ x) ∧
      ∀ a, Covered F s.len a ↔ Covered (insert (c + 16 * n) (F.erase c)) (slobTake s p c n).len a ∨ InExt (c, n) a := by
  have hc : c ∈ F := hpc ▸ h.blocks.next_mem hp
  have hlenc : s.len c = 16 * s.units c := rfl
  have hlt : 16 * n < s.len c := by omega
  have hb : c + 16 * n ∉ F := by
    intro hmem
    have hle := h.blocks.packed c hc _ hmem (by omega)
    omega
  have hpb : p ≠ c + 16 * n := fun he => hb (he ▸ hp)
  obtain ⟨hblocks, hnt⟩ := h.blocks.cut h.noTouch hp hpc hne (by omega) hlt
  have hkeep : ∀ x ∈ insert (c + 16 * n) (F.erase c), (slobTake s p c n).len x =
      Function.update s.len (c + 16 * n) (s.len c - 16 * n) x := by
    intro x hx
    rw [slobTake_len hne hn.ne']
    refine Function.update_of_ne ?_ _ _
    rintro rfl
    rcases Finset.mem_insert.mp hx with he | hx
    · omega
    · exact (Finset.mem_erase.mp hx).1 rfl
  have hcov : ∀ a, Covered F s.len a ↔
      Covered (insert (c + 16 * n) (F.erase c)) (slobTake s p c n).len a ∨ InExt (c, n) a := by
    intro a
    rw [Covered.congr hkeep]
    exact covered_cut hc hb (by omega) hlt
  have hp' : p ∈ insert (c + 16 * n) (F.erase c) := Finset.mem_insert_of_mem (Finset.mem_erase.mpr ⟨hne.symm, hp⟩)
  refine ⟨h.took hpos hp' ?_ (hnt.congr hkeep) hcov ?_ ?_, ?_, hcov⟩
  · refine hblocks.congr hkeep fun x hx => ?_
    rw [slobTake_next hne hn.ne', Function.update_comm hpb]
  · rintro a hcova ⟨hca, hac⟩
    have hca' : c ≤ a := hca
    have hac' : a < c + 16 * n := hac
    rw [Covered.congr hkeep, covered_insert fun hmem => hb (Finset.mem_of_mem_erase hmem)] at hcova
    rcases hcova with hold | ⟨hba, -⟩
    · exact h.blocks.one_block hc ⟨hca', by omega⟩ hold
    · omega
  · rw [total_congr hkeep]
    exact total_cut hc hb hlt
  · -- the block in front is still there
    intro x hx hcx
    have hmem : p ∈ ({x} : Finset Nat) := hx ▸ hp'
    exact hpb ((Finset.mem_singleton.mp hmem).trans hcx.symm)

/-- **A part of a free block becomes live.** What is left on the list does not end the new block, or is not alone. -/
theorem Heap.take (h : Heap s F P E) (hp : p ∈ F) (hpc : s.next p = c) (hne : c ≠ p) (hpos : 0 < n) (hn : n ≤ s.units c) :
    ∃ F', Heap (slobTake s p c n) F' P ((c, n) :: E) ∧ (∀ x, F' = {x} → c + 16 * n ≠ x) ∧
      (slobTake s p c n).units c = n ∧ F'.card ≤ F.card ∧
      ∀ a, Covered F s.len a ↔ Covered F' (slobTake s p c n).len a ∨ InExt (c, n) a := by
  have hunits : (slobTake s p c n).units c = n := slobTake_units hne n
  rcases Nat.eq_or_lt_of_le hn with hexact | hlt
  · obtain ⟨hheap, hlone, hcov⟩ := h.take_all hp hpc hne hexact.symm
    exact ⟨F.erase c, hheap, hlone, hunits, Finset.card_erase_le, hcov⟩
  · obtain ⟨hheap, hlone, hcov⟩ := h.take_part hp hpc hne hpos hlt
    refine ⟨insert (c + 16 * n) (F.erase c), hheap, hlone, hunits, ?_, hcov⟩
    have hc : c ∈ F := hpc ▸ h.blocks.next_mem hp
    have hcard := Finset.card_insert_le (c + 16 * n) (F.erase c)
    have herase := Finset.card_erase_of_mem hc
    have hposF := Finset.card_pos.mpr ⟨c, hc⟩
    omega

/-! ## The search -/

/-- `slob_alloc` behind a search that found nothing. -/
def slobGrow (size n fuel : Nat) : SlobM Nat :=
  if size = pageSize then pure 0
  else do
    let page ← slobGetFreePages 0
    if page = 0 then pure 0
    else do
      slobFree fuel page pageSize
      let s ← Proc.get
      slobScan size n fuel s.slobfree (s.next s.slobfree)

/-- What is left of one turn around the ring -/
def turn (F : Finset Nat) (f c : Nat) : Nat := if c = f then 0 else gap F f c + 1

theorem turn_le (F : Finset Nat) (f c : Nat) : turn F f c ≤ F.card + 1 := by
  have hgap := gap_le F f c
  rw [turn]
  split
  · omega
  · omega

theorem turn_lt (h : Blocks F s.len s.next) {f : Nat} (hf : f ∈ F) (hc : c ∈ F) (hne : c ≠ f) :
    turn F f (s.next c) < turn F f c := by
  rw [turn, turn, if_neg hne]
  split
  · exact Nat.succ_pos _
  · next hnf => exact Nat.succ_lt_succ (h.gap_lt hc hnf (h.not_stop hf hc))

/-- After a turn all blocks have been looked at. -/
theorem all_seen (h : Blocks F s.len s.next) {f k : Nat} (hf : f ∈ F) (hback : s.next^[k + 1] f = f)
    (hsmall : ∀ j, 1 ≤ j → j ≤ k + 1 → s.units (s.next^[j] f) < n) : ∀ x ∈ F, s.units x < n := by
  intro x hx
  obtain ⟨i, rfl⟩ := h.reach hx hf
  have hper : Function.IsPeriodicPt s.next (k + 1) f := hback
  rw [← hper.iterate_mod_apply i]
  have hlt : i % (k + 1) < k + 1 := Nat.mod_lt _ (Nat.succ_pos k)
  by_cases hz : i % (k + 1) = 0
  · rw [hz, ← hback]
    have hsame := hsmall (k + 1) (by omega) (Nat.le_refl _)
    rw [Function.iterate_zero_apply]
    exact hsame
  · exact hsmall _ (by omega) (by omega)

/-- **The search**, after `k` blocks that are too small. It is not over, or it finds a block, or there is none. -/
theorem slobScan_cases (h : Heap s F P E) (size : Nat) (fuel k : Nat)
    (hsmall : ∀ j, 1 ≤ j → j ≤ k → s.units (s.next^[j] s.slobfree) < n) :
    slobScan size n fuel (s.next^[k] s.slobfree) (s.next^[k + 1] s.slobfree) s = .panic .noEnd ∧
        fuel ≤ turn F s.slobfree (s.next^[k + 1] s.slobfree) ∨
      (∃ p ∈ F, n ≤ s.units (s.next p) ∧
        slobScan size n fuel (s.next^[k] s.slobfree) (s.next^[k + 1] s.slobfree) s = .ok (s.next p) (slobTake s p (s.next p) n)) ∨
      ((∀ x ∈ F, s.units x < n) ∧ ∃ left, fuel ≤ left + 1 + turn F s.slobfree (s.next^[k + 1] s.slobfree) ∧
        slobScan size n fuel (s.next^[k] s.slobfree) (s.next^[k + 1] s.slobfree) s = slobGrow size n left s) := by
  induction fuel generalizing k with
  | zero => exact .inl ⟨rfl, Nat.zero_le _⟩
  | succ fuel ih =>
    have hc := h.blocks.iterate_mem h.first (k + 1)
    have hstep : s.next^[k + 1] s.slobfree = s.next (s.next^[k] s.slobfree) := Function.iterate_succ_apply' ..
    rw [slobScan, Proc.get_bind]
    by_cases hfit : s.units (s.next^[k + 1] s.slobfree) ≥ n
    · rw [if_pos hfit]
      refine .inr (.inl ⟨s.next^[k] s.slobfree, h.blocks.iterate_mem h.first k, ?_, ?_⟩)
      · rw [← hstep]
        exact hfit
      · rw [← hstep]
        rfl
    · have hsmall' : ∀ j, 1 ≤ j → j ≤ k + 1 → s.units (s.next^[j] s.slobfree) < n := by
        intro j h1 hj
        rcases Nat.lt_or_ge j (k + 1) with hlt | hge
        · exact hsmall j h1 (by omega)
        · obtain rfl : j = k + 1 := by omega
          omega
      rw [if_neg hfit]
      by_cases hback : s.next^[k + 1] s.slobfree = s.slobfree
      · rw [if_pos hback]
        exact .inr (.inr ⟨all_seen h.blocks h.first hback hsmall', fuel, by omega, rfl⟩)
      · rw [if_neg hback]
        have hlt := turn_lt h.blocks h.first hc hback
        have hiter : s.next (s.next^[k + 1] s.slobfree) = s.next^[k + 1 + 1] s.slobfree :=
          (Function.iterate_succ_apply' s.next (k + 1) s.slobfree).symm
        rw [hiter] at hlt ⊢
        rcases ih (k + 1) hsmall' with ⟨hrun, hle⟩ | hfound | ⟨hall, left, hle, hrun⟩
        · exact .inl ⟨hrun, by omega⟩
        · exact .inr (.inl hfound)
        · exact .inr (.inr ⟨hall, left, by omega, hrun⟩)

/-! ## A new page -/

theorem slobGetFreePages_cases (s : SlobMem) (order : Nat) :
    s.grant order = none ∧ slobGetFreePages order s = .ok 0 { s with ticks := s.ticks + 1 } ∨
      ∃ page, s.grant order = some page ∧ s.MayGive page order ∧ slobGetFreePages order s =
        .ok page { s with ticks := s.ticks + 1, taken := s.taken ∪ orderPages page order } := by
  rw [slobGetFreePages, Proc.get_bind]
  cases hgrant : s.grant order with
  | none => exact .inl ⟨rfl, rfl⟩
  | some page =>
    refine .inr ⟨page, rfl, ?_, rfl⟩
    rw [SlobMem.grant] at hgrant
    split at hgrant
    · split at hgrant
      · next hgive =>
        cases hgrant
        exact hgive
      · cases hgrant
    · cases hgrant

theorem orderPages_zero (page : Nat) : orderPages page 0 = {page} := by
  simp [orderPages]

/-- The new page is a live block at first. -/
theorem Heap.addPage (h : Heap s F P E) (hgive : s.MayGive p 0) :
    Heap { s with ticks := s.ticks + 1, taken := s.taken ∪ orderPages p 0 } F (insert p P) ((p, 256) :: E) := by
  obtain ⟨hal, habove, hfresh⟩ := hgive
  replace hal : p % 4096 = 0 := hal
  replace habove : s.arena + 16 < p := habove
  rw [orderPages_zero] at hfresh ⊢
  have hpP : p ∉ P := fun hp => Finset.disjoint_singleton_left.mp hfresh (h.taken hp)
  have hin : ∀ a, InExt (p, 256) a → a / 4096 * 4096 = p := by
    rintro a ⟨h1, h2⟩
    replace h1 : p ≤ a := h1
    replace h2 : a < p + 16 * 256 := h2
    omega
  -- nothing in the page was owned before
  have hnew : ∀ a, InExt (p, 256) a → ¬ Owned s P a := by
    rintro a ha (⟨-, hlt⟩ | hmem)
    · have h1 : p ≤ a := ha.1
      omega
    · rw [hin a ha] at hmem
      exact hpP hmem
  refine ⟨h.arena, h.first, h.blocks, h.noTouch, ?_, ?_, ?_, ?_, ?_, ?_, ?_⟩
  · intro e he
    rcases List.mem_cons.mp he with rfl | he
    · exact Nat.succ_pos 255
    · exact h.live e he
  · intro e he a ha hcov
    rcases List.mem_cons.mp he with rfl | he
    · exact hnew a ha (h.own a (.inl hcov))
    · exact h.apart e he a ha hcov
  · exact List.pairwise_cons.mpr ⟨fun e he a ha hea => hnew a ha (h.own a (.inr ⟨e, he, hea⟩)), h.distinct⟩
  · intro a ha
    have hold : Owned s P a → Owned s (insert p P) a := fun ho => ho.imp_right Finset.mem_insert_of_mem
    rcases ha with ha | ⟨e, he, ha⟩
    · exact hold (h.own a (.inl ha))
    · rcases List.mem_cons.mp he with rfl | he
      · exact .inr (by rw [hin a ha]; exact Finset.mem_insert_self _ _)
      · exact hold (h.own a (.inr ⟨e, he, ha⟩))
  · have hacc := h.account
    rw [Finset.card_insert_of_notMem hpP, List.map_cons, List.sum_cons]
    show total F s.len + 16 * (256 + _) = _
    omega
  · intro q hq
    rcases Finset.mem_insert.mp hq with rfl | hq
    · exact ⟨hal, habove⟩
    · exact h.page q hq
  · intro q hq
    rcases Finset.mem_insert.mp hq with rfl | hq
    · exact Finset.mem_union_right _ (Finset.mem_singleton_self q)
    · exact Finset.mem_union_left _ (h.taken hq)

/-! ## The free list has another block -/

/-- The block is on the list that begins at `slobfree`. -/
def SlobMem.OnList (s : SlobMem) (x : Nat) : Prop := ∃ k, s.next^[k] s.slobfree = x

theorem Heap.onList_iff (h : Heap s F P E) : s.OnList x ↔ x ∈ F := by
  constructor
  · rintro ⟨k, rfl⟩
    exact h.blocks.iterate_mem h.first k
  · intro hx
    exact h.blocks.reach hx h.first

/-- Where `n` units come from a block on the list, it is not the only one there; where they come from a new page, the page
does not become one with all that is on the list. -/
structure Spare (s : SlobMem) (n : Nat) : Prop where
  found : (∃ x, s.OnList x ∧ n ≤ s.units x) → s.next s.slobfree ≠ s.slobfree
  page : (∀ x, s.OnList x → s.units x < n) → ∀ p, s.grant 0 = some p → ∃ x, s.OnList x ∧ x + 16 * s.units x ≠ p ∧ p + 4096 ≠ x

/-- A block that is not joined with the new page is still another one. -/
theorem Heap.spare_page {s2 : SlobMem} {F2 P2 : Finset Nat} {E2 : List (Nat × Nat)} (h : Heap s F P E) (h2 : Heap s2 F2 P2 E2)
    (hcov : ∀ a, Covered F2 s2.len a → Covered F s.len a ∨ p ≤ a ∧ a < p + 4096)
    (hcov' : ∀ a, Covered F s.len a ∨ p ≤ a ∧ a < p + 4096 → Covered F2 s2.len a)
    (hapart : ∀ z ∈ F, z + s.len z ≤ p ∨ p + 4096 ≤ z)
    (hx : x ∈ F) (hlow : x + s.len x ≠ p) (hhigh : p + 4096 ≠ x) :
    (∃ y ∈ F2, 256 ≤ s2.units y) ∧ s2.next s2.slobfree ≠ s2.slobfree := by
  obtain ⟨y, hy, hyp⟩ := hcov' p (.inr ⟨Nat.le_refl p, by omega⟩)
  have hstretch := same_stretch (n := 4096) h2.blocks h2.noTouch (fun i hi => hcov' (p + i) (.inr ⟨by omega, by omega⟩)) hy hyp
  have hunits : s2.len y = 16 * s2.units y := rfl
  refine ⟨⟨y, hy, by omega⟩, fun hlone => ?_⟩
  have hF2 := lone_of_next h2.blocks h2.first hlone
  rw [hF2, Finset.mem_singleton] at hy
  obtain ⟨z, hz, hzx⟩ := hcov' x (.inl ⟨x, hx, Nat.le_refl x, Nat.lt_add_of_pos_right (h.blocks.pos x hx)⟩)
  rw [hF2, Finset.mem_singleton] at hz
  have hzy : z = y := hz.trans hy.symm
  subst hzy
  have hmem : z ∈ F2 := by
    rw [hF2, hz]
    exact Finset.mem_singleton_self _
  -- both are in one block of the new list, so there is a free block between them that touches `x`
  have hposx := h.blocks.pos x hx
  rcases hapart x hx with hle | hle
  · obtain ⟨w, hw, hwa⟩ := (hcov (x + s.len x) ⟨z, hmem, by omega⟩).resolve_right (by omega)
    have hsame := same_block (a := x + s.len x - 1) h.blocks h.noTouch hx ⟨by omega, by omega⟩ hw ⟨by omega, by omega⟩
    rw [← hsame] at hwa
    omega
  · obtain ⟨w, hw, hwa⟩ := (hcov (x - 1) ⟨z, hmem, by omega⟩).resolve_right (by omega)
    have hsame := same_block (a := x - 1) h.blocks h.noTouch hw hwa hx ⟨by omega, by omega⟩
    rw [hsame] at hwa
    omega

/-! ## `slob_alloc` -/

/-- What a call does to the memory behind the heap: it may take more pages, and live blocks stay as they are. -/
structure Grown (s s' : SlobMem) (P P' : Finset Nat) (E : List (Nat × Nat)) : Prop where
  arena : s'.arena = s.arena
  bigblocks : s'.bigblocks = s.bigblocks
  pages : P ⊆ P'
  taken : s'.taken = s.taken ∪ P'
  fresh : ∀ p ∈ P', p ∈ P ∨ p ∉ s.taken
  lo : ∀ e ∈ E, ∀ a, InExt e a → s'.lo a = s.lo a
  hi : ∀ e ∈ E, ∀ a, InExt e a → s'.hi a = s.hi a

/-- The block that a search found is handed out. -/
theorem Heap.handOut (h : Heap s F P E) (hp : p ∈ F) (hmany : s.next s.slobfree ≠ s.slobfree) (hpos : 0 < n)
    (hn : n ≤ s.units (s.next p)) : ∃ F', Heap (slobTake s p (s.next p) n) F' P ((s.next p, n) :: E) ∧
      (∀ x, F' = {x} → s.next p + 16 * n ≠ x) ∧ (slobTake s p (s.next p) n).units (s.next p) = n ∧ F'.card ≤ F.card ∧
      (∀ a, Covered F s.len a → Covered F' (slobTake s p (s.next p) n).len a ∨ InExt (s.next p, n) a) ∧
      Grown s (slobTake s p (s.next p) n) P P E := by
  have hne : s.next p ≠ p := by
    intro he
    have hF := lone_of_next h.blocks hp he
    have hfirst := h.first
    rw [hF, Finset.mem_singleton] at hfirst
    rw [hfirst] at hmany
    exact hmany he
  have hc := h.blocks.next_mem hp
  obtain ⟨F', h', hlone, hu, hcard, hcov⟩ := h.take hp rfl hne hpos hn
  obtain ⟨harena, hbig, htaken, -⟩ := slobTake_rest s p (s.next p) n
  have hin : s.units (s.next p) ≠ n → Covered F s.len (s.next p + 16 * n) := by
    intro hne'
    refine ⟨s.next p, hc, Nat.le_add_right _ _, ?_⟩
    have hlen : s.len (s.next p) = 16 * s.units (s.next p) := rfl
    omega
  have hkeep : ∀ e ∈ E, ∀ a, InExt e a → _ := fun e he a ha =>
    slobTake_same hne (h.covered_start hp) (h.covered_start hc) hin (h.apart e he a ha)
  refine ⟨F', h', hlone, hu, hcard, fun a => (hcov a).mp, harena, hbig, Finset.Subset.refl P, ?_, fun p hp => .inl hp, ?_, ?_⟩
  · rw [htaken, Finset.union_eq_left.mpr h.taken]
  · exact fun e he a ha => (hkeep e he a ha).1
  · exact fun e he a ha => (hkeep e he a ha).2

/-- What a search for `n` units asked the page allocator for -/
inductive Asked (s s' : SlobMem) (n : Nat) : Prop where
  | nothing (hfound : ∃ x, s.OnList x ∧ n ≤ s.units x) (hpick : s'.pick = s.pick) (hticks : s'.ticks = s.ticks)
      (htaken : s'.taken = s.taken)
  | page (hsmall : ∀ x, s.OnList x → s.units x < n) (p : Nat) (hgrant : s.grant 0 = some p) (hpick : s'.pick = s.pick)
      (hticks : s'.ticks = s.ticks + 1) (htaken : s'.taken = s.taken ∪ orderPages p 0)

/-- What `slob_alloc` of `n` units leads to: the block `m`, or `NULL` and no change but for the request that was refused. -/
inductive Served (s : SlobMem) (F P : Finset Nat) (E : List (Nat × Nat)) (n m : Nat) (s' : SlobMem) : Prop where
  | none (hm : m = 0) (hsmall : ∀ x ∈ F, s.units x < n) (hgrant : s.grant 0 = none) (hs : s' = { s with ticks := s.ticks + 1 })
  | some (F' P' : Finset Nat) (hheap : Heap s' F' P' ((m, n) :: E)) (hunits : s'.units m = n)
      (hlone : ∀ x, F' = {x} → m + 16 * n ≠ x) (hcard : F'.card ≤ F.card + 1)
      (hcov : ∀ a, Covered F s.len a → Covered F' s'.len a ∨ InExt (m, n) a) (hgrown : Grown s s' P P' E) (hasked : Asked s s' n)

/-- Where a page was put on the list, the second search finds a block. -/
theorem slobGrow_meets (h : Heap s F P E) (hsize : size ≠ pageSize) (hpos : 0 < n) (hn : n ≤ 256)
    (hsmall : ∀ x ∈ F, s.units x < n)
    (hspare : ∀ p, s.grant 0 = some p → ∃ x, s.OnList x ∧ x + 16 * s.units x ≠ p ∧ p + 4096 ≠ x) (fuel : Nat) :
    (slobGrow size n fuel s).Meets (fun m s' => Served s F P E n m s') (fun _ _ => False)
      fun p => p = .noEnd ∧ fuel ≤ F.card + 2 := by
  rw [slobGrow, if_neg hsize]
  rcases slobGetFreePages_cases s 0 with ⟨hgrant, hrun⟩ | ⟨page, hgrant, hgive, hrun⟩
  · rw [Proc.bind_ok hrun, if_pos rfl]
    exact .none rfl hsmall hgrant rfl
  · have hpage : page ≠ 0 := Nat.ne_zero_of_lt hgive.2.1
    have h1 := h.addPage hgive
    obtain ⟨x, hx, hlow, hhigh⟩ := hspare page hgrant
    rw [h.onList_iff] at hx
    have hlone1 : ∀ y, F = {y} → page + 16 * 256 ≠ y := by
      intro y hy
      rw [hy, Finset.mem_singleton] at hx
      rw [← hx]
      exact hhigh
    have hmark : pageSize ≠ 0 := by decide
    have hfree := slobFree_meets h1 List.mem_cons_self (fun he => absurd he hmark) (fun _ => rfl) hlone1 fuel
    rw [Proc.bind_ok hrun, if_neg hpage]
    refine Outcome.Meets.bind (hfree.imp (fun _ _ hq => hq) (fun _ _ he => he) fun q hq => ⟨hq.1, by omega⟩) ?_
    rintro - s2 ⟨hsame, F2, h2, hsub, hcov⟩
    rw [List.erase_cons_head] at h2
    have hcard : F2.card ≤ F.card + 1 := (Finset.card_le_card hsub).trans (Finset.card_insert_le _ _)
    obtain ⟨⟨y, hy, hyn⟩, hmany⟩ := h.spare_page h2 (fun a => (hcov a).mp) (fun a => (hcov a).mpr)
      (fun z hz => h1.apart_free List.mem_cons_self hz) hx hlow hhigh
    rw [Proc.get_bind]
    rcases slobScan_cases (n := n) h2 size fuel 0 (fun j hj hj' => absurd hj (by omega)) with
      ⟨hrun2, hle⟩ | ⟨p, hp, hfit, hrun2⟩ | ⟨hall, -⟩
    · have hturn := turn_le F2 s2.slobfree (s2.next^[0 + 1] s2.slobfree)
      rw [show slobScan size n fuel s2.slobfree (s2.next s2.slobfree) s2 = _ from hrun2]
      exact ⟨rfl, by omega⟩
    · rw [show slobScan size n fuel s2.slobfree (s2.next s2.slobfree) s2 = _ from hrun2]
      obtain ⟨F', h', hlone, hu, hcard', hcov', hgrown⟩ := h2.handOut hp hmany hpos hfit
      obtain ⟨-, -, htaken, -, hpick, hticks⟩ := slobTake_rest s2 p (s2.next p) n
      refine .some F' _ h' hu hlone (hcard'.trans hcard) (fun a ha => hcov' a ((hcov a).mpr (.inl ha))) ?_
        (.page (fun z hz => hsmall z (h.onList_iff.mp hz)) page hgrant (hpick.trans hsame.pick) (hticks.trans hsame.ticks)
          (htaken.trans hsame.taken))
      -- the live blocks are apart from the page, and from the free blocks
      have hout : ∀ e ∈ E, ∀ a, InExt e a → a ≠ page ∧ a ∉ F := by
        intro e he a ha
        constructor
        · rintro rfl
          exact List.rel_of_pairwise_cons h1.distinct he a (h1.inExt_start List.mem_cons_self) ha
        · exact fun haF => h.apart e he a ha (h.covered_start haF)
      refine ⟨hgrown.arena.trans hsame.arena, hgrown.bigblocks.trans hsame.bigblocks, Finset.subset_insert _ _, ?_, ?_, ?_, ?_⟩
      · rw [hgrown.taken, hsame.taken, orderPages_zero, Finset.union_assoc, ← Finset.insert_eq, Finset.insert_idem]
      · intro q hq
        rcases Finset.mem_insert.mp hq with rfl | hq
        · have hfresh := hgive.2.2
          rw [orderPages_zero, Finset.disjoint_singleton_left] at hfresh
          exact .inr hfresh
        · exact .inl hq
      · intro e he a ha
        obtain ⟨hap, haF⟩ := hout e he a ha
        exact (hgrown.lo e he a ha).trans (hsame.lo a hap haF)
      · intro e he a ha
        obtain ⟨hap, haF⟩ := hout e he a ha
        exact (hgrown.hi e he a ha).trans (hsame.hi a hap haF)
    · have hyall := hall y hy
      omega

/-- **`slob_alloc`** where the list has another block. -/
theorem slobAlloc_meets (h : Heap s F P E) (hpass : size + slobUnit < pageSize) (hpos : 0 < size)
    (hspare : Spare s (slobUnits size)) (fuel : Nat) :
    (slobAlloc fuel size s).Meets (fun m s' => Served s F P E (slobUnits size) m s') (fun _ _ => False)
      fun p => p = .noEnd ∧ fuel ≤ 2 * F.card + 4 := by
  have hpass' : size + 16 < 4096 := hpass
  have hn : slobUnits size = (size + 15) / 16 := rfl
  rw [slobAlloc, Proc.check_bind_pos hpass, Proc.get_bind]
  rcases slobScan_cases (n := slobUnits size) h size fuel 0 (fun j hj hj' => absurd hj (by omega)) with
    ⟨hrun, hle⟩ | ⟨p, hp, hfit, hrun⟩ | ⟨hall, left, hle, hrun⟩
  · have hturn := turn_le F s.slobfree (s.next^[0 + 1] s.slobfree)
    rw [show slobScan size _ fuel s.slobfree (s.next s.slobfree) s = _ from hrun]
    exact ⟨rfl, by omega⟩
  · rw [show slobScan size _ fuel s.slobfree (s.next s.slobfree) s = _ from hrun]
    have hfound : ∃ x, s.OnList x ∧ slobUnits size ≤ s.units x := ⟨_, h.onList_iff.mpr (h.blocks.next_mem hp), hfit⟩
    have hmany := hspare.found hfound
    obtain ⟨-, -, htaken, -, hpick, hticks⟩ := slobTake_rest s p (s.next p) (slobUnits size)
    obtain ⟨F', h', hlone, hu, hcard, hcov, hgrown⟩ := h.handOut hp hmany (by omega) hfit
    exact .some F' P h' hu hlone (by omega) hcov hgrown (.nothing hfound hpick hticks htaken)
  · have hturn := turn_le F s.slobfree (s.next^[0 + 1] s.slobfree)
    rw [show slobScan size _ fuel s.slobfree (s.next s.slobfree) s = _ from hrun]
    have hsmall : ∀ x, s.OnList x → s.units x < slobUnits size := fun x hx => hall x (h.onList_iff.mp hx)
    have hpage : size ≠ pageSize := by
      show size ≠ 4096
      omega
    refine (slobGrow_meets h hpage (by omega) (by omega) hall (hspare.page hsmall) left).imp
      (fun _ _ hq => hq) (fun _ _ he => he) fun q hq => ⟨hq.1, by omega⟩

end Ucore.Slob
