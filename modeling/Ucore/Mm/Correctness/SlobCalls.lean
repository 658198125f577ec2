import Ucore.Mm.Correctness.SlobLive

/-!
# `Mm.Correctness.SlobCalls` — `kmalloc` and `kfree`

The specifications of the two calls over `Inv`. `kmalloc` needs another block on the free list than the one it takes its
units from (`Spare`), `kfree` another one than the block that the freed one ends at (`Freeable`).
-/

namespace Ucore.Slob

open Blocks

variable {s s' s1 : SlobMem} {F F' P P' P1 : Finset Nat} {E E' : List (Nat × Nat)} {live : List Live} {l : Live}
  {a b bb c m n p pgs ptr size x y : Nat}

/-! ## `kmalloc` -/

/-- The units that `kmalloc(size)` takes from the heap -/
def wanted (size : Nat) : Nat :=
  if size < pageSize - slobUnit then slobUnits (size + slobUnit) else slobUnits bigblockSize

/-- The block that `kmalloc(size)` has added when it returns `ptr`. -/
def added (s' : SlobMem) (size ptr : Nat) : Live :=
  if size < pageSize - slobUnit then .small (ptr - slobUnit) size else .big s'.bigblocks ptr size

/-- The page allocator refuses a page for the heap, or the pages of a big block. -/
inductive Refused (s : SlobMem) (size : Nat) : Prop where
  | page (hsmall : ∀ x, s.OnList x → s.units x < wanted size) (h : s.grant 0 = none)
  | pages (hbig : ¬ size < pageSize - slobUnit) (hfound : ∃ x, s.OnList x ∧ wanted size ≤ s.units x)
      (h : s.grant (findOrder size) = none)
  | both (hbig : ¬ size < pageSize - slobUnit) (hsmall : ∀ x, s.OnList x → s.units x < wanted size) (p : Nat)
      (hp : s.grant 0 = some p)
      (h : { s with ticks := s.ticks + 1, taken := s.taken ∪ orderPages p 0 }.grant (findOrder size) = none)

inductive Kmalloced (s : SlobMem) (F : Finset Nat) (live : List Live) (size ptr : Nat) (s' : SlobMem) : Prop where
  | null (hptr : ptr = 0) (hrefused : Refused s size) (harena : s'.arena = s.arena) (F' P' : Finset Nat) (hinv : Inv s' F' P' live)
      (hcov : ∀ a, Covered F s.len a → Covered F' s'.len a)
  | some (hptr : ptr ≠ 0) (hgiven : ¬ Refused s size) (harena : s'.arena = s.arena) (F' P' : Finset Nat)
      (hinv : Inv s' F' P' (added s' size ptr :: live)) (hadded : (added s' size ptr).ptr = ptr)
      (hlone : ∀ x, F' = {x} → (added s' size ptr).block.1 + 16 * (added s' size ptr).block.2 ≠ x)
      (hcov : ∀ a, Covered F s.len a → Covered F' s'.len a ∨ InExt (added s' size ptr).block a)

theorem grant_congr (hpick : s'.pick = s.pick) (hticks : s'.ticks = s.ticks) (harena : s'.arena = s.arena)
    (htaken : s'.taken = s.taken) (order : Nat) : s'.grant order = s.grant order := by
  have hgive : ∀ page, s'.MayGive page order ↔ s.MayGive page order := by
    intro page
    rw [SlobMem.MayGive, SlobMem.MayGive, harena, htaken]
  rw [SlobMem.grant, SlobMem.grant, hpick, hticks]
  simp only [hgive]

/-- The page allocator has refused a page for the heap. -/
theorem Inv.kmalloc_null (h : Inv s F P live) (hsmall : ∀ x ∈ F, s.units x < wanted size) (hgrant : s.grant 0 = none) :
    Kmalloced s F live size 0 { s with ticks := s.ticks + 1 } := by
  refine .null rfl (.page (fun x hx => hsmall x (h.heap.onList_iff.mp hx)) hgrant) rfl F P ⟨?_, ?_⟩ fun a ha => ha
  · exact h.heap.congr rfl rfl (fun _ _ => rfl) (fun _ _ => rfl) h.heap.taken
  · exact h.books.grown ⟨rfl, rfl, Finset.Subset.refl P, (Finset.union_eq_left.mpr h.heap.taken).symm, fun p hp => .inl hp,
      fun _ _ _ _ => rfl, fun _ _ _ _ => rfl⟩

theorem Inv.kmalloc_small (h : Inv s F P live) (hsmall : size < pageSize - slobUnit) (hpass : size + slobUnit + slobUnit < pageSize)
    (hspare : Spare s (wanted size)) (fuel : Nat) :
    (kmalloc fuel size s).Meets (fun ptr s' => Kmalloced s F live size ptr s') (fun _ _ => False)
      fun p => p = .noEnd ∧ fuel ≤ 2 * F.card + 4 := by
  have hwanted : wanted size = slobUnits (size + slobUnit) := if_pos hsmall
  rw [kmalloc, if_pos hsmall]
  rw [hwanted] at hspare
  refine Outcome.Meets.bind (slobAlloc_meets h.heap hpass (Nat.succ_pos _) hspare fuel) fun m s' hm => ?_
  rw [Proc.pure_run]
  cases hm with
  | none hm hnone hgrant hs =>
    rw [← hwanted] at hnone
    rw [if_pos hm, hs]
    exact h.kmalloc_null hnone hgrant
  | some F' P' hheap hunits hlone hcard hcov hgrown hasked =>
    have hm : m ≠ 0 := Nat.ne_of_gt (hheap.pos_of_owned (hheap.own m (.inr ⟨_, List.mem_cons_self, hheap.inExt_start List.mem_cons_self⟩)))
    have hadd : added s' size (m + slobUnit) = .small m size := by
      rw [added, if_pos hsmall, Nat.add_sub_cancel]
    rw [if_neg hm]
    refine .some (Nat.ne_of_gt (Nat.succ_pos _)) ?_ hgrown.arena F' P' ?_ ?_ ?_ ?_
    · -- units were there, or a page was granted
      intro hrefused
      cases hrefused with
      | page hnone hgrant =>
        cases hasked with
        | nothing hfound =>
          obtain ⟨x, hx, hn⟩ := hfound
          have hx' := hnone x hx
          rw [hwanted] at hx'
          omega
        | page _ p hp =>
          rw [hp] at hgrant
          cases hgrant
      | pages hbig => exact hbig hsmall
      | both hbig => exact hbig hsmall
    · rw [hadd]
      exact ⟨hheap, (h.books.grown hgrown).addSmall hunits⟩
    · rw [hadd]
      rfl
    · rw [hadd]
      exact hlone
    · rw [hadd]
      exact hcov

theorem bigblockSize_ne : bigblockSize ≠ 0 := by
  decide

/-- What is asked for after a search does not depend on the heap. -/
theorem refused_iff (hbig : ¬ size < pageSize - slobUnit) (hasked : Asked s s1 (wanted size)) (harena : s1.arena = s.arena) :
    Refused s size ↔ s1.grant (findOrder size) = none := by
  cases hasked with
  | nothing hfound hpick hticks htaken =>
    rw [grant_congr hpick hticks harena htaken]
    constructor
    · intro hrefused
      obtain ⟨x, hx, hn⟩ := hfound
      cases hrefused with
      | page hsmall =>
        have hx' := hsmall x hx
        omega
      | pages _ _ h => exact h
      | both _ hsmall =>
        have hx' := hsmall x hx
        omega
    · exact fun h => .pages hbig hfound h
  | page hsmall p hp hpick hticks htaken =>
    rw [grant_congr (s := { s with ticks := s.ticks + 1, taken := s.taken ∪ orderPages p 0 }) hpick hticks harena htaken]
    constructor
    · intro hrefused
      cases hrefused with
      | page _ h =>
        rw [hp] at h
        cases h
      | pages _ hfound =>
        obtain ⟨x, hx, hn⟩ := hfound
        have hx' := hsmall x hx
        omega
      | both _ _ q hq h =>
        rw [hp] at hq
        cases hq
        exact h
    · exact fun h => .both hbig hsmall p hp h

/-- Only the block `e` is written. -/
structure Within (s s' : SlobMem) (e : Nat × Nat) : Prop where
  arena : s'.arena = s.arena
  slobfree : s'.slobfree = s.slobfree
  lo : ∀ a, ¬ InExt e a → s'.lo a = s.lo a
  hi : ∀ a, ¬ InExt e a → s'.hi a = s.hi a

section Within

variable {e : Nat × Nat}

theorem Heap.free_outside (h : Heap s F P (e :: E)) (hx : x ∈ F) : ¬ InExt e x := fun hin =>
  h.apart _ List.mem_cons_self x hin (h.covered_start hx)

theorem Heap.live_outside (h : Heap s F P (e :: E)) : ∀ f ∈ E, ∀ a, InExt f a → ¬ InExt e a := fun _ hf a ha hin =>
  List.rel_of_pairwise_cons h.distinct hf a hin ha

theorem Within.heap (hw : Within s s' e) (h : Heap s F P (e :: E)) (htaken : P ⊆ s'.taken) : Heap s' F P (e :: E) :=
  h.congr hw.arena hw.slobfree (fun x hx => hw.lo x (h.free_outside hx)) (fun x hx => hw.hi x (h.free_outside hx)) htaken

theorem Within.len (hw : Within s s' e) (h : Heap s F P (e :: E)) : ∀ x ∈ F, s'.len x = s.len x := fun x hx =>
  congrArg (16 * ·) (hw.lo x (h.free_outside hx))

theorem Within.grown (hw : Within s s' e) (h : Heap s F P (e :: E)) (hbig : s'.bigblocks = s.bigblocks) (htaken : s'.taken = s.taken) :
    Grown s s' P P E where
  arena := hw.arena
  bigblocks := hbig
  pages := Finset.Subset.refl P
  taken := by rw [htaken, Finset.union_eq_left.mpr h.taken]
  fresh p hp := .inl hp
  lo f hf a ha := hw.lo a (h.live_outside f hf a ha)
  hi f hf a ha := hw.hi a (h.live_outside f hf a ha)

end Within

/-- A descriptor is written at `bb`, behind the request for its pages. -/
def described (s : SlobMem) (bb ord pages : Nat) (T : Finset Nat) : SlobMem :=
  { (s.setOrder bb ord).setPages bb pages with ticks := s.ticks + 1, taken := T }

/-- It comes to the front of `bigblocks`. -/
def linked (s : SlobMem) (bb ord pages : Nat) (T : Finset Nat) : SlobMem :=
  { (described s bb ord pages T).setBbNext bb s.bigblocks with bigblocks := bb }

theorem within_described (s : SlobMem) (bb ord pages : Nat) (T : Finset Nat) :
    Within s (described s bb ord pages T) (bb, slobUnits bigblockSize) := by
  have hout : ∀ a, ¬ InExt (bb, slobUnits bigblockSize) a → a ≠ bb := by
    rintro a ha rfl
    exact ha (inExt_first (.big a pages 0))
  exact ⟨rfl, rfl, fun a ha => Function.update_of_ne (hout a ha) _ s.lo, fun a ha => Function.update_of_ne (hout a ha) _ s.hi⟩

theorem within_linked (s : SlobMem) (bb ord pages : Nat) (T : Finset Nat) :
    Within s (linked s bb ord pages T) (bb, slobUnits bigblockSize) := by
  have hwrite := within_described s bb ord pages T
  refine ⟨rfl, rfl, fun a ha => ?_, hwrite.hi⟩
  -- `bb->next` is in the second unit of the descriptor
  have hne : a ≠ bb + slobUnit := by
    rintro rfl
    exact ha (inExt_bbNext bb pages 0)
  exact (Function.update_of_ne hne _ _).trans (hwrite.lo a ha)

/-- Without its pages, the descriptor is given back. -/
theorem Inv.kmalloc_refused (h : Inv s F P live) (hheap : Heap s1 F' P1 ((bb, slobUnits bigblockSize) :: live.map Live.block))
    (hlone : ∀ x, F' = {x} → bb + 16 * slobUnits bigblockSize ≠ x) (hcard : F'.card ≤ F.card + 1)
    (hcov : ∀ a, Covered F s.len a → Covered F' s1.len a ∨ InExt (bb, slobUnits bigblockSize) a)
    (hgrown : Grown s s1 P P1 (live.map Live.block)) (hrefused : Refused s size) (ord fuel : Nat) :
    ((slobFree fuel bb bigblockSize >>= fun _ => pure 0) (described s1 bb ord 0 s1.taken)).Meets
      (fun ptr s' => Kmalloced s F live size ptr s') (fun _ _ => False) fun p => p = .noEnd ∧ fuel ≤ 2 * F.card + 4 := by
  have hwrite := within_described s1 bb ord 0 s1.taken
  have hheap' := hwrite.heap hheap hheap.taken
  have hfree := slobFree_meets hheap' List.mem_cons_self (fun he => absurd he bigblockSize_ne) (fun _ => rfl) hlone fuel
  refine Outcome.Meets.bind (hfree.imp (fun _ _ hq => hq) (fun _ _ he => he) fun q hq => ⟨hq.1, by omega⟩) ?_
  rintro - s' ⟨hsame, F5, h5, -, hcov5⟩
  rw [List.erase_cons_head] at h5
  have hgrown5 := (hgrown.trans (hwrite.grown hheap rfl rfl)).trans (hsame.grown hheap')
  refine .null rfl hrefused hgrown5.arena F5 P1 ⟨h5, h.books.grown hgrown5⟩ fun a ha => ?_
  rw [hcov5, Covered.congr (hwrite.len hheap)]
  exact hcov a ha

/-- With its pages, the descriptor goes to the front of the list. -/
theorem Inv.kmalloc_given (h : Inv s F P live) (hbig : ¬ size < pageSize - slobUnit)
    (hheap : Heap s1 F' P1 ((bb, slobUnits bigblockSize) :: live.map Live.block)) (hbb : bb ≠ 0)
    (hlone : ∀ x, F' = {x} → bb + 16 * slobUnits bigblockSize ≠ x)
    (hcov : ∀ a, Covered F s.len a → Covered F' s1.len a ∨ InExt (bb, slobUnits bigblockSize) a)
    (hgrown : Grown s s1 P P1 (live.map Live.block)) (hgive : s1.MayGive pgs (findOrder size)) (hgiven : ¬ Refused s size) :
    Kmalloced s F live size pgs (linked s1 bb (findOrder size) pgs (s1.taken ∪ orderPages pgs (findOrder size))) := by
  have hwrite := within_linked s1 bb (findOrder size) pgs (s1.taken ∪ orderPages pgs (findOrder size))
  have hadd : added (linked s1 bb (findOrder size) pgs (s1.taken ∪ orderPages pgs (findOrder size))) size pgs = .big bb pgs size :=
    if_neg hbig
  have hne : bb ≠ bb + slobUnit := Nat.ne_of_lt (Nat.lt_add_of_pos_right (by decide))
  refine .some (Nat.ne_zero_of_lt hgive.2.1) hgiven hgrown.arena F' P1 ?_ ?_ ?_ ?_
  · rw [hadd]
    constructor
    · exact hwrite.heap hheap (hheap.taken.trans Finset.subset_union_left)
    · refine (h.books.grown hgrown).addBig hheap.taken hgive hbb ?_ ?_ ?_ ?_ ?_ rfl rfl rfl
      · exact fun e he a ha => hwrite.lo a (hheap.live_outside e he a ha)
      · exact fun e he a ha => hwrite.hi a (hheap.live_outside e he a ha)
      · exact (Function.update_of_ne hne _ _).trans (Function.update_self bb _ s1.lo)
      · exact Function.update_self bb _ s1.hi
      · exact Function.update_self _ _ _
  · rw [hadd]
    rfl
  · rw [hadd]
    exact hlone
  · intro a ha
    rw [hadd]
    exact (hcov a ha).imp_left (Covered.congr (hwrite.len hheap)).mpr

theorem Inv.kmalloc_big (h : Inv s F P live) (hbig : ¬ size < pageSize - slobUnit) (hspare : Spare s (wanted size)) (fuel : Nat) :
    (kmalloc fuel size s).Meets (fun ptr s' => Kmalloced s F live size ptr s') (fun _ _ => False)
      fun p => p = .noEnd ∧ fuel ≤ 2 * F.card + 4 := by
  have hwanted : wanted size = slobUnits bigblockSize := if_neg hbig
  rw [kmalloc, if_neg hbig]
  rw [hwanted] at hspare
  refine Outcome.Meets.bind (slobAlloc_meets h.heap (by decide) (by decide) hspare fuel) fun bb s1 hm => ?_
  cases hm with
  | none hm hnone hgrant hs =>
    rw [← hwanted] at hnone
    rw [if_pos hm, hs]
    exact h.kmalloc_null hnone hgrant
  | some F1 P1 hheap hunits hlone hcard hcov hgrown hasked =>
    have hin := hheap.inExt_start List.mem_cons_self
    have hbb : bb ≠ 0 := Nat.ne_of_gt (hheap.pos_of_owned (hheap.own bb (.inr ⟨_, List.mem_cons_self, hin⟩)))
    rw [← hwanted] at hasked
    have hrefused := refused_iff hbig hasked hgrown.arena
    have horder : (s1.setOrder bb (findOrder size)).order bb = findOrder size := Function.update_self bb _ s1.lo
    have hgrant : (s1.setOrder bb (findOrder size)).grant (findOrder size) = s1.grant (findOrder size) := grant_congr rfl rfl rfl rfl _
    rw [if_neg hbb, Proc.modify_bind, Proc.get_bind, horder]
    rcases slobGetFreePages_cases (s1.setOrder bb (findOrder size)) (findOrder size) with ⟨hnone, hrun⟩ | ⟨pgs, hsome, hgive, hrun⟩
    · rw [Proc.bind_ok hrun, Proc.modify_bind, if_neg (not_not_intro rfl)]
      exact h.kmalloc_refused hheap hlone hcard hcov hgrown (hrefused.mpr (hgrant.symm.trans hnone)) _ fuel
    · have hgiven : ¬ Refused s size := by
        rw [hrefused, ← hgrant, hsome]
        exact Option.some_ne_none pgs
      rw [Proc.bind_ok hrun, Proc.modify_bind, if_pos (Nat.ne_zero_of_lt hgive.2.1), Proc.modify_bind, Proc.pure_run]
      exact h.kmalloc_given hbig hheap hbb hlone hcov hgrown hgive hgiven

/-- The assertion of `slob_alloc` -/
def Passes (size : Nat) : Prop := size < pageSize - slobUnit → size + slobUnit + slobUnit < pageSize

/-- **`kmalloc`** where the list has another block. -/
theorem Inv.kmalloc (h : Inv s F P live) (hpass : Passes size) (hspare : Spare s (wanted size)) (fuel : Nat) :
    (kmalloc fuel size s).Meets (fun ptr s' => Kmalloced s F live size ptr s') (fun _ _ => False)
      fun p => p = .noEnd ∧ fuel ≤ 2 * F.card + 4 := by
  by_cases hsmall : size < pageSize - slobUnit
  · exact h.kmalloc_small hsmall (hpass hsmall) hspare fuel
  · exact h.kmalloc_big hsmall hspare fuel

/-! ## The search for a descriptor -/

section BigFind

variable {bbs bbs' : List Nat} {o block : Nat}

theorem bigFind_none (h : Threaded s.bbNext 0 bb bbs) (hne : ∀ o ∈ bbs, s.pages o ≠ block) (last : Option Nat) (fuel : Nat)
    (s' : SlobMem) :
    bigFind s block fuel last bb s' = .ok none s' ∨ bigFind s block fuel last bb s' = .panic .noEnd ∧ fuel ≤ bbs.length := by
  induction bbs generalizing last fuel bb with
  | nil =>
    cases fuel with
    | zero => exact .inr ⟨rfl, Nat.zero_le _⟩
    | succ fuel =>
      have hnull : bb = 0 := h
      rw [bigFind, if_pos hnull]
      exact .inl rfl
  | cons o bbs ih =>
    obtain ⟨rfl, hnull, hrest⟩ := h
    cases fuel with
    | zero => exact .inr ⟨rfl, Nat.zero_le _⟩
    | succ fuel =>
      rw [bigFind, if_neg hnull, if_neg (hne bb List.mem_cons_self)]
      refine (ih hrest (fun o ho => hne o (List.mem_cons_of_mem _ ho)) (some bb) fuel).imp_right fun hpanic => ?_
      exact ⟨hpanic.1, Nat.succ_le_succ hpanic.2⟩

/-- The first descriptor with the pages is found, and the one in front of it. -/
theorem bigFind_some (h : Threaded s.bbNext 0 bb (bbs ++ o :: bbs')) (hne : ∀ o ∈ bbs, s.pages o ≠ block) (ho : s.pages o = block)
    (last : Option Nat) (fuel : Nat) (s' : SlobMem) : bigFind s block fuel last bb s' = .ok (some (bbs.getLast?.or last, o)) s' ∨
      bigFind s block fuel last bb s' = .panic .noEnd ∧ fuel ≤ bbs.length := by
  induction bbs generalizing last fuel bb with
  | nil =>
    obtain ⟨rfl, hnull, -⟩ := h
    cases fuel with
    | zero => exact .inr ⟨rfl, Nat.zero_le _⟩
    | succ fuel =>
      rw [bigFind, if_neg hnull, if_pos ho]
      exact .inl rfl
  | cons o' bbs ih =>
    obtain ⟨rfl, hnull, hrest⟩ := h
    cases fuel with
    | zero => exact .inr ⟨rfl, Nat.zero_le _⟩
    | succ fuel =>
      have hlast : (bb :: bbs).getLast?.or last = bbs.getLast?.or (some bb) := by
        rw [List.getLast?_cons]
        cases bbs.getLast? with
        | none => rfl
        | some q => rfl
      rw [bigFind, if_neg hnull, if_neg (hne bb List.mem_cons_self), hlast]
      refine (ih hrest (fun o ho => hne o (List.mem_cons_of_mem _ ho)) (some bb) fuel).imp_right fun hpanic => ?_
      exact ⟨hpanic.1, Nat.succ_le_succ hpanic.2⟩

end BigFind

/-! ## `kfree` -/

/-- Where the free list has only one block, the freed one does not end at it; and the pointer is not that of other pages. -/
structure Freeable (s : SlobMem) (live : List Live) (l : Live) : Prop where
  spare : s.next s.slobfree = s.slobfree → l.block.1 + 16 * l.block.2 ≠ s.slobfree
  named : ∀ bb pgs size, .big bb pgs size ∈ live → pgs = l.ptr → l = .big bb pgs size

/-- What `kfree` gives back is what the block had. -/
structure Kfreed (s : SlobMem) (F P : Finset Nat) (live : List Live) (l : Live) (s' : SlobMem) (F' : Finset Nat) : Prop where
  inv : Inv s' F' P (live.erase l)
  arena : s'.arena = s.arena
  units : ∀ a, Covered F' s'.len a ↔ Covered F s.len a ∨ InExt l.block a
  taken : s'.taken = s.taken \ l.pages

theorem Inv.perm_erase (hl : l ∈ live) : (live.map Live.block).Perm (l.block :: (live.erase l).map Live.block) :=
  (List.perm_cons_erase hl).map Live.block

/-- The blocks that `l` is freed beside -/
theorem Inv.heap_erase (hl : l ∈ live) (h : Heap s F P ((live.map Live.block).erase l.block)) :
    Heap s F P ((live.erase l).map Live.block) := by
  refine h.perm ?_
  have hperm := (Inv.perm_erase hl).erase l.block
  rwa [List.erase_cons_head] at hperm

theorem Freeable.lone (hok : Freeable s live l) (h : Inv s F P live) : ∀ x, F = {x} → l.block.1 + 16 * l.block.2 ≠ x := by
  intro x hx
  have hfirst := h.heap.first
  have hnext := h.heap.blocks.next_mem hfirst
  rw [hx, Finset.mem_singleton] at hfirst hnext
  have hspare := hok.spare (hnext.trans hfirst.symm)
  rwa [hfirst] at hspare

/-- A block with a header leaves the rest alone. -/
theorem Books.eraseSmall (h : Books s P live) : Books s P (live.erase (.small m size)) where
  marked m' size' hl := h.marked m' size' (List.mem_of_mem_erase hl)
  order bb pgs size' hl := h.order bb pgs size' (List.mem_of_mem_erase hl)
  pages bb pgs size' hl := h.pages bb pgs size' (List.mem_of_mem_erase hl)
  chain := by
    by_cases hmem : .small m size ∈ live
    · obtain ⟨A, B, -, hsplit, herase⟩ := List.exists_erase_eq hmem
      have hchain := h.chain
      rw [hsplit, bigs, List.filterMap_append, List.filterMap_cons_none rfl] at hchain
      rw [herase, bigs, List.filterMap_append]
      exact hchain
    · rw [List.erase_of_not_mem hmem]
      exact h.chain
  page l hl := h.page l (List.mem_of_mem_erase hl)
  apart := h.apart.sublist List.erase_sublist
  taken p := by
    rw [h.taken]
    refine or_congr_right (Iff.symm ⟨?_, ?_⟩)
    · rintro ⟨l, hl, hp⟩
      exact ⟨l, List.mem_of_mem_erase hl, hp⟩
    rintro ⟨l, hl, hp⟩
    refine ⟨l, (List.mem_erase_of_ne ?_).mpr hl, hp⟩
    rintro rfl
    exact Finset.notMem_empty p hp

theorem Inv.kfreeSmall (h : Inv s F P live) (hl : .small m size ∈ live) (hok : Freeable s live (.small m size)) (fuel : Nat) :
    (kfreeSmall fuel (m + slobUnit) s).Meets (fun _ s' => ∃ F', Kfreed s F P live (.small m size) s' F') (fun _ _ => False)
      fun p => p = .noEnd ∧ fuel ≤ F.card := by
  rw [Slob.kfreeSmall, Nat.add_sub_cancel]
  refine (slobFree_meets h.heap (inExt_block hl) (fun _ => h.books.marked m size hl) (fun he => absurd rfl he) (hok.lone h)
    fuel).imp ?_ (fun _ _ he => he) fun _ hq => hq
  rintro - s' ⟨hsame, F', h', -, hcov⟩
  have hgrown := hsame.grown (h.heap.perm (Inv.perm_erase hl))
  exact ⟨F', ⟨Inv.heap_erase hl h', h.books.eraseSmall.grown hgrown⟩, hsame.arena, hcov, by rw [hsame.taken]; exact (Finset.sdiff_empty).symm⟩

theorem Inv.apart (h : Inv s F P live) {l' : Live} (hl : l ∈ live) (hl' : l' ∈ live) (hne : l ≠ l') (ha : InExt l.block a) :
    ¬ InExt l'.block a := by
  have hsymm : Std.Symm fun l l' : Live => ∀ a, InExt l.block a → ¬ InExt l'.block a := ⟨fun _ _ hll a ha' ha => hll a ha ha'⟩
  exact (List.pairwise_map.mp h.heap.distinct).forall hl hl' hne a ha

/-- `*last = v` writes to no header. -/
theorem Inv.setLast_lo (h : Inv s F P live) {last : Option Nat} (hlast : ∀ q, last = some q → q ∈ bigs live) (v : Nat) :
    (∀ x ∈ F, (s.setLast last v).lo x = s.lo x) ∧ ∀ l ∈ live, (s.setLast last v).lo l.block.1 = s.lo l.block.1 := by
  cases last with
  | none => exact ⟨fun _ _ => rfl, fun _ _ => rfl⟩
  | some q =>
    obtain ⟨pgs, size, hq⟩ := mem_bigs.mp (hlast q rfl)
    have hin := inExt_bbNext q pgs size
    have hkeep : ∀ x, x ≠ q + slobUnit → (s.setLast (some q) v).lo x = s.lo x := fun x hx => Function.update_of_ne hx _ _
    refine ⟨fun x hx => hkeep x ?_, fun l hl => hkeep _ fun he => ?_⟩
    · rintro rfl
      exact h.heap.apart _ (inExt_block hq) _ hin (h.heap.covered_start hx)
    · -- a header is at the beginning of its block
      by_cases hlq : l = .big q pgs size
      · rw [hlq] at he
        have hne : q ≠ q + slobUnit := Nat.ne_of_lt (Nat.lt_add_of_pos_right (by decide))
        exact hne he
      · exact h.apart hl hq hlq (he ▸ inExt_first l) hin

/-- The descriptors without the one that is taken out -/
theorem Inv.setLast_chain (h : Inv s F P live) {A B : List Nat} (hsplit : bigs live = A ++ bb :: B) :
    Threaded (s.setLast A.getLast? (s.bbNext bb)).bbNext 0 (s.setLast A.getLast? (s.bbNext bb)).bigblocks (A ++ B) := by
  have hchain := h.books.chain
  have hnd : (bigs live).Nodup := by
    rw [bigs]
    refine (h.books.apart.and (List.pairwise_map.mp h.heap.distinct)).filterMap _ ?_
    rintro l l' ⟨-, hdis⟩ b hb b' hb' rfl
    cases l with
    | small m size => cases hb
    | big bb pgs size =>
      cases l' with
      | small m size => cases hb'
      | big bb' pgs' size' =>
        cases hb
        cases hb'
        exact hdis b (inExt_first (.big b pgs size)) (inExt_first (.big b pgs' size'))
  rw [hsplit] at hchain hnd
  rcases List.eq_nil_or_concat A with rfl | ⟨A', q, rfl⟩
  · exact hchain.2.2
  · rw [List.concat_eq_append, List.append_assoc] at hchain hnd ⊢
    rw [List.getLast?_append_of_ne_nil _ (List.cons_ne_nil q [])]
    refine (hchain.unlink hnd).congr fun o _ => ?_
    show Function.update s.lo (q + slobUnit) (s.bbNext bb) (o + slobUnit) = Function.update s.bbNext q (s.bbNext bb) o
    by_cases hoq : o = q
    · rw [hoq, Function.update_self, Function.update_self]
    · rw [Function.update_of_ne hoq, Function.update_of_ne]
      · rfl
      · omega

/-- A block of pages is taken out of `bigblocks`, and its pages are given back. -/
theorem Inv.unlinkBig (h : Inv s F P live) (hl : .big bb pgs size ∈ live) {A B : List Live} (hlive : live = A ++ .big bb pgs size :: B) :
    Heap { s.setLast (bigs A).getLast? (s.bbNext bb) with taken := s.taken \ orderPages pgs (findOrder size) } F P
      (live.map Live.block) ∧
    Books { s.setLast (bigs A).getLast? (s.bbNext bb) with taken := s.taken \ orderPages pgs (findOrder size) } P (A ++ B) := by
  have hbigs : bigs live = bigs A ++ bb :: bigs B := by
    rw [hlive, bigs, List.filterMap_append]
    rfl
  have hlast : ∀ q, (bigs A).getLast? = some q → q ∈ bigs live := by
    intro q hq
    rw [hbigs]
    exact List.mem_append_left _ (List.mem_of_getLast? hq)
  obtain ⟨hloF, hloL⟩ := h.setLast_lo hlast (s.bbNext bb)
  have hchain := h.setLast_chain hbigs
  have hrest : (s.setLast (bigs A).getLast? (s.bbNext bb)).hi = s.hi ∧ (s.setLast (bigs A).getLast? (s.bbNext bb)).arena = s.arena ∧
      (s.setLast (bigs A).getLast? (s.bbNext bb)).slobfree = s.slobfree := by
    cases (bigs A).getLast? with
    | none => exact ⟨rfl, rfl, rfl⟩
    | some q => exact ⟨rfl, rfl, rfl⟩
  generalize s.setLast (bigs A).getLast? (s.bbNext bb) = s1 at hloF hloL hchain hrest
  obtain ⟨hhi, harena, hfirst⟩ := hrest
  have hsub : ∀ l ∈ A ++ B, l ∈ live := by
    intro l hl'
    rw [hlive]
    exact (List.mem_append.mp hl').elim (List.mem_append_left _) fun hB => List.mem_append_right _ (List.mem_cons_of_mem _ hB)
  have hapart := h.books.apart
  rw [hlive, List.pairwise_middle fun hab => hab.symm] at hapart
  constructor
  · refine h.heap.congr harena hfirst hloF (fun x _ => congrFun hhi x) fun p hp => ?_
    rw [Finset.mem_sdiff]
    exact ⟨h.heap.taken hp, fun hpp => (h.books.page _ hl p hpp).2.2 hp⟩
  · refine ⟨fun m size' hm => ?_, fun bb' pgs' size' hb => ?_, fun bb' pgs' size' hb => ?_, ?_, ?_, ?_, fun p => ?_⟩
    · exact (hloL _ (hsub _ hm)).trans (h.books.marked m size' (hsub _ hm))
    · exact (hloL _ (hsub _ hb)).trans (h.books.order bb' pgs' size' (hsub _ hb))
    · exact (congrFun hhi bb').trans (h.books.pages bb' pgs' size' (hsub _ hb))
    · rw [bigs, List.filterMap_append]
      exact hchain
    · intro l hl' p hp
      show p % 4096 = 0 ∧ s1.arena + 16 < p ∧ p ∉ P
      rw [harena]
      exact h.books.page l (hsub l hl') p hp
    · exact (List.pairwise_cons.mp hapart).2
    · show p ∈ s.taken \ orderPages pgs (findOrder size) ↔ _
      rw [Finset.mem_sdiff, h.books.taken]
      constructor
      · rintro ⟨hp | ⟨l, hl', hp⟩, hout⟩
        · exact .inl hp
        · refine .inr ⟨l, ?_, hp⟩
          rw [hlive] at hl'
          rcases List.mem_append.mp hl' with hA | hB
          · exact List.mem_append_left _ hA
          · rcases List.mem_cons.mp hB with rfl | hB
            · exact absurd hp hout
            · exact List.mem_append_right _ hB
      · rintro (hp | ⟨l, hl', hp⟩)
        · exact ⟨.inl hp, fun hpp => (h.books.page _ hl p hpp).2.2 hp⟩
        · refine ⟨.inr ⟨l, hsub l hl', hp⟩, fun hpp => ?_⟩
          exact Finset.disjoint_left.mp ((List.pairwise_cons.mp hapart).1 l hl') hpp hp

theorem slobFreePages_run {ord : Nat} (hal : pgs % 4096 = 0) (hsub : orderPages pgs ord ⊆ s.taken) :
    slobFreePages pgs ord s = .ok () { s with taken := s.taken \ orderPages pgs ord } := by
  have hpage : pgs / pageSize * pageSize = pgs := by
    show pgs / 4096 * 4096 = pgs
    omega
  rw [slobFreePages, Proc.get_bind, hpage, Proc.check_bind_pos hsub]
  rfl

theorem Inv.kfreeBig (h : Inv s F P live) (hl : .big bb pgs size ∈ live) (hok : Freeable s live (.big bb pgs size)) (fuel : Nat) :
    (kfree fuel pgs s).Meets (fun _ s' => ∃ F', Kfreed s F P live (.big bb pgs size) s' F') (fun _ _ => False)
      fun p => p = .noEnd ∧ fuel ≤ F.card + live.length := by
  obtain ⟨A, B, -, hlive, herase⟩ := List.exists_erase_eq hl
  obtain ⟨hal, habove, -⟩ := h.books.page _ hl pgs (self_mem_orderPages pgs _)
  have hpgs : pgs ≠ 0 := Nat.ne_zero_of_lt habove
  have hbigs : bigs live = bigs A ++ bb :: bigs B := by
    rw [hlive, bigs, List.filterMap_append]
    rfl
  -- no descriptor in front has the same pages
  have hne : ∀ o ∈ bigs A, s.pages o ≠ pgs := by
    intro o ho he
    obtain ⟨pgs', size', hA⟩ := mem_bigs.mp ho
    have hmem : .big o pgs' size' ∈ live := by
      rw [hlive]
      exact List.mem_append_left _ hA
    have hpages := h.books.pages o pgs' size' hmem
    obtain rfl : pgs' = pgs := hpages.symm.trans he
    have hapart := h.books.apart
    rw [hlive, List.pairwise_append] at hapart
    have hdis := hapart.2.2 _ hA _ List.mem_cons_self
    exact Finset.disjoint_left.mp hdis (self_mem_orderPages pgs' _) (self_mem_orderPages pgs' _)
  have hchain := h.books.chain
  rw [hbigs] at hchain
  have hpage : pgs % pageSize = 0 := hal
  rw [kfree, if_neg hpgs, if_pos hpage, Proc.get_bind]
  rcases bigFind_some hchain hne (h.books.pages bb pgs size hl) none fuel s with hfound | ⟨hpanic, hle⟩
  · rw [Proc.bind_ok hfound, Option.or_none]
    obtain ⟨h1, hbooks1⟩ := h.unlinkBig hl hlive
    have hlast : ∀ q, (bigs A).getLast? = some q → q ∈ bigs live := by
      intro q hq
      rw [hbigs]
      exact List.mem_append_left _ (List.mem_of_getLast? hq)
    obtain ⟨hF, hL⟩ := h.setLast_lo hlast (s.bbNext bb)
    have horder : (s.setLast (bigs A).getLast? (s.bbNext bb)).order bb = findOrder size :=
      (hL _ hl).trans (h.books.order bb pgs size hl)
    have htaken : (s.setLast (bigs A).getLast? (s.bbNext bb)).taken = s.taken := by
      cases (bigs A).getLast? with
      | none => rfl
      | some q => rfl
    have harena : (s.setLast (bigs A).getLast? (s.bbNext bb)).arena = s.arena := by
      cases (bigs A).getLast? with
      | none => rfl
      | some q => rfl
    have hsub : orderPages pgs (findOrder size) ⊆ s.taken := fun p hp => (h.books.taken p).mpr (.inr ⟨_, hl, hp⟩)
    simp only [Proc.put_bind, Proc.get_bind]
    generalize s.setLast (bigs A).getLast? (s.bbNext bb) = s1 at h1 hbooks1 horder htaken harena hF ⊢
    rw [← htaken] at hsub
    rw [horder, Proc.bind_ok (slobFreePages_run hal hsub), htaken]
    have hfree := slobFree_meets h1 (inExt_block hl) (fun he => absurd he bigblockSize_ne) (fun _ => rfl) (hok.lone h) fuel
    refine hfree.imp ?_ (fun _ _ he => he) fun q hq => ⟨hq.1, by omega⟩
    rintro - s' ⟨hsame, F', h', -, hcov⟩
    have hgrown := hsame.grown (h1.perm (Inv.perm_erase hl))
    rw [← herase] at hbooks1
    refine ⟨F', ⟨Inv.heap_erase hl h', hbooks1.grown hgrown⟩, hsame.arena.trans harena, fun a => ?_, hsame.taken⟩
    rw [hcov]
    exact or_congr_left (Covered.congr fun x hx => congrArg (16 * ·) (hF x hx))
  · rw [Proc.bind_panic hpanic]
    refine ⟨rfl, ?_⟩
    have hlen : (bigs live).length ≤ live.length := List.length_filterMap_le _ _
    rw [hbigs, List.length_append] at hlen
    omega

/-- **`kfree`** of a live block -/
theorem Inv.kfree (h : Inv s F P live) (hl : l ∈ live) (hok : Freeable s live l) (fuel : Nat) :
    (kfree fuel l.ptr s).Meets (fun _ s' => ∃ F', Kfreed s F P live l s' F') (fun _ _ => False)
      fun p => p = .noEnd ∧ fuel ≤ F.card + live.length := by
  cases l with
  | big bb pgs size => exact h.kfreeBig hl hok fuel
  | small m size =>
    have hptr : m + slobUnit ≠ 0 := Nat.succ_ne_zero _
    have hsmall := (h.kfreeSmall hl hok fuel).imp (fun _ _ hq => hq) (fun _ _ he => he) fun q hq =>
      (⟨hq.1, by omega⟩ : q = .noEnd ∧ fuel ≤ F.card + live.length)
    show (Slob.kfree fuel (m + slobUnit) s).Meets _ _ _
    rw [Slob.kfree, if_neg hptr]
    by_cases hpage : (m + slobUnit) % pageSize = 0
    · -- no pages have this pointer
      have hne : ∀ o ∈ bigs live, s.pages o ≠ m + slobUnit := by
        intro o ho he
        obtain ⟨pgs, size', hmem⟩ := mem_bigs.mp ho
        have hpages := h.books.pages o pgs size' hmem
        cases hok.named o pgs size' hmem (hpages.symm.trans he)
      rw [if_pos hpage, Proc.get_bind]
      rcases bigFind_none h.books.chain hne none fuel s with hnone | ⟨hpanic, hle⟩
      · rw [Proc.bind_ok hnone]
        exact hsmall
      · rw [Proc.bind_panic hpanic]
        have hlen : (bigs live).length ≤ live.length := List.length_filterMap_le _ _
        exact ⟨rfl, by omega⟩
    · rw [if_neg hpage]
      exact hsmall

end Ucore.Slob
