import Ucore.Lib.Slots
import Ucore.Mm.Correctness.SlobAlloc

/-!
# `Mm.Correctness.SlobLive` — what `kmalloc` has handed out

Each live block has a block of the heap: the one that the pointer leads into, or the descriptor of its pages. `Inv` says that the
heap is in order (`Heap`), and that the headers, the descriptors and the list `bigblocks` go with the live blocks (`Books`).
-/

namespace Ucore.Slob

open Blocks

/-! ## Live blocks -/

inductive Live where
  | small (m size : Nat)        -- the units from `m` on, with their header
  | big (bb pages size : Nat)   -- pages, and their descriptor
deriving DecidableEq

namespace Live

/-- What was returned by `kmalloc` -/
def ptr : Live → Nat
  | small m _     => m + slobUnit
  | big _ pages _ => pages

/-- The block of the heap, with its units -/
def block : Live → Nat × Nat
  | small m size => (m, slobUnits (size + slobUnit))
  | big bb _ _   => (bb, slobUnits bigblockSize)

/-- The pages that are not part of the heap -/
def pages : Live → Finset Nat
  | small _ _      => ∅
  | big _ pgs size => orderPages pgs (findOrder size)

/-- The size that was asked for -/
def size : Live → Nat
  | small _ size => size
  | big _ _ size => size

def descriptor : Live → Option Nat
  | small _ _  => none
  | big bb _ _ => some bb

theorem block_pos (l : Live) : 0 < l.block.2 := by
  cases l with
  | small m size =>
    show 0 < (size + 16 + 15) / 16
    omega
  | big bb pgs size =>
    show 0 < slobUnits bigblockSize
    decide

end Live

/-- `bigblocks`, where each block is in front of those that were there before it. -/
def bigs (live : List Live) : List Nat := live.filterMap Live.descriptor

variable {s s' s1 : SlobMem} {F F' P P' P1 : Finset Nat} {E E' : List (Nat × Nat)} {live : List Live} {l : Live}
  {a b bb c m n p pgs ptr size x y : Nat}

theorem mem_bigs : bb ∈ bigs live ↔ ∃ pgs size, .big bb pgs size ∈ live := by
  rw [bigs, List.mem_filterMap]
  constructor
  · rintro ⟨l, hl, hbb⟩
    cases l with
    | small m size => cases hbb
    | big bb' pgs size =>
      cases hbb
      exact ⟨pgs, size, hl⟩
  · rintro ⟨pgs, size, hl⟩
    exact ⟨_, hl, rfl⟩

theorem self_mem_orderPages (pgs ord : Nat) : pgs ∈ orderPages pgs ord := by
  rw [orderPages, Finset.mem_image]
  refine ⟨0, Finset.mem_range.mpr (Nat.two_pow_pos ord), ?_⟩
  rw [Nat.zero_mul, Nat.add_zero]

/-- The headers, the descriptors and the pages of the live blocks -/
structure Books (s : SlobMem) (P : Finset Nat) (live : List Live) : Prop where
  marked : ∀ m size, .small m size ∈ live → s.units m = slobUnits (size + slobUnit)
  order : ∀ bb pgs size, .big bb pgs size ∈ live → s.order bb = findOrder size
  pages : ∀ bb pgs size, .big bb pgs size ∈ live → s.pages bb = pgs
  chain : Threaded s.bbNext 0 s.bigblocks (bigs live)
  page : ∀ l ∈ live, ∀ p ∈ l.pages, p % 4096 = 0 ∧ s.arena + 16 < p ∧ p ∉ P
  apart : live.Pairwise fun l l' => Disjoint l.pages l'.pages
  taken : ∀ p, p ∈ s.taken ↔ p ∈ P ∨ ∃ l ∈ live, p ∈ l.pages

structure Inv (s : SlobMem) (F P : Finset Nat) (live : List Live) : Prop where
  heap : Heap s F P (live.map Live.block)
  books : Books s P live

/-! ## Changes elsewhere -/

/-- The order of the live blocks does not matter to the heap. -/
theorem Heap.perm (h : Heap s F P E) (hE : E.Perm E') : Heap s F P E' where
  arena := h.arena
  first := h.first
  blocks := h.blocks
  noTouch := h.noTouch
  live e he := h.live e (hE.mem_iff.mpr he)
  apart e he := h.apart e (hE.mem_iff.mpr he)
  distinct := by
    have hsymm : ∀ {e f : Nat × Nat}, (∀ a, InExt e a → ¬ InExt f a) → ∀ a, InExt f a → ¬ InExt e a :=
      fun hef a hf hea => hef a hea hf
    exact (hE.pairwise_iff hsymm).mp h.distinct
  own a ha := h.own a (ha.imp_right fun ⟨e, he, hea⟩ => ⟨e, hE.mem_iff.mpr he, hea⟩)
  account := by
    rw [← (hE.map Prod.snd).sum_eq]
    exact h.account
  page := h.page
  taken := h.taken

theorem Grown.trans (h : Grown s s1 P P1 E) (h' : Grown s1 s' P1 P' E) : Grown s s' P P' E where
  arena := h'.arena.trans h.arena
  bigblocks := h'.bigblocks.trans h.bigblocks
  pages := h.pages.trans h'.pages
  taken := by
    rw [h'.taken, h.taken, Finset.union_assoc, Finset.union_eq_right.mpr h'.pages]
  fresh p hp := by
    rcases h'.fresh p hp with hp | hp
    · exact h.fresh p hp
    · rw [h.taken, Finset.mem_union, not_or] at hp
      exact .inr hp.1
  lo e he a ha := (h'.lo e he a ha).trans (h.lo e he a ha)
  hi e he a ha := (h'.hi e he a ha).trans (h.hi e he a ha)

/-- The search of `slob_free` writes to no live block but the one that becomes free. -/
theorem SameBut.grown (h : SameBut s s' F b) (hheap : Heap s F P ((b, n) :: E)) : Grown s s' P P E := by
  have hout : ∀ e ∈ E, ∀ a, InExt e a → a ≠ b ∧ a ∉ F := by
    intro e he a ha
    constructor
    · rintro rfl
      exact List.rel_of_pairwise_cons hheap.distinct he a (hheap.inExt_start List.mem_cons_self) ha
    · exact fun haF => hheap.apart e (List.mem_cons_of_mem _ he) a ha (hheap.covered_start haF)
  refine ⟨h.arena, h.bigblocks, Finset.Subset.refl P, ?_, fun p hp => .inl hp, ?_, ?_⟩
  · rw [h.taken, Finset.union_eq_left.mpr hheap.taken]
  · intro e he a ha
    obtain ⟨hab, haF⟩ := hout e he a ha
    exact h.lo a hab haF
  · intro e he a ha
    obtain ⟨hab, haF⟩ := hout e he a ha
    exact h.hi a hab haF

theorem inExt_block (hl : l ∈ live) : l.block ∈ live.map Live.block := List.mem_map_of_mem hl

theorem inExt_first (l : Live) : InExt l.block l.block.1 := by
  have hpos := l.block_pos
  refine ⟨Nat.le_refl _, ?_⟩
  omega

/-- `bb->next` is in the block of the descriptor. -/
theorem inExt_bbNext (bb pgs size : Nat) : InExt (Live.big bb pgs size).block (bb + slobUnit) := by
  refine ⟨Nat.le_add_right bb _, ?_⟩
  show bb + 16 < bb + 16 * 2
  omega

/-- Only the memory of the live blocks matters, and pages may be added. -/
theorem Books.grown (h : Books s P live) (hg : Grown s s' P P' (live.map Live.block)) : Books s' P' live where
  marked m size hl := by
    rw [← h.marked m size hl]
    exact hg.lo _ (inExt_block hl) m (inExt_first (.small m size))
  order bb pgs size hl := by
    rw [← h.order bb pgs size hl]
    exact hg.lo _ (inExt_block hl) bb (inExt_first (.big bb pgs size))
  pages bb pgs size hl := by
    rw [← h.pages bb pgs size hl]
    exact hg.hi _ (inExt_block hl) bb (inExt_first (.big bb pgs size))
  chain := by
    rw [hg.bigblocks]
    refine h.chain.congr fun bb hbb => ?_
    obtain ⟨pgs, size, hl⟩ := mem_bigs.mp hbb
    exact hg.lo _ (inExt_block hl) _ (inExt_bbNext bb pgs size)
  page l hl p hp := by
    obtain ⟨hal, habove, hpP⟩ := h.page l hl p hp
    rw [hg.arena]
    refine ⟨hal, habove, fun hp' => ?_⟩
    rcases hg.fresh p hp' with hp' | hp'
    · exact hpP hp'
    · exact hp' ((h.taken p).mpr (.inr ⟨l, hl, hp⟩))
  apart := h.apart
  taken p := by
    rw [hg.taken, Finset.mem_union, h.taken]
    constructor
    · rintro ((hp | hp) | hp)
      · exact .inl (hg.pages hp)
      · exact .inr hp
      · exact .inl hp
    · rintro (hp | hp)
      · exact .inr hp
      · exact .inl (.inr hp)

/-- One more block of the heap. -/
theorem Books.addSmall (h : Books s P live) (hm : s.units m = slobUnits (size + slobUnit)) : Books s P (.small m size :: live) where
  marked m' size' hl := by
    rcases List.mem_cons.mp hl with he | hl
    · cases he
      exact hm
    · exact h.marked m' size' hl
  order bb pgs size' hl := h.order bb pgs size' (List.mem_of_ne_of_mem (fun he => by cases he) hl)
  pages bb pgs size' hl := h.pages bb pgs size' (List.mem_of_ne_of_mem (fun he => by cases he) hl)
  chain := h.chain
  page l hl p hp := by
    rcases List.mem_cons.mp hl with rfl | hl
    · exact absurd hp (Finset.notMem_empty p)
    · exact h.page l hl p hp
  apart := List.pairwise_cons.mpr ⟨fun _ _ => Finset.disjoint_empty_left _, h.apart⟩
  taken p := by
    rw [h.taken]
    refine or_congr_right ⟨fun ⟨l, hl, hp⟩ => ⟨l, List.mem_cons_of_mem _ hl, hp⟩, ?_⟩
    rintro ⟨l, hl, hp⟩
    rcases List.mem_cons.mp hl with rfl | hl
    · exact absurd hp (Finset.notMem_empty p)
    · exact ⟨l, hl, hp⟩

theorem mem_orderPages {ord : Nat} (hal : pgs % 4096 = 0) (hp : p ∈ orderPages pgs ord) : p % 4096 = 0 ∧ pgs ≤ p := by
  obtain ⟨i, -, rfl⟩ := Finset.mem_image.mp hp
  have hsize : pageSize = 4096 := rfl
  rw [hsize]
  omega

/-- More pages, whose descriptor comes to the front of `bigblocks`. -/
theorem Books.addBig (h : Books s P live) (hP : P ⊆ s.taken) (hgive : s.MayGive pgs (findOrder size)) (hbb : bb ≠ 0)
    (hlo : ∀ e ∈ live.map Live.block, ∀ a, InExt e a → s'.lo a = s.lo a)
    (hhi : ∀ e ∈ live.map Live.block, ∀ a, InExt e a → s'.hi a = s.hi a)
    (horder : s'.order bb = findOrder size) (hpages : s'.pages bb = pgs) (hnext : s'.bbNext bb = s.bigblocks)
    (hbig : s'.bigblocks = bb) (harena : s'.arena = s.arena) (htaken : s'.taken = s.taken ∪ orderPages pgs (findOrder size)) :
    Books s' P (.big bb pgs size :: live) where
  marked m size' hl := by
    have hl' := List.mem_of_ne_of_mem (fun he => by cases he) hl
    rw [← h.marked m size' hl']
    exact hlo _ (inExt_block hl') m (inExt_first (.small m size'))
  order bb' pgs' size' hl := by
    rcases List.mem_cons.mp hl with he | hl
    · cases he
      exact horder
    · rw [← h.order bb' pgs' size' hl]
      exact hlo _ (inExt_block hl) bb' (inExt_first (.big bb' pgs' size'))
  pages bb' pgs' size' hl := by
    rcases List.mem_cons.mp hl with he | hl
    · cases he
      exact hpages
    · rw [← h.pages bb' pgs' size' hl]
      exact hhi _ (inExt_block hl) bb' (inExt_first (.big bb' pgs' size'))
  chain := by
    rw [hbig]
    refine h.chain.push hbb hnext fun bb' hbb' => ?_
    obtain ⟨pgs', size', hl⟩ := mem_bigs.mp hbb'
    exact hlo _ (inExt_block hl) _ (inExt_bbNext bb' pgs' size')
  page l hl p hp := by
    rw [harena]
    rcases List.mem_cons.mp hl with rfl | hl
    · obtain ⟨hal, hle⟩ := mem_orderPages hgive.1 hp
      refine ⟨hal, Nat.lt_of_lt_of_le hgive.2.1 hle, fun hpP => ?_⟩
      exact Finset.disjoint_left.mp hgive.2.2 hp (hP hpP)
    · exact h.page l hl p hp
  apart := by
    refine List.pairwise_cons.mpr ⟨fun l hl => Finset.disjoint_left.mpr fun p hp hpl => ?_, h.apart⟩
    exact Finset.disjoint_left.mp hgive.2.2 hp ((h.taken p).mpr (.inr ⟨l, hl, hpl⟩))
  taken p := by
    rw [htaken, Finset.mem_union, h.taken]
    constructor
    · rintro ((hp | ⟨l, hl, hp⟩) | hp)
      · exact .inl hp
      · exact .inr ⟨l, List.mem_cons_of_mem _ hl, hp⟩
      · exact .inr ⟨_, List.mem_cons_self, hp⟩
    · rintro (hp | ⟨l, hl, hp⟩)
      · exact .inl (.inl hp)
      · rcases List.mem_cons.mp hl with rfl | hl
        · exact .inr hp
        · exact .inl (.inr ⟨l, hl, hp⟩)

end Ucore.Slob
