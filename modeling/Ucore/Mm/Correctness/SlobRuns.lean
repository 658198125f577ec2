import Mathlib.Algebra.BigOperators.Ring.Finset
import Ucore.Lib.Run
import Ucore.Mm.Correctness.SlobCalls

/-!
# `Mm.Correctness.SlobRuns` — `kmalloc` and `kfree` over whole runs

Blocks are allocated, written and freed in any order and of any size, while everybody else goes on with their own memory. As
long as each call finds another block on the free list than the one it works on, list and blocks stay as they should be. The
arena is such a block until somebody asks for no bytes at all.
-/

namespace Ucore.Slob

open Blocks

variable {s s' s1 : SlobMem} {F F' P P' P1 : Finset Nat} {E E' : List (Nat × Nat)} {live : List Live} {l l' : Live}
  {a b bb c m n p pgs ptr size x y : Nat}

/-! ## What others may do -/

namespace Live

/-- What the owner of the block may write to: all of it but the header. -/
def Holds : Live → Nat → Prop
  | small m size, a   => m + slobUnit ≤ a ∧ a < m + 16 * slobUnits (size + slobUnit)
  | big _ pgs size, a => a / 4096 * 4096 ∈ orderPages pgs (findOrder size)

end Live

/-- Memory that belongs to the owner of a live block, or that `kmalloc` never had -/
def SlobMem.Theirs (s : SlobMem) (live : List Live) (a : Nat) : Prop :=
  (∃ l ∈ live, l.Holds a) ∨ (¬ (s.arena ≤ a ∧ a < s.arena + 16) ∧ a / 4096 * 4096 ∉ s.taken)

/-- Everybody writes to their own memory, and asks for pages. -/
structure SlobMem.Untouched (s s' : SlobMem) (live : List Live) : Prop where
  arena : s'.arena = s.arena
  slobfree : s'.slobfree = s.slobfree
  bigblocks : s'.bigblocks = s.bigblocks
  taken : s'.taken = s.taken
  lo : ∀ a, ¬ s.Theirs live a → s'.lo a = s.lo a
  hi : ∀ a, ¬ s.Theirs live a → s'.hi a = s.hi a

/-- The heap is not in the pages of a big block. -/
theorem Inv.owned_pages (h : Inv s F P live) (ha : Owned s P a) (hl : l ∈ live) : a / 4096 * 4096 ∉ l.pages := by
  intro hp
  obtain ⟨-, habove, hpP⟩ := h.books.page l hl _ hp
  rcases ha with ⟨hlo, hhi⟩ | hmem
  · have hle := Nat.div_mul_le_self a 4096
    omega
  · exact hpP hmem

/-- What is in the heap is nobody else's, apart from the memory behind the headers. -/
theorem Inv.not_theirs (h : Inv s F P live) (ha : Owned s P a) (hsmall : ∀ l ∈ live, ∀ m size, l = .small m size → ¬ l.Holds a) :
    ¬ s.Theirs live a := by
  rintro (⟨l, hl, hla⟩ | ⟨hout, hnt⟩)
  · cases l with
    | small m size => exact hsmall _ hl m size rfl hla
    | big bb pgs size => exact h.owned_pages ha hl hla
  · rcases ha with ha | ha
    · exact hout ha
    · exact hnt (h.heap.taken ha)

theorem Live.inExt_of_holds (hla : (Live.small m size).Holds a) : InExt (Live.small m size).block a :=
  ⟨Nat.le_of_add_right_le hla.1, hla.2⟩

theorem Inv.free_not_theirs (h : Inv s F P live) (hx : x ∈ F) : ¬ s.Theirs live x := by
  have hcov := h.heap.covered_start hx
  refine h.not_theirs (h.heap.own x (.inl hcov)) ?_
  rintro l hl m size rfl hla
  exact h.heap.apart _ (inExt_block hl) x (Live.inExt_of_holds hla) hcov

theorem Inv.owned_of_live (h : Inv s F P live) (hl : l ∈ live) (ha : InExt l.block a) : Owned s P a :=
  h.heap.own a (.inr ⟨_, inExt_block hl, ha⟩)

theorem Inv.header_not_theirs (h : Inv s F P live) (hl : l ∈ live) : ¬ s.Theirs live l.block.1 := by
  have hin := inExt_first l
  refine h.not_theirs (h.owned_of_live hl hin) ?_
  rintro l' hl' m size rfl hla
  by_cases hne : l = .small m size
  · rw [hne] at hla
    have hle : m + 16 ≤ m := hla.1
    omega
  · exact h.apart hl hl' hne hin (Live.inExt_of_holds hla)

theorem Inv.descriptor_not_theirs (h : Inv s F P live) (hl : .big bb pgs size ∈ live) : ¬ s.Theirs live (bb + slobUnit) := by
  have hin := inExt_bbNext bb pgs size
  refine h.not_theirs (h.owned_of_live hl hin) ?_
  rintro l' hl' m size' rfl hla
  exact h.apart hl hl' (fun he => by cases he) hin (Live.inExt_of_holds hla)

theorem Inv.untouched (h : Inv s F P live) (hu : s.Untouched s' live) : Inv s' F P live where
  heap := by
    refine h.heap.congr hu.arena hu.slobfree (fun x hx => hu.lo x (h.free_not_theirs hx))
      (fun x hx => hu.hi x (h.free_not_theirs hx)) ?_
    rw [hu.taken]
    exact h.heap.taken
  books := by
    refine ⟨fun m size hl => ?_, fun bb pgs size hl => ?_, fun bb pgs size hl => ?_, ?_, fun l hl p hp => ?_, h.books.apart, ?_⟩
    · rw [← h.books.marked m size hl]
      exact hu.lo m (h.header_not_theirs hl)
    · rw [← h.books.order bb pgs size hl]
      exact hu.lo bb (h.header_not_theirs hl)
    · rw [← h.books.pages bb pgs size hl]
      exact hu.hi bb (h.header_not_theirs hl)
    · rw [hu.bigblocks]
      refine h.books.chain.congr fun bb hbb => ?_
      obtain ⟨pgs, size, hl⟩ := mem_bigs.mp hbb
      exact hu.lo _ (h.descriptor_not_theirs hl)
    · rw [hu.arena]
      exact h.books.page l hl p hp
    · rw [hu.taken]
      exact h.books.taken

/-! ## Runs -/

inductive SlobCall where
  | kmalloc (size : Nat)
  | kfree (l : Live)
  | others

/-- The memory, and the blocks that are live. -/
abbrev SlobState := SlobMem × List Live

def Started (a : SlobState) : Prop := ∃ arena pick, 0 < arena ∧ a = (slobInit arena pick, [])

/-- Only live blocks are freed. -/
inductive SlobStep : SlobState → SlobCall → SlobState → Prop where
  | kmalloc {s s' : SlobMem} {live : List Live} {size ptr fuel : Nat} (h : kmalloc fuel size s = .ok ptr s') (hptr : ptr ≠ 0) :
      SlobStep (s, live) (.kmalloc size) (s', added s' size ptr :: live)
  | noMem {s s' : SlobMem} {live : List Live} {size fuel : Nat} (h : kmalloc fuel size s = .ok 0 s') :
      SlobStep (s, live) (.kmalloc size) (s', live)
  | kfree {s s' : SlobMem} {live : List Live} {l : Live} {fuel : Nat} (hl : l ∈ live) (h : kfree fuel l.ptr s = .ok () s') :
      SlobStep (s, live) (.kfree l) (s', live.erase l)
  | others {s s' : SlobMem} {live : List Live} (h : s.Untouched s' live) : SlobStep (s, live) .others (s', live)

/-- The call finds another block on the free list than the one it works on. -/
def SlobOk (a : SlobState) : SlobCall → Prop
  | .kmalloc size => Spare a.1 (wanted size)
  | .kfree l      => Freeable a.1 a.2 l
  | .others       => True

/-- A call whose size fails the assertion does not return. -/
theorem passes_of_ok {fuel : Nat} (h : kmalloc fuel size s = .ok ptr s') : Passes size := by
  intro hsmall
  by_contra hfail
  rw [kmalloc, if_pos hsmall, slobAlloc] at h
  have hpanic : (Proc.check SlobPanic.tooLarge (size + slobUnit + slobUnit < pageSize) : SlobM Unit) s = .panic .tooLarge :=
    Proc.check_run_neg hfail s
  rw [Proc.bind_panic (Proc.bind_panic hpanic)] at h
  cases h

/-- **The step lemma.** -/
theorem slobStep_inv {a b : SlobState} {c : SlobCall} (hstep : SlobStep a c b) (hok : SlobOk a c)
    (h : ∃ F P, Inv a.1 F P a.2) : ∃ F P, Inv b.1 F P b.2 := by
  obtain ⟨F, P, h⟩ := h
  cases hstep with
  | kmalloc hrun hptr =>
    cases (h.kmalloc (passes_of_ok hrun) hok _).of_ok hrun with
    | null hnull => exact absurd hnull hptr
    | some _ _ _ F' P' h' => exact ⟨F', P', h'⟩
  | noMem hrun =>
    cases (h.kmalloc (passes_of_ok hrun) hok _).of_ok hrun with
    | null _ _ _ F' P' h' => exact ⟨F', P', h'⟩
    | some hptr => exact absurd rfl hptr
  | kfree hl hrun =>
    obtain ⟨F', h'⟩ := (h.kfree hl hok _).of_ok hrun
    exact ⟨F', P, h'.inv⟩
  | others hu => exact ⟨F, P, h.untouched hu⟩

theorem slobInit_inv {arena : Nat} (harena : 0 < arena) (pick : Nat → Nat → Option Nat) :
    Inv (slobInit arena pick) {arena} ∅ [] := by
  have hunits : (slobInit arena pick).units arena = 1 := by
    show Function.update (fun _ => 0) arena 1 arena = 1
    rw [Function.update_self]
  have hnext : (slobInit arena pick).next arena = arena := by
    show Function.update (fun _ => 0) arena arena arena = arena
    rw [Function.update_self]
  have hlen : (slobInit arena pick).len arena = 16 := congrArg (16 * ·) hunits
  refine ⟨⟨harena, Finset.mem_singleton_self _, ⟨?_, ?_, ?_⟩, ?_, ?_, ?_, List.Pairwise.nil, ?_, ?_, ?_, Finset.empty_subset _⟩,
    ⟨?_, ?_, ?_, rfl, ?_, List.Pairwise.nil, ?_⟩⟩
  · intro x hx
    rw [Finset.mem_singleton.mp hx, hnext]
    refine ⟨Finset.mem_singleton_self _, .inr ⟨Nat.le_refl _, fun z hz => ?_⟩⟩
    rw [Finset.mem_singleton.mp hz]
    exact ⟨Nat.le_refl _, Nat.le_refl _⟩
  · intro x hx
    rw [Finset.mem_singleton.mp hx, hlen]
    decide
  · intro x hx y hy hlt
    rw [Finset.mem_singleton.mp hx, Finset.mem_singleton.mp hy] at hlt
    exact absurd hlt (Nat.lt_irrefl _)
  · rintro x y ⟨hx, hy, hxy⟩
    rw [Finset.mem_singleton.mp hx, Finset.mem_singleton.mp hy, hlen] at hxy
    omega
  · exact fun e he => absurd he List.not_mem_nil
  · exact fun e he => absurd he List.not_mem_nil
  · rintro a (⟨x, hx, hxa⟩ | ⟨e, he, -⟩)
    · rw [Finset.mem_singleton.mp hx, hlen] at hxa
      exact .inl hxa
    · exact absurd he List.not_mem_nil
  · rw [total, Finset.sum_singleton, hlen]
    rfl
  · exact fun p hp => absurd hp (Finset.notMem_empty p)
  · exact fun m size hl => absurd hl List.not_mem_nil
  · exact fun bb pgs size hl => absurd hl List.not_mem_nil
  · exact fun bb pgs size hl => absurd hl List.not_mem_nil
  · exact fun l hl => absurd hl List.not_mem_nil
  · intro p
    refine iff_of_false (Finset.notMem_empty p) ?_
    rintro (hp | ⟨l, hl, -⟩)
    · exact Finset.notMem_empty p hp
    · exact List.not_mem_nil hl

/-- **The run lemma.** -/
theorem inv_of_reaches {a : SlobState} (h : Reaches Started SlobStep SlobOk a) : ∃ F P, Inv a.1 F P a.2 := by
  refine h.invariant (I := fun a : SlobState => ∃ F P, Inv a.1 F P a.2) ?_ ?_
  · rintro _ ⟨arena, pick, harena, rfl⟩
    exact ⟨_, _, slobInit_inv harena pick⟩
  · intro a c b ha hok hstep
    exact slobStep_inv hstep hok ha

/-! ## Where the arena stays free -/

theorem two_le_wanted (hsize : 0 < size) : 2 ≤ wanted size := by
  rw [wanted]
  split
  · show 2 ≤ (size + 16 + 15) / 16
    omega
  · decide

theorem two_le_block (hl : 0 < l.size) : 2 ≤ l.block.2 := by
  cases l with
  | small m size =>
    have hl' : 0 < size := hl
    show 2 ≤ (size + 16 + 15) / 16
    omega
  | big bb pgs size =>
    show 2 ≤ slobUnits bigblockSize
    decide

theorem Inv.arena_le (h : Inv s F P live) (ha : Owned s P a) : s.arena ≤ a := by
  rcases ha with ⟨hlo, -⟩ | hmem
  · exact hlo
  · have hp := (h.heap.page _ hmem).2
    have hle := Nat.div_mul_le_self a 4096
    omega

/-- Behind the arena there is other memory. -/
theorem Inv.not_owned (h : Inv s F P live) : ¬ Owned s P (s.arena + 16) := by
  rintro (⟨-, hlt⟩ | hmem)
  · omega
  · have hp := (h.heap.page _ hmem).2
    have hle := Nat.div_mul_le_self (s.arena + 16) 4096
    omega

theorem Inv.arena_units (h : Inv s F P live) (ha : s.arena ∈ F) : s.units s.arena < 2 := by
  by_contra hge
  refine h.not_owned (h.heap.own _ (.inl ⟨s.arena, ha, Nat.le_add_right _ _, ?_⟩))
  have hlen : s.len s.arena = 16 * s.units s.arena := rfl
  omega

/-- The arena is the other block on the list. -/
theorem Inv.spare (h : Inv s F P live) (ha : s.arena ∈ F) (hsize : 0 < size) : Spare s (wanted size) where
  found := by
    rintro ⟨x, hx, hn⟩ hlone
    have hwanted := two_le_wanted hsize
    have hunits := h.arena_units ha
    have hxF := h.heap.onList_iff.mp hx
    have hF := lone_of_next h.heap.blocks h.heap.first hlone
    rw [hF, Finset.mem_singleton] at ha hxF
    rw [ha, ← hxF] at hunits
    omega
  page _ p hp := by
    refine ⟨s.arena, h.heap.onList_iff.mpr ha, ?_⟩
    have hunits := h.arena_units ha
    rcases slobGetFreePages_cases s 0 with ⟨hnone, -⟩ | ⟨q, hq, hgive, -⟩
    · rw [hnone] at hp
      cases hp
    · rw [hq] at hp
      cases hp
      have habove : s.arena + 16 < p := hgive.2.1
      omega

/-- The pointer of a block that is not empty is no other block's. -/
theorem Inv.named (h : Inv s F P live) (hl : l ∈ live) (hsize : 0 < l.size) (hb : .big bb pgs size ∈ live) (hptr : pgs = l.ptr) :
    l = .big bb pgs size := by
  cases l with
  | small m size' =>
    -- the pointer leads into the heap
    have hunits := two_le_block hsize
    have hin : InExt (Live.small m size').block (m + slobUnit) := by
      refine ⟨Nat.le_add_right m _, ?_⟩
      show m + 16 < m + 16 * (Live.small m size').block.2
      omega
    have hpgs : pgs % 4096 = 0 := (h.books.page _ hb pgs (self_mem_orderPages pgs _)).1
    have hout := h.owned_pages (h.owned_of_live hl hin) hb
    have hfirst : (m + slobUnit) / 4096 * 4096 = pgs := by
      have he : pgs = m + slobUnit := hptr
      omega
    rw [hfirst] at hout
    exact absurd (self_mem_orderPages pgs _) hout
  | big bb' pgs' size' =>
    by_contra hne
    have hsymm : Std.Symm fun l l' : Live => Disjoint l.pages l'.pages := ⟨fun _ _ hll => hll.symm⟩
    have hdis := h.books.apart.forall hl hb hne
    have he : pgs = pgs' := hptr
    rw [he] at hdis
    exact Finset.disjoint_left.mp hdis (self_mem_orderPages pgs' _) (self_mem_orderPages pgs' _)

theorem Inv.freeable (h : Inv s F P live) (ha : s.arena ∈ F) (hl : l ∈ live) (hsize : 0 < l.size) : Freeable s live l where
  spare := by
    intro hlone
    have hF := lone_of_next h.heap.blocks h.heap.first hlone
    rw [hF, Finset.mem_singleton] at ha
    have hle := h.arena_le (h.owned_of_live hl (inExt_first l))
    have hpos := l.block_pos
    omega
  named _ _ _ hb hptr := h.named hl hsize hb hptr

/-- The unit of the arena can only be covered by the arena itself. -/
theorem Inv.arena_mem (h : Inv s F P live) (hcov : Covered F s.len s.arena) : s.arena ∈ F := by
  obtain ⟨x, hx, hle, hlt⟩ := hcov
  have hge := h.arena_le (h.heap.own x (.inl (h.heap.covered_start hx)))
  obtain rfl : x = s.arena := by omega
  exact hx

theorem Inv.arena_notMem (h : Inv s F P live) (hl : l ∈ live) (hsize : 0 < l.size) : ¬ InExt l.block s.arena := by
  rintro ⟨hle, hlt⟩
  have hge := h.arena_le (h.owned_of_live hl (inExt_first l))
  have hunits := two_le_block hsize
  exact h.not_owned (h.owned_of_live hl ⟨by omega, by omega⟩)

theorem added_size (s' : SlobMem) (size ptr : Nat) : (added s' size ptr).size = size := by
  rw [added]
  split
  · rfl
  · rfl

/-- No call asks for no bytes. -/
def Positive (_ : SlobState) : SlobCall → Prop
  | .kmalloc size => 0 < size
  | .kfree _      => True
  | .others       => True

/-- The arena is free, and no live block is empty. -/
def ArenaFree (a : SlobState) : Prop := ∃ F P, Inv a.1 F P a.2 ∧ a.1.arena ∈ F ∧ ∀ l ∈ a.2, 0 < l.size

theorem slobStep_arenaFree {a b : SlobState} {c : SlobCall} (hstep : SlobStep a c b) (hpos : Positive a c) (h : ArenaFree a) :
    SlobOk a c ∧ ArenaFree b := by
  obtain ⟨F, P, h, ha, hlive⟩ := h
  cases hstep with
  | @kmalloc s s' live size ptr fuel hrun hptr =>
    have hspare := h.spare ha hpos
    refine ⟨hspare, ?_⟩
    cases (h.kmalloc (passes_of_ok hrun) hspare _).of_ok hrun with
    | null hnull => exact absurd hnull hptr
    | some _ _ harena F' P' h' _ _ hcov =>
      have hsizes : ∀ l ∈ added s' size ptr :: live, 0 < l.size := by
        intro l hl
        rcases List.mem_cons.mp hl with rfl | hl
        · rw [added_size]
          exact hpos
        · exact hlive l hl
      refine ⟨F', P', h', h'.arena_mem ?_, hsizes⟩
      rw [harena]
      refine (hcov _ (h.heap.covered_start ha)).resolve_right ?_
      rw [← harena]
      exact h'.arena_notMem List.mem_cons_self (hsizes _ List.mem_cons_self)
  | noMem hrun =>
    have hspare := h.spare ha hpos
    refine ⟨hspare, ?_⟩
    cases (h.kmalloc (passes_of_ok hrun) hspare _).of_ok hrun with
    | null _ _ harena F' P' h' hcov =>
      refine ⟨F', P', h', h'.arena_mem ?_, hlive⟩
      rw [harena]
      exact hcov _ (h.heap.covered_start ha)
    | some hptr => exact absurd rfl hptr
  | kfree hl hrun =>
    have hok := h.freeable ha hl (hlive _ hl)
    obtain ⟨F', h'⟩ := (h.kfree hl hok _).of_ok hrun
    refine ⟨hok, F', P, h'.inv, h'.inv.arena_mem ?_, fun l hl => hlive l (List.mem_of_mem_erase hl)⟩
    rw [h'.arena, h'.units]
    exact .inl (h.heap.covered_start ha)
  | others hu =>
    refine ⟨trivial, F, P, h.untouched hu, ?_, hlive⟩
    rw [hu.arena]
    exact ha

/-- **Without empty blocks** each call finds the arena on the free list. -/
theorem arenaFree_of_reaches {a : SlobState} (h : Reaches Started SlobStep Positive a) :
    Reaches Started SlobStep SlobOk a ∧ ArenaFree a := by
  refine h.invariant (I := fun a => Reaches Started SlobStep SlobOk a ∧ ArenaFree a) ?_ ?_
  · rintro _ ⟨arena, pick, harena, rfl⟩
    refine ⟨.start ⟨arena, pick, harena, rfl⟩, _, _, slobInit_inv harena pick, ?_, fun l hl => absurd hl List.not_mem_nil⟩
    exact Finset.mem_singleton_self arena
  · rintro a c b ⟨hreach, ha⟩ hpos hstep
    obtain ⟨hok, hb⟩ := slobStep_arenaFree hstep hpos ha
    exact ⟨hreach.next hok hstep, hb⟩

/-! ## What is right about the heap -/

/-- The free list, the `live` blocks and the heap's pages `P`, in a state in which nothing is wrong. -/
structure Right (s : SlobMem) (live : List Live) (F P : Finset Nat) : Prop where
  /-- The list is one circle in ascending order, with a single wrap. -/
  onList : ∀ x, s.OnList x ↔ x ∈ F
  circle : ∀ x ∈ F, ∃ k, s.next^[k] x = s.slobfree
  ascending : ∀ x ∈ F, CycNext F x (s.next x)
  noTouch : ∀ x ∈ F, ∀ y ∈ F, x + 16 * s.units x ≠ y
  /-- Free blocks and live blocks are apart, and big blocks are in pages of their own. -/
  freeApart : ∀ x ∈ F, ∀ y ∈ F, x < y → x + 16 * s.units x ≤ y
  liveApart : live.Pairwise fun l l' => ∀ a, InExt l.block a → ¬ InExt l'.block a
  apart : ∀ l ∈ live, ∀ x ∈ F, x + 16 * s.units x ≤ l.block.1 ∨ l.block.1 + 16 * l.block.2 ≤ x
  own : ∀ a, (∃ x ∈ F, InExt (x, s.units x) a) ∨ (∃ l ∈ live, InExt l.block a) → Owned s P a
  pagesApart : live.Pairwise fun l l' => Disjoint l.pages l'.pages
  heapApart : ∀ l ∈ live, Disjoint l.pages P
  /-- All units are accounted for, and so are all pages. -/
  units : ∑ x ∈ F, s.units x + (live.map fun l => l.block.2).sum = pageSize / slobUnit * P.card + 1
  taken : ∀ p, p ∈ s.taken ↔ p ∈ P ∨ ∃ l ∈ live, p ∈ l.pages
  /-- All searches come to an end. -/
  kmalloc : ∀ size, Passes size → Spare s (wanted size) → ∃ N, ∀ fuel, N < fuel → ∃ ptr s', Slob.kmalloc fuel size s = .ok ptr s'
  kfree : ∀ l ∈ live, Freeable s live l → ∃ N, ∀ fuel, N < fuel → ∃ s', Slob.kfree fuel l.ptr s = .ok () s'

/-- A call that has enough rounds returns. -/
theorem returns_of_meets {α : Type} {m : Nat → SlobM α} {Q : α → SlobMem → Prop} {N : Nat}
    (h : ∀ fuel, (m fuel s).Meets Q (fun _ _ => False) fun p => p = .noEnd ∧ fuel ≤ N) :
    ∃ N, ∀ fuel, N < fuel → ∃ r s', m fuel s = .ok r s' ∧ Q r s' := by
  refine ⟨N, fun fuel hfuel => ?_⟩
  have hm := h fuel
  cases hrun : m fuel s with
  | ok r s' => exact ⟨r, s', rfl, hm.of_ok hrun⟩
  | err e s' => exact (hm.of_err hrun).elim
  | panic p =>
    have hp := (hm.of_panic hrun).2
    omega

theorem Inv.right (h : Inv s F P live) : Right s live F P where
  onList _ := h.heap.onList_iff
  circle _ hx := h.heap.blocks.reach h.heap.first hx
  ascending := h.heap.blocks.ring
  noTouch x hx y hy hxy := h.heap.noTouch x y ⟨hx, hy, hxy⟩
  freeApart := h.heap.blocks.packed
  liveApart := List.pairwise_map.mp h.heap.distinct
  apart l hl x hx := h.heap.apart_free (inExt_block hl) hx
  own a ha := by
    refine h.heap.own a (ha.imp_right ?_)
    rintro ⟨l, hl, hla⟩
    exact ⟨_, inExt_block hl, hla⟩
  pagesApart := h.books.apart
  heapApart l hl := Finset.disjoint_left.mpr fun p hp => (h.books.page l hl p hp).2.2
  units := by
    have hacc := h.heap.account
    have htotal : total F s.len = 16 * ∑ x ∈ F, s.units x := (Finset.mul_sum F s.units 16).symm
    rw [List.map_map] at hacc
    show _ + ((live.map (Prod.snd ∘ Live.block))).sum = 256 * P.card + 1
    omega
  taken := h.books.taken
  kmalloc size hpass hspare := by
    obtain ⟨N, hN⟩ := returns_of_meets (m := fun fuel => Slob.kmalloc fuel size) fun fuel => h.kmalloc hpass hspare fuel
    refine ⟨N, fun fuel hfuel => ?_⟩
    obtain ⟨ptr, s', hrun, -⟩ := hN fuel hfuel
    exact ⟨ptr, s', hrun⟩
  kfree l hl hok := by
    obtain ⟨N, hN⟩ := returns_of_meets (m := fun fuel => Slob.kfree fuel l.ptr) fun fuel => h.kfree hl hok fuel
    refine ⟨N, fun fuel hfuel => ?_⟩
    obtain ⟨u, s', hrun, -⟩ := hN fuel hfuel
    exact ⟨s', hrun⟩

/-- **Free list and live blocks stay in order** in runs whose calls find another block on the free list. -/
theorem slob_reached (h : Reaches Started SlobStep SlobOk (s, live)) : ∃ F P, Right s live F P := by
  obtain ⟨F, P, hinv⟩ := inv_of_reaches h
  exact ⟨F, P, hinv.right⟩

/-- Page `n` of each request is at `n + 2` pages from the bottom. -/
def slobFresh : SlobMem := slobInit 4096 fun n _ => some ((n + 2) * pageSize)

/-- 100 bytes come from a new page, as the arena has only one unit. -/
theorem slob_reached_small : ∃ s F P, kmalloc 100 100 slobFresh = .ok 8208 s ∧ Right s [.small 8192 100] F P := by
  have htest : (kmalloc 100 100 slobFresh).test (fun ptr _ => decide (ptr = 8208)) = true := by
    decide +kernel
  obtain ⟨ptr, s, hrun, hptr⟩ := Outcome.exists_of_test htest
  obtain rfl := of_decide_eq_true hptr
  have hinit : Inv slobFresh {4096} ∅ [] := slobInit_inv (by decide) _
  have hok : SlobOk (slobFresh, []) (.kmalloc 100) := hinit.spare (Finset.mem_singleton_self 4096) (by decide)
  have hstart : Started (slobFresh, []) := ⟨4096, _, by decide, rfl⟩
  have hreach : Reaches Started SlobStep SlobOk (s, [.small 8192 100]) := .next (.start hstart) hok (.kmalloc hrun (by decide))
  obtain ⟨F, P, hright⟩ := slob_reached hreach
  exact ⟨s, F, P, hrun, hright⟩

/-- **The arena is handed out** to one who asks for no bytes, and stays on the free list. -/
theorem slob_arena_given : ∃ s, Reaches Started SlobStep (fun _ _ => True) (s, [.small 4096 0]) ∧
    ∀ F P, ¬ Right s [.small 4096 0] F P := by
  have htest : (kmalloc 100 0 slobFresh).test (fun ptr s => decide (ptr = 4112 ∧ s.slobfree = 4096 ∧ s.units 4096 = 1)) = true := by
    decide +kernel
  obtain ⟨ptr, s, hrun, hptr⟩ := Outcome.exists_of_test htest
  obtain ⟨rfl, hfirst, hunits⟩ := of_decide_eq_true hptr
  have hstart : Started (slobFresh, []) := ⟨4096, _, by decide, rfl⟩
  refine ⟨s, .next (.start hstart) trivial (.kmalloc hrun (by decide)), fun F P hright => ?_⟩
  -- the block is free and live
  have hF : 4096 ∈ F := (hright.onList 4096).mp ⟨0, hfirst⟩
  have hapart := hright.apart _ List.mem_cons_self 4096 hF
  rw [hunits] at hapart
  exact absurd hapart (by decide)

end Ucore.Slob
