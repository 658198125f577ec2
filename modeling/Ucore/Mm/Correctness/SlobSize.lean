import Ucore.Mm.Correctness.SlobRuns

/-!
# `Mm.Correctness.SlobSize` — how much `kmalloc` returns

Sizes are served in two ways: with a header in front, or in pages of their own. Between the two there is a gap, where the block
with its header is too long for `slob_alloc`; and `find_order` rounds down what is no power of two. For all other sizes the
block is large enough, apart from everything else, and `kfree` gives back exactly what it had.
-/

namespace Ucore.Slob

open Blocks

variable {s s' s1 : SlobMem} {F F' P P' P1 : Finset Nat} {live : List Live} {l l' : Live} {a i ptr size : Nat}

/-! ## The contract -/

/-- The address is in a block on the free list. -/
def SlobMem.FreeAt (s : SlobMem) (a : Nat) : Prop := ∃ x, s.OnList x ∧ InExt (x, s.units x) a

/-- `kfree` of the block returns exactly what was taken for it. -/
def Frees (s : SlobMem) (l : Live) : Prop :=
  ∃ N, ∀ fuel, N < fuel → ∃ s', kfree fuel l.ptr s = .ok () s' ∧
    (∀ a, s'.FreeAt a ↔ s.FreeAt a ∨ InExt l.block a) ∧ s'.taken = s.taken \ l.pages

/-- `ptr` leads to `size` bytes that were taken for this block, and belong to no other one. -/
structure Good (s' : SlobMem) (live : List Live) (size ptr : Nat) : Prop where
  bytes : ∀ i < size, (added s' size ptr).Holds (ptr + i)
  own : ∀ a, (added s' size ptr).Holds a → (s'.arena ≤ a ∧ a < s'.arena + 16) ∨ a / 4096 * 4096 ∈ s'.taken
  apart : ∀ l ∈ live, ∀ a, (added s' size ptr).Holds a → ¬ l.Holds a
  free : ∀ a, (added s' size ptr).Holds a → ¬ s'.FreeAt a
  named : (added s' size ptr).ptr = ptr
  kfree : Frees s' (added s' size ptr)

/-- The call fails no assertion, and returns `NULL` or a block as it should be. -/
def Contract (s : SlobMem) (live : List Live) (size : Nat) : Prop :=
  ∃ N, ∀ fuel, N < fuel → ∃ ptr s', kmalloc fuel size s = .ok ptr s' ∧ (ptr = 0 ∨ Good s' live size ptr)

/-- The block with its header passes the assertion, or the pages are large enough. -/
def Fits (s : SlobMem) (size : Nat) : Prop :=
  size + slobUnit + slobUnit < pageSize ∨
    ¬ size < pageSize - slobUnit ∧ (size ≤ pageSize * 2 ^ findOrder size ∨ Refused s size)

/-! ## What a block holds -/

theorem Inv.freeAt_iff (h : Inv s F P live) : s.FreeAt a ↔ Covered F s.len a := by
  constructor
  · rintro ⟨x, hx, hxa⟩
    exact ⟨x, h.heap.onList_iff.mp hx, hxa⟩
  · rintro ⟨x, hx, hxa⟩
    exact ⟨x, h.heap.onList_iff.mpr hx, hxa⟩

theorem Inv.frees (h : Inv s F P live) (hl : l ∈ live) (hok : Freeable s live l) : Frees s l := by
  obtain ⟨N, hN⟩ := returns_of_meets (m := fun fuel => Slob.kfree fuel l.ptr) fun fuel => h.kfree hl hok fuel
  refine ⟨N, fun fuel hfuel => ?_⟩
  obtain ⟨u, s', hrun, F', h'⟩ := hN fuel hfuel
  refine ⟨s', hrun, fun a => ?_, h'.taken⟩
  rw [h'.inv.freeAt_iff, h.freeAt_iff]
  exact h'.units a

theorem Live.own_of_holds (ha : l.Holds a) : InExt l.block a ∨ a / 4096 * 4096 ∈ l.pages := by
  cases l with
  | small m size => exact .inl (Live.inExt_of_holds ha)
  | big bb pgs size => exact .inr ha

/-- A live block holds nothing that is free, or that another one holds. -/
theorem Inv.holds_notFree (h : Inv s F P live) (hl : l ∈ live) (ha : l.Holds a) : ¬ s.FreeAt a := by
  rw [h.freeAt_iff]
  intro hcov
  rcases Live.own_of_holds ha with hin | hpage
  · exact h.heap.apart _ (inExt_block hl) a hin hcov
  · exact h.owned_pages (h.heap.own a (.inl hcov)) hl hpage

theorem Inv.holds_apart (h : Inv s F P live) (hl : l ∈ live) (hl' : l' ∈ live) (hne : l ≠ l') (ha : l.Holds a) : ¬ l'.Holds a := by
  intro ha'
  have hsymm : Std.Symm fun l l' : Live => Disjoint l.pages l'.pages := ⟨fun _ _ hll => hll.symm⟩
  rcases Live.own_of_holds ha with hin | hpage
  · rcases Live.own_of_holds ha' with hin' | hpage'
    · exact h.apart hl hl' hne hin hin'
    · exact h.owned_pages (h.owned_of_live hl hin) hl' hpage'
  · rcases Live.own_of_holds ha' with hin' | hpage'
    · exact h.owned_pages (h.owned_of_live hl' hin') hl hpage
    · exact Finset.disjoint_left.mp (h.books.apart.forall hl hl' hne) hpage hpage'

theorem Inv.holds_taken (h : Inv s F P live) (hl : l ∈ live) (ha : l.Holds a) :
    (s.arena ≤ a ∧ a < s.arena + 16) ∨ a / 4096 * 4096 ∈ s.taken := by
  rcases Live.own_of_holds ha with hin | hpage
  · exact (h.owned_of_live hl hin).imp_right fun hp => h.heap.taken hp
  · exact .inr ((h.books.taken _).mpr (.inr ⟨l, hl, hpage⟩))

/-- The bytes behind the header are enough. -/
theorem small_holds {m : Nat} (hi : i < size) : (Live.small m size).Holds (m + slobUnit + i) := by
  have hunits : slobUnits (size + slobUnit) = (size + 16 + 15) / 16 := rfl
  have hunit : slobUnit = 16 := rfl
  refine ⟨Nat.le_add_right _ _, ?_⟩
  omega

/-- The pages are enough for the bytes in them. -/
theorem big_holds_iff {bb pgs : Nat} (hal : pgs % 4096 = 0) :
    (Live.big bb pgs size).Holds (pgs + i) ↔ i < pageSize * 2 ^ findOrder size := by
  have hsize : pageSize = 4096 := rfl
  show (pgs + i) / 4096 * 4096 ∈ orderPages pgs (findOrder size) ↔ _
  rw [orderPages, Finset.mem_image, hsize]
  constructor
  · rintro ⟨k, hk, hpage⟩
    have hk' := Finset.mem_range.mp hk
    omega
  · intro hi
    refine ⟨i / 4096, Finset.mem_range.mpr (by omega), ?_⟩
    omega

/-! ## Which sizes -/

/-- What `kmalloc` returns is as it should be, if the size is not rounded down. -/
theorem Kmalloced.good (h : Kmalloced s F live size ptr s') (hpos : 0 < size)
    (hfit : size < pageSize - slobUnit ∨ size ≤ pageSize * 2 ^ findOrder size) : ptr = 0 ∨ Good s' live size ptr := by
  cases h with
  | null hptr => exact .inl hptr
  | some hptr hgiven harena F' P' h' hadded hlone hcov =>
    have hmem : added s' size ptr ∈ added s' size ptr :: live := List.mem_cons_self
    have hsize : 0 < (added s' size ptr).size := by
      rw [added_size]
      exact hpos
    have hfree : Freeable s' (added s' size ptr :: live) (added s' size ptr) := by
      refine ⟨fun hnext => ?_, fun _ _ _ hb hpgs => h'.named hmem hsize hb hpgs⟩
      exact hlone _ (lone_of_next h'.heap.blocks h'.heap.first hnext)
    refine .inr ⟨fun i hi => ?_, fun a => h'.holds_taken hmem, fun l hl a ha => ?_, fun a => h'.holds_notFree hmem, hadded,
      h'.frees hmem hfree⟩
    · by_cases hsmall : size < pageSize - slobUnit
      · have hadd : added s' size ptr = .small (ptr - slobUnit) size := if_pos hsmall
        rw [hadd] at hadded ⊢
        rw [← hadded]
        exact small_holds hi
      · have hadd : added s' size ptr = .big s'.bigblocks ptr size := if_neg hsmall
        rw [hadd] at h' ⊢
        have hal := (h'.books.page _ List.mem_cons_self ptr (self_mem_orderPages ptr _)).1
        rw [big_holds_iff hal]
        have hle := hfit.resolve_left hsmall
        omega
    · refine h'.holds_apart hmem (List.mem_cons_of_mem _ hl) ?_ ha
      -- the new block is none of the others, as they are apart from it
      rintro rfl
      have hin := inExt_first (added s' size ptr)
      exact List.rel_of_pairwise_cons (List.pairwise_map.mp h'.heap.distinct) hl _ hin hin

/-- **The contract** is kept exactly for the sizes that fit. -/
theorem Inv.contract_iff (h : Inv s F P live) (hpos : 0 < size) (hspare : Spare s (wanted size)) :
    Contract s live size ↔ Fits s size := by
  have hpass : Passes size → ∃ N, ∀ fuel, N < fuel → ∃ ptr s', Slob.kmalloc fuel size s = .ok ptr s' ∧
      Kmalloced s F live size ptr s' := fun hp =>
    returns_of_meets (m := fun fuel => Slob.kmalloc fuel size) fun fuel => h.kmalloc hp hspare fuel
  constructor
  · rintro ⟨N, hN⟩
    obtain ⟨ptr, s', hrun, hgood⟩ := hN (N + 1) (Nat.lt_succ_self N)
    have hp := passes_of_ok hrun
    by_cases hsmall : size < pageSize - slobUnit
    · exact .inl (hp hsmall)
    · refine .inr ⟨hsmall, ?_⟩
      by_contra hnot
      obtain ⟨hlong, hgiven⟩ := not_or.mp hnot
      -- the byte behind the pages is not held
      cases (h.kmalloc hp hspare _).of_ok hrun with
      | null _ hrefused => exact hgiven hrefused
      | some hptr _ _ F' P' h' =>
        have hbytes := (hgood.resolve_left hptr).bytes (pageSize * 2 ^ findOrder size) (by omega)
        have hadd : added s' size ptr = .big s'.bigblocks ptr size := if_neg hsmall
        rw [hadd] at h' hbytes
        have hal := (h'.books.page _ List.mem_cons_self ptr (self_mem_orderPages ptr _)).1
        exact Nat.lt_irrefl _ ((big_holds_iff hal).mp hbytes)
  · rintro (hsmall | ⟨hbig, hfit⟩)
    · obtain ⟨N, hN⟩ := hpass fun _ => hsmall
      refine ⟨N, fun fuel hfuel => ?_⟩
      obtain ⟨ptr, s', hrun, hk⟩ := hN fuel hfuel
      have hlt : size < pageSize - slobUnit := Nat.lt_sub_of_add_lt (Nat.lt_of_add_right_lt hsmall)
      exact ⟨ptr, s', hrun, hk.good hpos (.inl hlt)⟩
    · obtain ⟨N, hN⟩ := hpass fun hlt => absurd hlt hbig
      refine ⟨N, fun fuel hfuel => ?_⟩
      obtain ⟨ptr, s', hrun, hk⟩ := hN fuel hfuel
      refine ⟨ptr, s', hrun, ?_⟩
      rcases hfit with hfit | hrefused
      · exact hk.good hpos (.inr hfit)
      · -- nothing is returned
        cases hk with
        | null hptr => exact .inl hptr
        | some _ hgiven => exact absurd hrefused hgiven

/-- **What `kmalloc` returns**, and what `kfree` gives back, in runs whose calls find another block on the free list; that is
each run without calls for no bytes. -/
theorem kmalloc_contract (h : Reaches Started SlobStep SlobOk (s, live)) :
    (∀ size, 0 < size → Spare s (wanted size) → (Contract s live size ↔ Fits s size)) ∧
    (∀ l ∈ live, Freeable s live l → Frees s l) ∧
    (Reaches Started SlobStep Positive (s, live) →
      (∀ size, 0 < size → Spare s (wanted size)) ∧ ∀ l ∈ live, Freeable s live l) := by
  obtain ⟨F, P, hinv⟩ := inv_of_reaches h
  refine ⟨fun size hpos hspare => hinv.contract_iff hpos hspare, fun l hl hok => hinv.frees hl hok, fun hreach => ?_⟩
  obtain ⟨-, F', P', hinv', harena, hsizes⟩ := arenaFree_of_reaches hreach
  exact ⟨fun size hpos => hinv'.spare harena hpos, fun l hl => hinv'.freeable harena hl (hsizes l hl)⟩

/-- In the beginning, 8192 bytes are served as they should be. -/
theorem kmalloc_contract_pages : Contract slobFresh [] 8192 := by
  have hstart : Started (slobFresh, []) := ⟨4096, _, by decide, rfl⟩
  obtain ⟨hiff, -, hok⟩ := kmalloc_contract (.start hstart)
  have hspare := (hok (.start hstart)).1 8192 (by decide)
  exact (hiff 8192 (by decide) hspare).mpr (.inr ⟨by decide, .inl (by decide)⟩)

/-- Just below a page the assertion fails; and behind two pages a byte is missing. -/
theorem kmalloc_breaks_contract : ¬ Contract slobFresh [] 4070 ∧ ¬ Contract slobFresh [] 8193 := by
  have hinit : Inv slobFresh {4096} ∅ [] := slobInit_inv (by decide) _
  have hspare : ∀ size, 0 < size → Spare slobFresh (wanted size) := fun size => hinit.spare (Finset.mem_singleton_self 4096)
  rw [hinit.contract_iff (by decide) (hspare _ (by decide)), hinit.contract_iff (by decide) (hspare _ (by decide))]
  constructor
  · rintro (hsmall | ⟨hbig, -⟩)
    · exact absurd hsmall (by decide)
    · exact hbig (by decide)
  · rintro (hsmall | ⟨-, hlong | hrefused⟩)
    · exact absurd hsmall (by decide)
    · exact absurd hlong (by decide)
    · -- both requests are granted
      have hgrant : slobFresh.grant 0 = some 8192 := by decide +kernel
      cases hrefused with
      | page _ h =>
        rw [hgrant] at h
        cases h
      | pages _ hfound =>
        obtain ⟨x, hx, hn⟩ := hfound
        obtain rfl := Finset.mem_singleton.mp (hinit.heap.onList_iff.mp hx)
        exact absurd hn (by decide)
      | both _ _ p hp h =>
        rw [hgrant] at hp
        cases hp
        exact absurd h (by decide +kernel)

end Ucore.Slob
