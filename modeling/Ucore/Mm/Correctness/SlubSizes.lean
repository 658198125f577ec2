import Ucore.Mm.Correctness.SlubRuns

/-!
# `Mm.Correctness.SlubSizes` — for which object sizes a slab comes out right

`kmem_cache_create` divides the room in a slab by the object size, and `kmem_cache_grow` writes a pointer into every slot.
A pointer needs 8 bytes, which nobody checks: smaller slots overlap in their pointers, and a size of zero is divided by.
-/

namespace Ucore

variable {s s1 : Slub} {cache size slabOrder num p : Nat}

/-- `sizeof(struct free_object)` -/
def freeObject : Nat := 8

/-- The nodes of a free list: `num` of them, whose slots and whose pointers do not overlap, in the page at `p` behind the
header. -/
structure SlabNodes (size num p : Nat) (nodes : List Nat) : Prop where
  length : nodes.length = num
  nodup : nodes.Nodup
  slotsApart : ∀ o ∈ nodes, ∀ o' ∈ nodes, o ≠ o' → o + size ≤ o' ∨ o' + size ≤ o
  nextsApart : ∀ o ∈ nodes, ∀ o' ∈ nodes, o ≠ o' → o + freeObject ≤ o' ∨ o' + freeObject ≤ o
  slotsInside : ∀ o ∈ nodes, p + slabHeader ≤ o ∧ o + size ≤ p + slabPgsize
  nextsInside : ∀ o ∈ nodes, p + slabHeader ≤ o ∧ o + freeObject ≤ p + slabPgsize

/-- Whatever page `kmem_cache_grow` finds for the cache, it builds such a free list in it. -/
def GrowsWell (cache size num : Nat) : Prop :=
  ∀ t : Slub, (t.cache cache).objSize = size → (t.cache cache).numPerSlab = num → (t.cache cache).slabOrder = 0 →
    ∀ t', kmemCacheGrow cache t = .ok 0 t' → ∃ p ∉ t.taken, t'.taken = insert p t.taken ∧
      ∃ nodes, Threaded t'.next 0 (t'.slab p).freelist nodes ∧ SlabNodes size num p nodes

/-- `kmem_cache_create` does not divide by zero, and returns `NULL` or a cache that grows well. -/
def CreatesWell (name : List UInt8) (size slabOrder : Nat) (s : Slub) : Prop :=
  ∃ c s1, kmemCacheCreate name size slabOrder s = .ok c s1 ∧
    (c ≠ 0 → (s1.cache c).objSize = size ∧ (s1.cache c).slabOrder = 0 ∧ GrowsWell c size (s1.cache c).numPerSlab)

/-- `alloc_pages` has a page for the cache. -/
def PageForCache (s : Slub) : Prop := ∃ p, s.pick s.ticks = some p ∧ SlabPage p 1 ∧ p ∉ s.taken

/-! ## Large enough objects -/

/-- The slots that the loop has pushed, the last one first. -/
theorem SlabShape.nodes (hs : SlabShape size num) (p : Nat) : SlabNodes size num p (slabSlots size num p).reverse where
  length := by rw [List.length_reverse, slabSlots, length_slots]
  nodup := List.nodup_reverse.mpr (slots_nodup _ (Nat.lt_of_lt_of_le (by decide) hs.size_ge) num)
  slotsApart := fun _ ho _ ho' hne => slots_apart (List.mem_reverse.mp ho) (List.mem_reverse.mp ho') hne
  nextsApart := by
    intro o ho o' ho' hne
    have hge : freeObject ≤ size := hs.size_ge
    have hapart := slots_apart (List.mem_reverse.mp ho) (List.mem_reverse.mp ho') hne
    omega
  slotsInside := fun _ ho => hs.inside (List.mem_reverse.mp ho)
  nextsInside := by
    intro o ho
    have hge : freeObject ≤ size := hs.size_ge
    have hin := hs.inside (List.mem_reverse.mp ho)
    omega

theorem SlabShape.growsWell (hs : SlabShape size num) (cache : Nat) : GrowsWell cache size num := by
  intro t hsize hnum horder t' hrun
  rcases kmemCacheGrow_cases horder with hnone | ⟨p, hpage, hnew, hgrow⟩
  · rw [hnone] at hrun
    cases hrun
  · rw [hgrow] at hrun
    cases hrun
    have hg := Slub.grown_spec hs hpage hsize hnum
    exact ⟨p, hnew, hg.taken, _, hg.thread, hs.nodes p⟩

/-! ## Too small objects -/

/-- The pointers of so many slots do not fit into the page. -/
theorem SlabNodes.size_ge {nodes : List Nat} (h : SlabNodes size ((slabPgsize - slabHeader) / size) p nodes) (hpos : 0 < size) :
    8 ≤ size := by
  have hroom : nodes.length * 8 ≤ (p + 4096) - (p + 48) := room_of_apart h.nodup h.nextsApart h.nextsInside
  rw [h.length] at hroom
  by_contra hlt
  have hdiv : (4096 - 48) / 7 ≤ (4096 - 48) / size := Nat.div_le_div_left (by omega) hpos
  have hroom' : (4096 - 48) / size * 8 ≤ (p + 4096) - (p + 48) := hroom
  omega

/-- A page for the new slab, in a state with the records of `s`. -/
def Slub.withPage (s : Slub) : Slub := { s with pick := fun _ => some slabPgsize, taken := ∅ }

theorem GrowsWell.nodes (h : GrowsWell cache size num) (hsize : (s.cache cache).objSize = size)
    (hnum : (s.cache cache).numPerSlab = num) (horder : (s.cache cache).slabOrder = 0) :
    ∃ p nodes, SlabNodes size num p nodes := by
  have hpage : SlabPage slabPgsize 1 := ⟨by decide, by decide, by decide⟩
  have halloc := slubAllocPages_some (s := s.withPage) (p := slabPgsize) rfl hpage (Finset.notMem_empty _)
  obtain ⟨p, -, -, nodes, -, hnodes⟩ := h s.withPage hsize hnum horder _ (kmemCacheGrow_some horder hpage halloc)
  exact ⟨p, nodes, hnodes⟩

/-! ## Every size -/

theorem createsWell_of_null {name : List UInt8} (h : kmemCacheCreate name size slabOrder s = .ok 0 s1) :
    CreatesWell name size slabOrder s := ⟨0, s1, h, fun hne => absurd rfl hne⟩

/-- Slabs of more pages than one are refused, with the page of the cache given back. -/
theorem kmemCacheCreate_order (name : List UInt8) (size : Nat) (s : Slub) (horder : slabOrder ≠ 0) :
    ∃ s1, kmemCacheCreate name size slabOrder s = .ok 0 s1 := by
  rw [kmemCacheCreate]
  rcases slubAllocPages_cases s with halloc | ⟨p, hpage, -, halloc⟩
  · rw [Proc.bind_ok halloc]
    exact ⟨_, rfl⟩
  · rw [Proc.bind_ok halloc, if_neg (Nat.pos_iff_ne_zero.mp hpage.2.1)]
    simp only [Proc.modify_bind, if_pos horder]
    exact ⟨_, Proc.bind_ok (Proc.check_bind_pos (page_given_back hpage s.taken) ..)⟩

/-- A cache whose number of slots is not zero. -/
theorem createsWell_created {name : List UInt8} (hpage : SlabPage p 1) (hpos : 0 < size)
    (hnum : (slabPgsize - slabHeader) / size ≠ 0) (hrun : kmemCacheCreate name size 0 s = .ok p (s.created name size p)) :
    CreatesWell name size 0 s ↔ 8 ≤ size := by
  obtain ⟨hobj, horder, hper⟩ : ((s.created name size p).cache p).objSize = size ∧
      ((s.created name size p).cache p).slabOrder = 0 ∧
      ((s.created name size p).cache p).numPerSlab = (slabPgsize - slabHeader) / size := by
    simp only [Slub.created, Function.update_self, and_self]
  constructor
  · rintro ⟨c, s1, hok, hgood⟩
    rw [hrun] at hok
    cases hok
    obtain ⟨-, -, hgrow⟩ := hgood (Nat.pos_iff_ne_zero.mp hpage.2.1)
    rw [hper] at hgrow
    obtain ⟨q, nodes, hnodes⟩ := hgrow.nodes hobj hper horder
    exact hnodes.size_ge hpos
  · intro hge
    have hmul : (slabPgsize - slabHeader) / size * size ≤ slabPgsize - slabHeader := Nat.div_mul_le_self _ _
    have hle : slabHeader ≤ slabPgsize := by decide
    have hs : SlabShape size ((slabPgsize - slabHeader) / size) := ⟨hge, Nat.pos_iff_ne_zero.mpr hnum, by omega⟩
    refine ⟨p, _, hrun, fun _ => ⟨hobj, horder, ?_⟩⟩
    rw [hper]
    exact hs.growsWell p

theorem createsWell_iff (name : List UInt8) (size : Nat) (hpage : PageForCache s) : CreatesWell name size 0 s ↔ 8 ≤ size := by
  obtain ⟨p, hpick, hp, hnew⟩ := hpage
  rcases kmemCacheCreate_cases name size hp (slubAllocPages_some hpick hp hnew) with
    ⟨hz, hrun⟩ | ⟨hpos, hnum, s', hrun⟩ | ⟨hpos, hnum, hrun⟩
  · -- a division by zero
    refine iff_of_false ?_ (by omega)
    rintro ⟨c, s1, hok, -⟩
    rw [hrun] at hok
    cases hok
  · refine iff_of_true (createsWell_of_null hrun) ?_
    have hlt : 4096 - 48 < size := (Nat.div_eq_zero_iff_lt (Nat.pos_iff_ne_zero.mpr hpos)).mp hnum
    omega
  · exact createsWell_created hp (Nat.pos_iff_ne_zero.mpr hpos) hnum hrun

/-- **`kmem_cache_create` and `kmem_cache_grow`** meet their promise exactly for objects that have room for a pointer, or where
no cache is made: because its slabs are to have several pages, or because there is no page for it. -/
theorem slub_sizes (name : List UInt8) (size slabOrder : Nat) (s : Slub) :
    CreatesWell name size slabOrder s ↔ 8 ≤ size ∨ slabOrder ≠ 0 ∨ ¬ PageForCache s := by
  by_cases horder : slabOrder = 0
  · subst horder
    by_cases hpage : PageForCache s
    · simp [createsWell_iff name size hpage, hpage]
    · refine iff_of_true ?_ (.inr (.inr hpage))
      have hnone : ∀ p, s.pick s.ticks = some p → SlabPage p 1 → p ∈ s.taken := by
        intro p hpick hp
        by_contra hnew
        exact hpage ⟨p, hpick, hp, hnew⟩
      have hrun : kmemCacheCreate name size 0 s = .ok 0 { s with ticks := s.ticks + 1 } := by
        rw [kmemCacheCreate, Proc.bind_ok (slubAllocPages_none hnone)]
        rfl
      exact createsWell_of_null hrun
  · obtain ⟨s1, hrun⟩ := kmemCacheCreate_order name size s horder
    exact iff_of_true (createsWell_of_null hrun) (.inr (.inl horder))

/-- Objects of 4 bytes: there are 1012 slots in a slab, and room for 506 pointers. -/
theorem slub_sizes_four : ¬ CreatesWell [111] 4 0 slubFresh := by
  have hpage : PageForCache slubFresh := by
    refine ⟨_, rfl, ?_, ?_⟩
    · decide
    · decide
  rw [createsWell_iff _ _ hpage]
  decide

end Ucore
