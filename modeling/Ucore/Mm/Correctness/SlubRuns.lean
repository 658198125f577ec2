import Ucore.Mm.Correctness.Slub

/-!
# `Mm.Correctness.SlubRuns` — the slabs of a cache over whole runs

Objects of a cache are allocated, written and given back in any order, while the rest of the kernel goes on with its own
pages. After every run the lists, the free lists and the counters of the cache are right, no call fails an assertion, and
without live objects the cache can be destroyed.
-/

namespace Ucore

variable {s s' : Slub} {cache size num p o a : Nat} {base S : Finset Nat} {live : List Nat} {R : SlabList → List Nat}

/-! ## What others may do -/

/-- Those who own the live objects may write to them, and everybody else to memory that the cache has not taken. -/
structure Slub.Untouched (s s' : Slub) (cache : Nat) (base : Finset Nat) (live : List Nat) : Prop where
  record : s'.cache cache = s.cache cache
  taken : s'.taken = s.taken
  link : ∀ a, objToSlab a ∈ s.taken \ base → s'.link a = s.link a
  slab : ∀ p ∈ s.taken \ base, s'.slab p = s.slab p
  bytes : ∀ a, objToSlab a ∈ s.taken \ base → (∀ o ∈ live, ¬ (o ≤ a ∧ a < o + (s.cache cache).objSize)) →
    s'.bytes a = s.bytes a

theorem Slub.Inv.mem_own (h : s.Inv cache size num base S live R) (hp : p ∈ insert cache S) : p ∈ s.taken \ base := by
  rw [h.taken]
  have hc := h.cacheApart
  have hdisj := Finset.disjoint_left.mp h.baseApart
  simp only [Finset.mem_sdiff, Finset.mem_insert, Finset.mem_union] at hp hc ⊢
  rcases hp with rfl | hp
  · exact ⟨.inl rfl, fun hb => hc (.inl hb)⟩
  · exact ⟨.inr (.inr hp), fun hb => hdisj hb hp⟩

/-- A list head is in the page of the cache. -/
theorem objToSlab_slabHead (hc : cache % slabPgsize = 0) (k : SlabList) : objToSlab (slabHead cache k) = cache := by
  refine objToSlab_of_page hc ?_ ?_
  · cases k with
    | full => exact Nat.le_add_right cache 56
    | part => exact Nat.le_add_right cache 72
    | empty => exact Nat.le_add_right cache 88
  · show slabHead cache k < cache + 4096
    cases k with
    | full =>
      show cache + 56 < _
      omega
    | part =>
      show cache + 72 < _
      omega
    | empty =>
      show cache + 88 < _
      omega

/-- No byte of a free object belongs to a live one. -/
theorem Slub.Inv.free_apart (h : s.Inv cache size num base S live R) (hs : SlabShape size num) (hp : p ∈ S) {free : List Nat}
    (hperm : (free ++ liveOn live p).Perm (slabSlots size num p)) (ho : o ∈ free) (hlo : o ≤ a) (hhi : a < o + size)
    {q : Nat} (hq : q ∈ live) : ¬ (q ≤ a ∧ a < q + size) := by
  rintro ⟨hqlo, hqhi⟩
  have hslot := hperm.subset (List.mem_append_left _ ho)
  have hpage := hs.objToSlab (h.aligned hp) hslot hlo hhi
  -- both would be in the same slab, where all slots are distinct
  have hqpage := hs.objToSlab (h.aligned (h.liveIn q hq)) (h.live_slot hq) hqlo hqhi
  have hqon : q ∈ liveOn live p := mem_liveOn.mpr ⟨hq, hqpage.symm.trans hpage⟩
  have hnd := hperm.nodup_iff.mpr (slots_nodup _ (Nat.lt_of_lt_of_le (by decide) hs.size_ge) num)
  have hne : o ≠ q := (List.nodup_append.mp hnd).2.2 o ho q hqon
  have hapart := slots_apart hslot (hperm.subset (List.mem_append_right _ hqon)) hne
  omega

theorem Slub.Inv.untouched (h : s.Inv cache size num base S live R) (hs : SlabShape size num)
    (hu : s.Untouched s' cache base live) : s'.Inv cache size num base S live R := by
  have hslab : ∀ p ∈ S, s'.slab p = s.slab p := fun p hp => hu.slab p (h.mem_own (Finset.mem_insert_of_mem hp))
  refine ⟨?_, ?_, ?_, ?_, h.cacheApart, h.baseApart, h.page, ?_, ?_, ?_, ?_, h.liveIn, ?_, ?_, ?_⟩
  · rw [hu.record]
    exact h.objSize
  · rw [hu.record]
    exact h.numPerSlab
  · rw [hu.record]
    exact h.slabOrder
  · rw [hu.taken]
    exact h.taken
  · refine h.rings.congr fun k z hz => hu.link z ?_
    rcases List.mem_cons.mp hz with rfl | hz
    · rw [objToSlab_slabHead (h.page cache (Finset.mem_insert_self _ _)).1]
      exact h.mem_own (Finset.mem_insert_self _ _)
    · have hzS := h.mem_of_list hz
      rw [objToSlab_of_page (h.aligned hzS) (Nat.le_refl z) (Nat.lt_add_of_pos_right (by decide))]
      exact h.mem_own (Finset.mem_insert_of_mem hzS)
  · intro k p
    rw [h.lists k p]
    refine and_congr_right fun hp => ?_
    rw [hslab p hp]
  · intro p hp
    rw [hslab p hp]
    exact h.owner p hp
  · intro p hp
    rw [hslab p hp]
    obtain ⟨free, hthread, hperm, hinuse⟩ := h.objects p hp
    refine ⟨free, hthread.congr fun o ho => getLe_congr fun a h1 h2 => hu.bytes a ?_ fun q hq => ?_, hperm, hinuse⟩
    · have hsize := hs.size_ge
      rw [hs.objToSlab (h.aligned hp) (hperm.subset (List.mem_append_left _ ho)) h1 (by omega)]
      exact h.mem_own (Finset.mem_insert_of_mem hp)
    · have hsize := hs.size_ge
      rw [h.objSize]
      exact h.free_apart hs hp hperm ho h1 (by omega) hq
  · rw [hu.record, h.active]
    refine Finset.sum_congr rfl fun p hp => ?_
    rw [hslab p hp]
  · rw [hu.record]
    exact h.totalSlabs
  · rw [hu.record]
    exact h.totalObjs

/-! ## Runs -/

inductive SlubCall where
  | alloc
  | free (obj : Nat)
  | others

/-- The memory, and the objects that are live. -/
abbrev SlubState := Slub × List Nat

/-- Only live objects are given back. -/
inductive SlubStep (cache : Nat) (base : Finset Nat) : SlubState → SlubCall → SlubState → Prop where
  | alloc {s s' : Slub} {live : List Nat} {obj : Nat} (h : kmemCacheAlloc cache s = .ok obj s') (hobj : obj ≠ 0) :
      SlubStep cache base (s, live) .alloc (s', obj :: live)
  | noMem {s s' : Slub} {live : List Nat} (h : kmemCacheAlloc cache s = .ok 0 s') :
      SlubStep cache base (s, live) .alloc (s', live)
  | free {s s' : Slub} {live : List Nat} {obj : Nat} (hobj : obj ∈ live) (h : kmemCacheFree cache obj s = .ok () s') :
      SlubStep cache base (s, live) (.free obj) (s', live.erase obj)
  | others {s s' : Slub} {live : List Nat} (h : s.Untouched s' cache base live) :
      SlubStep cache base (s, live) .others (s', live)

/-- **The step lemma.** -/
theorem slubStep_inv {a b : SlubState} {c : SlubCall} (hs : SlabShape size num) (hstep : SlubStep cache base a c b)
    (h : ∃ S R, a.1.Inv cache size num base S a.2 R) : ∃ S R, b.1.Inv cache size num base S b.2 R := by
  obtain ⟨S, R, h⟩ := h
  cases hstep with
  | alloc hrun hobj =>
    obtain ⟨o, s', S', R', hrun', hcase⟩ := h.alloc hs
    rw [hrun] at hrun'
    cases hrun'
    rcases hcase with ⟨hnull, -⟩ | ⟨-, -, h'⟩
    · exact absurd hnull hobj
    · exact ⟨S', R', h'⟩
  | noMem hrun =>
    obtain ⟨o, s', S', R', hrun', hcase⟩ := h.alloc hs
    rw [hrun] at hrun'
    cases hrun'
    rcases hcase with ⟨-, h'⟩ | ⟨hne, -⟩
    · exact ⟨S', R', h'⟩
    · exact absurd rfl hne
  | free hobj hrun =>
    obtain ⟨s', R', hrun', h'⟩ := h.free hs hobj
    rw [hrun] at hrun'
    cases hrun'
    exact ⟨S, R', h'⟩
  | others hu => exact ⟨S, R, h.untouched hs hu⟩

/-- What is right about a cache, whose `live` objects are known. -/
structure Slub.Right (s : Slub) (cache : Nat) (base : Finset Nat) (live : List Nat) (S : Finset Nat) (R : SlabList → List Nat) :
    Prop where
  /-- The pages taken are those of the slabs and of the cache itself. -/
  taken : s.taken = insert cache (base ∪ S)
  /-- The three lists are intact, and each slab is on the one that its `inuse` says. -/
  rings : Rings s.link (slabHead cache) R
  lists : ∀ k p, p ∈ R k ↔ p ∈ S ∧ listFor (s.cache cache).numPerSlab (s.slab p).inuse = k
  /-- A free list consists of distinct slots, none of them live. -/
  freelist : ∀ p ∈ S, ∃ free, Threaded s.next 0 (s.slab p).freelist free ∧
    (s.slab p).inuse + free.length = (s.cache cache).numPerSlab ∧ free.Nodup ∧
    ∀ o ∈ free, o ∉ live ∧ o ∈ slabSlots (s.cache cache).objSize (s.cache cache).numPerSlab p
  inuse : ∀ p ∈ S, (s.slab p).inuse = (liveOn live p).length
  /-- The live objects are distinct, do not overlap, and lie in their page behind the header. -/
  distinct : live.Nodup
  apart : ∀ o ∈ live, ∀ o' ∈ live, o ≠ o' → o + (s.cache cache).objSize ≤ o' ∨ o' + (s.cache cache).objSize ≤ o
  inside : ∀ o ∈ live, ∃ p ∈ S, p % slabPgsize = 0 ∧ p + slabHeader ≤ o ∧ o + (s.cache cache).objSize ≤ p + slabPgsize
  active : (s.cache cache).activeObjs = ∑ p ∈ S, (s.slab p).inuse
  /-- No call fails. -/
  alloc : ∃ o s', kmemCacheAlloc cache s = .ok o s'
  free : ∀ o ∈ live, ∃ s', kmemCacheFree cache o s = .ok () s'
  destroy : live = [] → ∃ s', kmemCacheDestroy cache s = .ok () s' ∧ s'.taken = base

theorem Slub.Inv.right (h : s.Inv cache size num base S live R) (hs : SlabShape size num) : s.Right cache base live S R where
  taken := h.taken
  rings := h.rings
  lists := by
    rw [h.numPerSlab]
    exact h.lists
  freelist := by
    intro p hp
    rw [h.numPerSlab, h.objSize]
    obtain ⟨free, hthread, hperm, hlen⟩ := h.free_length hp
    have hnd := List.nodup_append.mp (hperm.nodup_iff.mpr (slots_nodup _ (Nat.lt_of_lt_of_le (by decide) hs.size_ge) num))
    refine ⟨free, hthread, hlen, hnd.1, fun o ho => ?_⟩
    have hslot := hperm.subset (List.mem_append_left _ ho)
    refine ⟨fun hlive => ?_, hslot⟩
    have hsize := hs.size_ge
    have hpage := hs.objToSlab (h.aligned hp) hslot (Nat.le_refl o) (by omega)
    exact hnd.2.2 o ho o (mem_liveOn.mpr ⟨hlive, hpage⟩) rfl
  inuse := by
    intro p hp
    obtain ⟨_, -, -, hinuse⟩ := h.objects p hp
    exact hinuse
  distinct := h.live_nodup hs
  apart := by
    intro o ho o' ho' hne
    rw [h.objSize]
    have hslot := h.live_slot ho
    have hslot' := h.live_slot ho'
    by_cases hpage : objToSlab o = objToSlab o'
    · rw [← hpage] at hslot'
      exact slots_apart hslot hslot' hne
    · -- different pages
      have hin := hs.inside hslot
      have hin' := hs.inside hslot'
      have hal : objToSlab o % 4096 = 0 := h.aligned (h.liveIn o ho)
      have hal' : objToSlab o' % 4096 = 0 := h.aligned (h.liveIn o' ho')
      have hheader : slabHeader = 48 := rfl
      have hpgsize : slabPgsize = 4096 := rfl
      omega
  inside := by
    intro o ho
    rw [h.objSize]
    exact ⟨_, h.liveIn o ho, h.aligned (h.liveIn o ho), hs.inside (h.live_slot ho)⟩
  active := h.active
  alloc := by
    obtain ⟨o, s', _, _, hrun, -⟩ := h.alloc hs
    exact ⟨o, s', hrun⟩
  free := by
    intro o ho
    obtain ⟨s', _, hrun, -⟩ := h.free hs ho
    exact ⟨s', hrun⟩
  destroy := by
    rintro rfl
    exact h.destroy

/-- **The run lemma**, from `kmem_cache_create` on. -/
theorem slub_reached_inv {name : List UInt8} {s0 s1 : Slub} (hsize : 8 ≤ size)
    (hcreate : kmemCacheCreate name size 0 s0 = .ok cache s1) (hcache : cache ≠ 0)
    (h : Reaches (fun a => a = (s1, [])) (SlubStep cache s0.taken) (fun _ _ => True) (s, live)) :
    ∃ num, SlabShape size num ∧ ∃ S R, s.Inv cache size num s0.taken S live R := by
  obtain ⟨num, hs, -, hinit⟩ := kmemCacheCreate_inv hsize hcreate hcache
  refine ⟨num, hs, ?_⟩
  refine h.invariant (I := fun a => ∃ S R, a.1.Inv cache size num s0.taken S a.2 R) ?_ fun a c b ha _ hstep =>
    slubStep_inv hs hstep ha
  rintro _ rfl
  exact ⟨∅, _, hinit⟩

/-- **In every state reached** the cache is as it should be. -/
theorem slub_reached {name : List UInt8} {s0 s1 : Slub} (hsize : 8 ≤ size) (hcreate : kmemCacheCreate name size 0 s0 = .ok cache s1)
    (hcache : cache ≠ 0)
    (h : Reaches (fun a => a = (s1, [])) (SlubStep cache s0.taken) (fun _ _ => True) (s, live)) :
    ∃ S R, s.Right cache s0.taken live S R := by
  obtain ⟨num, hs, S, R, hinv⟩ := slub_reached_inv hsize hcreate hcache h
  exact ⟨S, R, hinv.right hs⟩

/-! ## A run -/

/-- Free memory: page `n` of each request is at `n + 1` pages from the bottom. -/
def slubFresh : Slub :=
  { link := fun a => { prev := a, next := a }, slab := fun _ => { cache := 0, inuse := 0, freelist := 0, sMem := 0 }
    cache := fun _ => { name := [], objSize := 0, numPerSlab := 0, slabOrder := 0, totalSlabs := 0, totalObjs := 0, activeObjs := 0 }
    bytes := fun _ => 0, taken := ∅, pick := fun n => some ((n + 1) * 4096), ticks := 0 }

/-- A cache of objects of 2000 bytes: an object is allocated, and the slab has room for another one. -/
theorem slub_reached_object : ∃ s1 s S R, kmemCacheCreate [111] 2000 0 slubFresh = .ok 4096 s1 ∧
    kmemCacheAlloc 4096 s1 = .ok 10240 s ∧ s.Right 4096 slubFresh.taken [10240] S R := by
  have htest : (kmemCacheCreate [111] 2000 0 slubFresh).test (fun c s =>
      decide (c = 4096) && (kmemCacheAlloc 4096 s).test fun o _ => decide (o = 10240)) = true := by
    decide +kernel
  obtain ⟨c, s1, hcreate, htest⟩ := Outcome.exists_of_test htest
  obtain ⟨hc, htest⟩ := Bool.and_eq_true_iff.mp htest
  obtain rfl := of_decide_eq_true hc
  obtain ⟨o, s, halloc, ho⟩ := Outcome.exists_of_test htest
  obtain rfl := of_decide_eq_true ho
  have hrun : Reaches (fun a => a = (s1, [])) (SlubStep 4096 slubFresh.taken) (fun _ _ => True) (s, [10240]) :=
    .next (.start rfl) trivial (.alloc halloc (by decide))
  obtain ⟨S, R, hright⟩ := slub_reached (by decide) hcreate (by decide) hrun
  exact ⟨s1, s, S, R, hcreate, halloc, hright⟩

end Ucore
