import Ucore.Mm.Correctness.SlubRuns

/-!
# `Mm.Correctness.SlubLifo` — is the object freed last the next one to be allocated?

`kmem_cache_free` puts the object at the front of the free list of its slab, but the slab at the end of its list, and
`kmem_cache_alloc` takes the slab at the front: of the partial ones if there are any, else of the empty ones. So the object
comes back only if its slab is alone there.
-/

namespace Ucore

variable {s s' : Slub} {cache size num p o : Nat} {base S : Finset Nat} {live : List Nat} {R : SlabList → List Nat}

/-- `kmem_cache_free(cache, obj)` and right behind it `kmem_cache_alloc(cache)`, which returns `obj`. -/
def Slub.Lifo (s : Slub) (cache obj : Nat) : Prop :=
  ∃ s', (kmemCacheFree cache obj >>= fun _ => kmemCacheAlloc cache) s = .ok obj s'

/-- No other slab is partial, and if the slab of `obj` becomes empty, no other slab is. -/
def LifoReady (R : SlabList → List Nat) (live : List Nat) (obj : Nat) : Prop :=
  (∀ p ∈ R .part, p = objToSlab obj) ∧ (liveOn live (objToSlab obj) = [obj] → R .empty = [])

/-! ## Which slab is taken -/

/-- The slabs with a free object, in the order in which `kmem_cache_alloc` takes them. -/
def waitingSlabs (R : SlabList → List Nat) : List Nat := R .part ++ R .empty

namespace Slub.Inv

/-- `kmem_cache_alloc` takes its object from the first of them. -/
theorem alloc_first (h : s.Inv cache size num base S live R) (hs : SlabShape size num) {rest : List Nat}
    (hfirst : waitingSlabs R = p :: rest) : ∃ s', kmemCacheAlloc cache s = .ok (s.slab p).freelist s' := by
  have hnull : cache ≠ 0 := Nat.pos_iff_ne_zero.mp (h.page cache (Finset.mem_insert_self _ _)).2.1
  have hslab : kmemCacheSlab cache s = .ok p s ∧ p ∈ S ∧ (s.slab p).inuse ≠ num := by
    rw [kmemCacheSlab, Proc.get_bind]
    cases hpart : R .part with
    | cons q l =>
      have hne : ¬ listEmpty s.link (slabHead cache .part) = true := by
        rw [(h.rings.ring .part).listEmpty_iff, hpart]
        exact List.cons_ne_nil q l
      have hroom := h.first hs (by decide) hne
      have hnext : listNext s.link (slabHead cache .part) = p := by
        rw [(h.rings.ring .part).next_head, hpart]
        rw [waitingSlabs, hpart] at hfirst
        exact (List.cons.inj hfirst).1
      rw [if_pos hne, hnext]
      exact ⟨rfl, hnext ▸ hroom⟩
    | nil =>
      have hnil : listEmpty s.link (slabHead cache .part) = true := (h.rings.ring .part).listEmpty_iff.mpr hpart
      rw [waitingSlabs, hpart, List.nil_append] at hfirst
      have hne : ¬ listEmpty s.link (slabHead cache .empty) = true := by
        rw [(h.rings.ring .empty).listEmpty_iff, hfirst]
        exact List.cons_ne_nil p rest
      have hroom := h.first hs (by decide) hne
      have hnext : listNext s.link (slabHead cache .empty) = p := by
        rw [(h.rings.ring .empty).next_head, hfirst]
        rfl
      rw [if_neg (not_not_intro hnil), if_pos hne, hnext]
      exact ⟨rfl, hnext ▸ hroom⟩
  obtain ⟨hrun, hp, hroom⟩ := hslab
  obtain ⟨free, hthread, -, hlen⟩ := h.free_length hp
  have hne : (s.slab p).freelist ≠ 0 := by
    intro hz
    rw [hthread.null_iff.mp hz] at hlen
    exact hroom hlen
  rw [kmemCacheAlloc, Proc.check_bind_pos hnull, Proc.bind_ok hrun, if_neg (h.ne_zero hp)]
  exact ⟨_, kmemCacheTake_run cache hne h.numPerSlab⟩

/-- The free list of a slab that waits starts with one of its own objects. -/
theorem freelist_slab (h : s.Inv cache size num base S live R) (hs : SlabShape size num) (hp : p ∈ waitingSlabs R) :
    objToSlab (s.slab p).freelist = p := by
  have hmem : p ∈ S ∧ (s.slab p).inuse ≠ num := by
    have hnum := hs.num_pos
    rcases List.mem_append.mp hp with hp | hp
    · obtain ⟨hpS, hfor⟩ := (h.lists _ _).mp hp
      refine ⟨hpS, fun hfull => ?_⟩
      rw [hfull, listFor, if_neg (by omega), if_pos rfl] at hfor
      exact SlabList.noConfusion hfor
    · obtain ⟨hpS, hfor⟩ := (h.lists _ _).mp hp
      refine ⟨hpS, fun hfull => ?_⟩
      rw [hfull, listFor, if_neg (by omega), if_pos rfl] at hfor
      exact SlabList.noConfusion hfor
  obtain ⟨free, hthread, hperm, hlen⟩ := h.free_length hmem.1
  cases free with
  | nil => exact absurd hlen hmem.2
  | cons o rest =>
    have hslot : o ∈ slabSlots size num p := hperm.subset (List.mem_append_left _ List.mem_cons_self)
    have hsize := hs.size_ge
    rw [hthread.1]
    exact hs.objToSlab (h.aligned hmem.1) hslot (Nat.le_refl o) (by omega)

end Slub.Inv

/-! ## After the free -/

/-- At the end of a list, a slab is the first one only if it is alone. -/
theorem erase_append_head {l : List Nat} (hnd : l.Nodup) {rest : List Nat} :
    (∃ t, l.erase p ++ (p :: rest) = p :: t) ↔ ∀ q ∈ l, q = p := by
  constructor
  · rintro ⟨t, ht⟩ q hq
    by_contra hne
    have hmem : q ∈ l.erase p := (List.mem_erase_of_ne hne).mpr hq
    cases herase : l.erase p with
    | nil =>
      rw [herase] at hmem
      exact List.not_mem_nil hmem
    | cons a as =>
      rw [herase, List.cons_append] at ht
      obtain rfl := (List.cons.inj ht).1
      exact (hnd.mem_erase_iff.mp (herase ▸ List.mem_cons_self)).1 rfl
  · intro hall
    have hnil : l.erase p = [] := by
      refine List.eq_nil_iff_forall_not_mem.mpr fun q hq => ?_
      obtain ⟨hne, hmem⟩ := hnd.mem_erase_iff.mp hq
      exact hne (hall q hmem)
    exact ⟨rest, by rw [hnil, List.nil_append]⟩

namespace Slub.Inv

/-- The only live object of its slab. -/
theorem liveOn_eq_singleton (h : s.Inv cache size num base S live R) (ho : o ∈ live) :
    liveOn live (objToSlab o) = [o] ↔ (s.slab (objToSlab o)).inuse = 1 := by
  obtain ⟨-, -, -, hinuse⟩ := h.objects _ (h.liveIn o ho)
  rw [hinuse]
  constructor
  · intro heq
    rw [heq, List.length_singleton]
  · intro hone
    obtain ⟨a, ha⟩ := List.length_eq_one_iff.mp hone
    have hmem : o ∈ liveOn live (objToSlab o) := mem_liveOn.mpr ⟨ho, rfl⟩
    rw [ha, List.mem_singleton] at hmem
    rw [ha, hmem]

/-- A slab that moves leaves its list, which is the only one it is on, and comes last on the other one. -/
theorem moved_apply (h : s.Inv cache size num base S live R) {j : SlabList} (hj : p ∈ R j) (k i : SlabList) :
    moved R p j k i = if i = k then (R i).erase p ++ [p] else (R i).erase p := by
  have herase : ∀ i, Function.update R j ((R j).erase p) i = (R i).erase p := by
    intro i
    by_cases hij : i = j
    · rw [hij, Function.update_self]
    · rw [Function.update_of_ne hij, List.erase_of_not_mem fun hi => hij (h.rings.unique hi hj)]
  by_cases hik : i = k
  · rw [hik, if_pos rfl, moved, Function.update_self, herase]
  · rw [if_neg hik, moved, Function.update_of_ne hik, herase]

/-- **The slab of the object freed is taken next** exactly if no other one was before it. -/
theorem freed_first (h : s.Inv cache size num base S live R) (ho : o ∈ live) :
    (∃ rest, waitingSlabs (moved R (objToSlab o) (listFor num (s.slab (objToSlab o)).inuse)
      (listFor num ((s.slab (objToSlab o)).inuse - 1))) = objToSlab o :: rest) ↔ LifoReady R live o := by
  have hpos := h.inuse_pos ho
  have hmem : objToSlab o ∈ R (listFor num (s.slab (objToSlab o)).inuse) := (h.lists _ _).mpr ⟨h.liveIn o ho, rfl⟩
  have hle : (s.slab (objToSlab o)).inuse ≤ num := by
    obtain ⟨_, -, -, hlen⟩ := h.free_length (h.liveIn o ho)
    omega
  have hndpart : (R .part).Nodup := (List.nodup_cons.mp (h.rings.ring .part).nodup).2
  rw [LifoReady, h.liveOn_eq_singleton ho, waitingSlabs, h.moved_apply hmem, h.moved_apply hmem, listFor_pred hle hpos]
  by_cases hone : (s.slab (objToSlab o)).inuse = 1
  · -- the slab is empty now, and waits behind the empty ones
    have hnotEmpty : objToSlab o ∉ R .empty := by
      intro hin
      obtain ⟨-, hfor⟩ := (h.lists _ _).mp hin
      rw [listFor, if_neg (by omega)] at hfor
      split at hfor <;> exact SlabList.noConfusion hfor
    rw [if_pos (show _ - 1 = 0 by omega), if_neg SlabList.noConfusion, if_pos rfl, List.erase_of_not_mem hnotEmpty]
    constructor
    · rintro ⟨rest, hrest⟩
      cases hpart : (R .part).erase (objToSlab o) with
      | cons a l =>
        rw [hpart, List.cons_append] at hrest
        have hin : a ∈ (R .part).erase (objToSlab o) := hpart ▸ List.mem_cons_self
        exact absurd (List.cons.inj hrest).1 (hndpart.mem_erase_iff.mp hin).1
      | nil =>
        rw [hpart, List.nil_append] at hrest
        refine ⟨(erase_append_head hndpart).mp ⟨[], by rw [hpart, List.nil_append]⟩, fun _ => ?_⟩
        cases hempty : R .empty with
        | nil => rfl
        | cons a l =>
          rw [hempty, List.cons_append] at hrest
          exact absurd (hempty ▸ List.mem_cons_self) ((List.cons.inj hrest).1 ▸ hnotEmpty)
    · rintro ⟨hpart, hempty⟩
      rw [hempty hone, List.nil_append]
      exact (erase_append_head hndpart).mpr hpart
  · -- the slab is partial, and waits behind the partial ones
    rw [if_neg (show ¬ _ - 1 = 0 by omega), if_pos rfl, List.append_assoc, List.singleton_append, erase_append_head hndpart]
    exact ⟨fun hall => ⟨hall, fun h1 => absurd h1 hone⟩, fun hall => hall.1⟩

/-- At least the slab of the object freed has a free object then. -/
theorem freed_waiting (h : s.Inv cache size num base S live R) (ho : o ∈ live) :
    waitingSlabs (moved R (objToSlab o) (listFor num (s.slab (objToSlab o)).inuse)
      (listFor num ((s.slab (objToSlab o)).inuse - 1))) ≠ [] := by
  have hmem : objToSlab o ∈ R (listFor num (s.slab (objToSlab o)).inuse) := (h.lists _ _).mpr ⟨h.liveIn o ho, rfl⟩
  have hle : (s.slab (objToSlab o)).inuse ≤ num := by
    obtain ⟨_, -, -, hlen⟩ := h.free_length (h.liveIn o ho)
    omega
  rw [waitingSlabs, h.moved_apply hmem, h.moved_apply hmem, listFor_pred hle (h.inuse_pos ho)]
  by_cases hz : (s.slab (objToSlab o)).inuse - 1 = 0
  · rw [if_pos hz]
    simp
  · rw [if_neg hz]
    simp

theorem lifo_iff (h : s.Inv cache size num base S live R) (hs : SlabShape size num) (ho : o ∈ live) :
    s.Lifo cache o ↔ LifoReady R live o := by
  have hf := h.freed hs ho
  have hfree : ((s.freed cache num o).slab (objToSlab o)).freelist = o :=
    congrArg Slab.freelist (Function.update_self (objToSlab o) _ s.slab)
  rw [← h.freed_first ho, Slub.Lifo, Proc.bind_ok (h.free_run hs ho)]
  constructor
  · rintro ⟨s', hrun⟩
    obtain ⟨q, rest, hwait⟩ := List.exists_cons_of_ne_nil (h.freed_waiting ho)
    obtain ⟨s₂, hrun₂⟩ := hf.alloc_first hs hwait
    rw [hrun₂] at hrun
    injection hrun with hq
    have hslab := hf.freelist_slab hs (p := q) (hwait ▸ List.mem_cons_self)
    rw [hq] at hslab
    exact ⟨rest, hslab ▸ hwait⟩
  · rintro ⟨rest, hwait⟩
    obtain ⟨s', hrun⟩ := hf.alloc_first hs hwait
    rw [hfree] at hrun
    exact ⟨s', hrun⟩

end Slub.Inv

/-! ## In every reachable state -/

/-- The states of a cache behind its `kmem_cache_create`, which has led to `s1`. -/
abbrev SlubReached (cache : Nat) (base : Finset Nat) (s1 : Slub) : SlubState → Prop :=
  Reaches (fun a => a = (s1, [])) (SlubStep cache base) fun _ _ => True

theorem SlubReached.alloc {s1 : Slub} (h : SlubReached cache base s1 (s, live)) (hrun : kmemCacheAlloc cache s = .ok o s')
    (ho : o ≠ 0) : SlubReached cache base s1 (s', o :: live) :=
  Reaches.next h trivial (SlubStep.alloc hrun ho)

/-- **An object that is freed is the next one allocated** exactly if no other slab is partial and, where the object is the only
    live one of its slab, none is empty. -/
theorem slub_lifo {name : List UInt8} {s0 s1 : Slub} (hsize : 8 ≤ size) (hcreate : kmemCacheCreate name size 0 s0 = .ok cache s1)
    (hcache : cache ≠ 0)
    (h : SlubReached cache s0.taken s1 (s, live)) :
    ∃ S R, s.Right cache s0.taken live S R ∧ ∀ obj ∈ live, s.Lifo cache obj ↔ LifoReady R live obj := by
  obtain ⟨num, hs, S, R, hinv⟩ := slub_reached_inv hsize hcreate hcache h
  exact ⟨S, R, hinv.right hs, fun obj hobj => hinv.lifo_iff hs hobj⟩

/-- A cache of objects of 2000 bytes, two to a slab: of the first slab both are live, and of the second one. The first object
    is freed, and the next one allocated is another one, of the second slab. -/
theorem slub_lifo_two_slabs : ∃ s1 s live, kmemCacheCreate [111] 2000 0 slubFresh = .ok 4096 s1 ∧
    SlubReached 4096 slubFresh.taken s1 (s, live) ∧ 10240 ∈ live ∧ ¬ s.Lifo 4096 10240 := by
  have htest : (kmemCacheCreate [111] 2000 0 slubFresh).test (fun c s => decide (c = 4096) &&
      (kmemCacheAlloc 4096 s).test fun o s => decide (o = 10240) &&
      (kmemCacheAlloc 4096 s).test fun o s => decide (o = 8240) &&
      (kmemCacheAlloc 4096 s).test fun o s => decide (o = 14336) &&
      ((kmemCacheFree 4096 10240 >>= fun _ => kmemCacheAlloc 4096) s).test fun o _ => decide (o = 12336)) = true := by
    decide +kernel
  obtain ⟨c, s1, hcreate, htest⟩ := Outcome.exists_of_test htest
  obtain ⟨hc, htest⟩ := Bool.and_eq_true_iff.mp htest
  obtain rfl := of_decide_eq_true hc
  obtain ⟨o, s2, h2, htest⟩ := Outcome.exists_of_test htest
  obtain ⟨ho, htest⟩ := Bool.and_eq_true_iff.mp htest
  obtain rfl := of_decide_eq_true ho
  obtain ⟨o, s3, h3, htest⟩ := Outcome.exists_of_test htest
  obtain ⟨ho, htest⟩ := Bool.and_eq_true_iff.mp htest
  obtain rfl := of_decide_eq_true ho
  obtain ⟨o, s4, h4, htest⟩ := Outcome.exists_of_test htest
  obtain ⟨ho, htest⟩ := Bool.and_eq_true_iff.mp htest
  obtain rfl := of_decide_eq_true ho
  obtain ⟨o, s5, h5, ho⟩ := Outcome.exists_of_test htest
  obtain rfl := of_decide_eq_true ho
  have hstart : SlubReached 4096 slubFresh.taken s1 (s1, []) := .start rfl
  have hrun := ((hstart.alloc h2 (by decide)).alloc h3 (by decide)).alloc h4 (by decide)
  refine ⟨s1, s4, _, hcreate, hrun, by decide, ?_⟩
  rintro ⟨s', hlifo⟩
  rw [h5] at hlifo
  injection hlifo with ho
  omega

/-- With one slab it is the same object again. -/
theorem slub_lifo_one_slab : ∃ s1 s S R, kmemCacheCreate [111] 2000 0 slubFresh = .ok 4096 s1 ∧
    kmemCacheAlloc 4096 s1 = .ok 10240 s ∧ s.Right 4096 slubFresh.taken [10240] S R ∧
    ∀ obj ∈ [10240], s.Lifo 4096 obj ↔ LifoReady R [10240] obj := by
  have htest : (kmemCacheCreate [111] 2000 0 slubFresh).test (fun c s => decide (c = 4096) &&
      (kmemCacheAlloc 4096 s).test fun o _ => decide (o = 10240)) = true := by
    decide +kernel
  obtain ⟨c, s1, hcreate, htest⟩ := Outcome.exists_of_test htest
  obtain ⟨hc, htest⟩ := Bool.and_eq_true_iff.mp htest
  obtain rfl := of_decide_eq_true hc
  obtain ⟨o, s, halloc, ho⟩ := Outcome.exists_of_test htest
  obtain rfl := of_decide_eq_true ho
  have hstart : SlubReached 4096 slubFresh.taken s1 (s1, []) := .start rfl
  obtain ⟨S, R, hright, hlifo⟩ := slub_lifo (by decide) hcreate (by decide) (hstart.alloc halloc (by decide))
  exact ⟨s1, s, S, R, hcreate, halloc, hright, hlifo⟩

end Ucore
