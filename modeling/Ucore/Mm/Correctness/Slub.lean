import Mathlib.Algebra.BigOperators.Group.Finset.Basic
import Mathlib.Algebra.BigOperators.Group.Finset.Piecewise
import Ucore.Lib.Run
import Ucore.Lib.Slots
import Ucore.Libs.ListRing
import Ucore.Mm.Slub

/-!
# `Mm.Correctness.Slub` — the slabs of a cache

`Slub.Inv` says what the lists, the counters and the pointers of a cache have to do with each other. It is kept by every
call, in any order, and by whatever the owners of the objects and the rest of the kernel write to their own memory.
-/

namespace Ucore

variable {s s' : Slub} {cache size num p q o a : Nat} {base S : Finset Nat} {live live' : List Nat}
  {R : SlabList → List Nat} {x : Slab} {k : SlabList}

/-! ## Pages, headers and slots -/

/-- The objects are large enough for a pointer, and a slab has room for `num` of them. -/
structure SlabShape (size num : Nat) : Prop where
  size_ge : 8 ≤ size
  num_pos : 0 < num
  fits : slabHeader + num * size ≤ slabPgsize

/-- The objects of the slab at `p`. -/
def slabSlots (size num p : Nat) : List Nat := slots (p + slabHeader) size num

/-- The list that a slab belongs to. -/
def listFor (num inuse : Nat) : SlabList :=
  if inuse = 0 then .empty else if inuse = num then .full else .part

/-- The live objects of the slab at `p`. -/
def liveOn (live : List Nat) (p : Nat) : List Nat := live.filter fun o => objToSlab o = p

theorem objToSlab_of_page (hp : p % slabPgsize = 0) (hlo : p ≤ a) (hhi : a < p + slabPgsize) : objToSlab a = p := by
  have hp' : p % 4096 = 0 := hp
  have hhi' : a < p + 4096 := hhi
  show a - a % 4096 = p
  omega

/-- All bytes of an object lie behind the header, in the page of the slab. -/
theorem SlabShape.inside (hs : SlabShape size num) (ho : o ∈ slabSlots size num p) :
    p + slabHeader ≤ o ∧ o + size ≤ p + slabPgsize := by
  obtain ⟨hlo, hhi⟩ := slot_bounds ho
  have hfits := hs.fits
  omega

theorem SlabShape.objToSlab (hs : SlabShape size num) (hp : p % slabPgsize = 0) (ho : o ∈ slabSlots size num p)
    (hlo : o ≤ a) (hhi : a < o + size) : objToSlab a = p := by
  obtain ⟨h1, h2⟩ := hs.inside ho
  exact objToSlab_of_page hp (by omega) (by omega)

theorem pagesOf_one (p : Nat) : pagesOf p 1 = {p} := by
  simp [pagesOf]

/-- The list heads are not at the start of a page. -/
theorem slabHead_unaligned (hc : cache % slabPgsize = 0) (k : SlabList) : slabHead cache k % slabPgsize ≠ 0 := by
  have hc' : cache % 4096 = 0 := hc
  cases k with
  | full =>
    show (cache + 56) % 4096 ≠ 0
    omega
  | part =>
    show (cache + 72) % 4096 ≠ 0
    omega
  | empty =>
    show (cache + 88) % 4096 ≠ 0
    omega

theorem mem_liveOn : o ∈ liveOn live p ↔ o ∈ live ∧ objToSlab o = p := by
  simp [liveOn]

/-! ## The invariant -/

/-- **The invariant** of the cache, whose slabs are `S`; `base` are the pages taken by others. -/
structure Slub.Inv (s : Slub) (cache size num : Nat) (base S : Finset Nat) (live : List Nat) (R : SlabList → List Nat) :
    Prop where
  objSize : (s.cache cache).objSize = size
  numPerSlab : (s.cache cache).numPerSlab = num
  slabOrder : (s.cache cache).slabOrder = 0
  taken : s.taken = insert cache (base ∪ S)
  cacheApart : cache ∉ base ∪ S
  baseApart : Disjoint base S
  page : ∀ p ∈ insert cache S, SlabPage p 1
  rings : Rings s.link (slabHead cache) R
  lists : ∀ k p, p ∈ R k ↔ p ∈ S ∧ listFor num (s.slab p).inuse = k
  owner : ∀ p ∈ S, (s.slab p).cache = cache
  objects : ∀ p ∈ S, ∃ free, Threaded s.next 0 (s.slab p).freelist free ∧
    (free ++ liveOn live p).Perm (slabSlots size num p) ∧ (s.slab p).inuse = (liveOn live p).length
  liveIn : ∀ o ∈ live, objToSlab o ∈ S
  active : (s.cache cache).activeObjs = ∑ p ∈ S, (s.slab p).inuse
  totalSlabs : (s.cache cache).totalSlabs = S.card
  totalObjs : (s.cache cache).totalObjs = S.card * num

namespace Slub.Inv

theorem aligned (h : s.Inv cache size num base S live R) (hp : p ∈ S) : p % slabPgsize = 0 :=
  (h.page p (Finset.mem_insert_of_mem hp)).1

theorem ne_zero (h : s.Inv cache size num base S live R) (hp : p ∈ S) : p ≠ 0 :=
  Nat.pos_iff_ne_zero.mp (h.page p (Finset.mem_insert_of_mem hp)).2.1

/-- A list head is no slab. -/
theorem head_notMem (h : s.Inv cache size num base S live R) (k : SlabList) : slabHead cache k ∉ S := fun hmem =>
  slabHead_unaligned (h.page cache (Finset.mem_insert_self _ _)).1 k (h.aligned hmem)

theorem mem_of_list (h : s.Inv cache size num base S live R) (hp : p ∈ R k) : p ∈ S := ((h.lists k p).mp hp).1

/-- A live object is a slot of its slab. -/
theorem live_slot (h : s.Inv cache size num base S live R) (ho : o ∈ live) : o ∈ slabSlots size num (objToSlab o) := by
  obtain ⟨free, -, hperm, -⟩ := h.objects _ (h.liveIn o ho)
  exact hperm.subset (List.mem_append_right _ (mem_liveOn.mpr ⟨ho, rfl⟩))

theorem live_ne_zero (h : s.Inv cache size num base S live R) (hs : SlabShape size num) (ho : o ∈ live) : o ≠ 0 := by
  have hin := (hs.inside (h.live_slot ho)).1
  have hpos : slabHeader = 48 := rfl
  omega

/-- The live objects are distinct. -/
theorem live_nodup (h : s.Inv cache size num base S live R) (hs : SlabShape size num) : live.Nodup := by
  rw [List.nodup_iff_count_le_one]
  intro o
  by_cases ho : o ∈ live
  · obtain ⟨free, -, hperm, -⟩ := h.objects _ (h.liveIn o ho)
    have hsize : 0 < size := Nat.lt_of_lt_of_le (by decide) hs.size_ge
    have hnd := hperm.nodup_iff.mpr (slots_nodup _ hsize num)
    have hcount := List.nodup_iff_count_le_one.mp (List.nodup_append.mp hnd).2.1 o
    rwa [liveOn, List.count_filter (by simp)] at hcount
  · rw [List.count_eq_zero_of_not_mem ho]
    exact Nat.zero_le 1

/-! ## A slab changes, and moves to the list it then belongs to -/

/-- The lists after the slab at `p` has moved from the list `j` to the end of the list `k`. -/
def moved (R : SlabList → List Nat) (p : Nat) (j k : SlabList) : SlabList → List Nat :=
  Function.update (Function.update R j ((R j).erase p)) k (Function.update R j ((R j).erase p) k ++ [p])

theorem mem_moved {j i : SlabList} (hnd : (R j).Nodup) (hother : ∀ i, p ∈ R i → i = j) :
    q ∈ moved R p j k i ↔ q ≠ p ∧ q ∈ R i ∨ q = p ∧ i = k := by
  have herase : q ∈ Function.update R j ((R j).erase p) i ↔ q ≠ p ∧ q ∈ R i := by
    by_cases hi : i = j
    · subst hi
      rw [Function.update_self, hnd.mem_erase_iff]
    · rw [Function.update_of_ne hi]
      refine ⟨fun hq => ⟨?_, hq⟩, fun hq => hq.2⟩
      rintro rfl
      exact hi (hother i hq)
  by_cases hi : i = k
  · subst hi
    rw [moved, Function.update_self, List.mem_append, List.mem_singleton, herase]
    simp
  · rw [moved, Function.update_of_ne hi, herase]
    simp [hi]

end Slub.Inv

/-- What `kmem_cache_alloc` and `kmem_cache_free` do to the slab at `p`: its header becomes `x`, and it moves to the end
of the list it then belongs to. -/
def Slub.change (s : Slub) (cache num p : Nat) (x : Slab) (bytes : Bytes) (active : Nat) : Slub :=
  { s with
    bytes := bytes
    slab := Function.update s.slab p x
    cache := Function.update s.cache cache { s.cache cache with activeObjs := active }
    link := listAddBefore (listDel s.link p) (slabHead cache (listFor num x.inuse)) p }

theorem Slub.Inv.change (h : s.Inv cache size num base S live R) (hs : SlabShape size num) (hp : p ∈ S) {bytes : Bytes}
    {active : Nat} (hcache : x.cache = cache)
    (hobj : ∃ free, Threaded (fun o => getLe bytes o 8) 0 x.freelist free ∧
      (free ++ liveOn live' p).Perm (slabSlots size num p) ∧ x.inuse = (liveOn live' p).length)
    (hother : ∀ q, q ≠ p → liveOn live' q = liveOn live q) (hlive : ∀ o ∈ live', objToSlab o ∈ S)
    (hbytes : ∀ a, objToSlab a ≠ p → bytes a = s.bytes a)
    (hactive : active + (s.slab p).inuse = (s.cache cache).activeObjs + x.inuse) :
    (s.change cache num p x bytes active).Inv cache size num base S live'
      (moved R p (listFor num (s.slab p).inuse) (listFor num x.inuse)) := by
  have hmem : p ∈ R (listFor num (s.slab p).inuse) := (h.lists _ p).mpr ⟨hp, rfl⟩
  have hrec : (s.change cache num p x bytes active).cache cache = { s.cache cache with activeObjs := active } :=
    Function.update_self cache _ s.cache
  have hslab : (s.change cache num p x bytes active).slab p = x := Function.update_self p _ s.slab
  have hslab' : ∀ q, q ≠ p → (s.change cache num p x bytes active).slab q = s.slab q := fun q hq =>
    Function.update_of_ne hq _ s.slab
  refine ⟨?_, ?_, ?_, h.taken, h.cacheApart, h.baseApart, h.page, ?_, ?_, ?_, ?_, hlive, ?_, ?_, ?_⟩
  · rw [hrec]
    exact h.objSize
  · rw [hrec]
    exact h.numPerSlab
  · rw [hrec]
    exact h.slabOrder
  · -- the slab leaves its ring, and joins the other one
    refine (h.rings.listDel hmem).listAddBefore _ ?_
    intro j hj
    rcases List.mem_cons.mp hj with heq | hj
    · exact h.head_notMem j (heq ▸ hp)
    · by_cases hjk : j = listFor num (s.slab p).inuse
      · rw [hjk, Function.update_self] at hj
        exact ((List.nodup_cons.mp (h.rings.ring _).nodup).2.mem_erase_iff.mp hj).1 rfl
      · rw [Function.update_of_ne hjk] at hj
        exact hjk (h.rings.unique hj hmem)
  · intro k q
    rw [Slub.Inv.mem_moved (List.nodup_cons.mp (h.rings.ring _).nodup).2 fun i hi => h.rings.unique hi hmem]
    by_cases hq : q = p
    · subst hq
      rw [hslab]
      simp [hp, eq_comm]
    · rw [hslab' q hq, h.lists k q]
      simp [hq]
  · intro q hq
    by_cases hqp : q = p
    · rw [hqp, hslab]
      exact hcache
    · rw [hslab' q hqp]
      exact h.owner q hq
  · intro q hq
    by_cases hqp : q = p
    · rw [hqp, hslab]
      exact hobj
    · rw [hslab' q hqp, hother q hqp]
      obtain ⟨free, hthread, hperm, hinuse⟩ := h.objects q hq
      refine ⟨free, hthread.congr fun o ho => getLe_congr fun a h1 h2 => hbytes a ?_, hperm, hinuse⟩
      -- the links of the other slabs are in other pages
      have hslot := hperm.subset (List.mem_append_left _ ho)
      have hsize := hs.size_ge
      rw [hs.objToSlab (h.aligned hq) hslot h1 (by omega)]
      exact hqp
  · rw [hrec]
    show active = ∑ q ∈ S, (Function.update s.slab p x q).inuse
    have hsum := h.active
    rw [← Finset.add_sum_erase S _ hp] at hsum ⊢
    rw [Function.update_self]
    have hrest : ∑ q ∈ S.erase p, (Function.update s.slab p x q).inuse = ∑ q ∈ S.erase p, (s.slab q).inuse := by
      refine Finset.sum_congr rfl fun q hq => ?_
      rw [Function.update_of_ne (Finset.ne_of_mem_erase hq)]
    rw [hrest]
    omega
  · rw [hrec]
    exact h.totalSlabs
  · rw [hrec]
    exact h.totalObjs

/-! ## `kmem_cache_alloc` -/

theorem listFor_succ (num n : Nat) : listFor num (n + 1) = if n + 1 = num then .full else .part := by
  rw [listFor, if_neg (Nat.succ_ne_zero n)]

theorem kmemCacheTake_run (cache : Nat) (hne : (s.slab p).freelist ≠ 0) (hnum : (s.cache cache).numPerSlab = num) :
    kmemCacheTake cache p s = .ok (s.slab p).freelist (s.change cache num p
      { s.slab p with freelist := s.next (s.slab p).freelist, inuse := (s.slab p).inuse + 1 } s.bytes
      ((s.cache cache).activeObjs + 1)) := by
  rw [kmemCacheTake, Proc.get_bind, Proc.check_bind_pos hne]
  simp only [Proc.modify_bind, Proc.get_bind, Slub.setSlab, Slub.setCache, Slub.change, Function.update_self, listFor_succ, hnum]
  by_cases hfull : (s.slab p).inuse + 1 = num
  · rw [if_pos hfull, if_pos hfull]
    rfl
  · rw [if_neg hfull, if_neg hfull]
    rfl

namespace Slub.Inv

/-- The free objects of a slab are those that are not live. -/
theorem free_length (h : s.Inv cache size num base S live R) (hp : p ∈ S) :
    ∃ free, Threaded s.next 0 (s.slab p).freelist free ∧ (free ++ liveOn live p).Perm (slabSlots size num p) ∧
      (s.slab p).inuse + free.length = num := by
  obtain ⟨free, hthread, hperm, hinuse⟩ := h.objects p hp
  refine ⟨free, hthread, hperm, ?_⟩
  have hlen := hperm.length_eq
  rw [List.length_append, slabSlots, length_slots] at hlen
  omega

/-- An object is taken from a slab that is not full. -/
theorem take (h : s.Inv cache size num base S live R) (hs : SlabShape size num) (hp : p ∈ S) (hroom : (s.slab p).inuse ≠ num) :
    ∃ o s' R', kmemCacheTake cache p s = .ok o s' ∧ o ≠ 0 ∧ o ∉ live ∧ s'.Inv cache size num base S (o :: live) R' := by
  obtain ⟨free, hthread, hperm, hlen⟩ := h.free_length hp
  obtain ⟨-, -, -, hinuse⟩ := h.objects p hp
  have hne : (s.slab p).freelist ≠ 0 := by
    intro hnull
    rw [hthread.null_iff.mp hnull] at hlen
    exact hroom hlen
  obtain ⟨rest, rfl, hrest⟩ := hthread.uncons hne
  generalize ho : (s.slab p).freelist = o at *
  have hslot : o ∈ slabSlots size num p := hperm.subset (List.mem_append_left _ List.mem_cons_self)
  have hobj : objToSlab o = p := by
    have hsize := hs.size_ge
    exact hs.objToSlab (h.aligned hp) hslot (Nat.le_refl o) (by omega)
  have hdead : o ∉ live := by
    intro hlive
    -- all slots are distinct, and this one is free
    have hsize : 0 < size := Nat.lt_of_lt_of_le (by decide) hs.size_ge
    have hnd := hperm.nodup_iff.mpr (slots_nodup _ hsize num)
    exact (List.nodup_append.mp hnd).2.2 o List.mem_cons_self o (mem_liveOn.mpr ⟨hlive, hobj⟩) rfl
  have hon : liveOn (o :: live) p = o :: liveOn live p := List.filter_cons_of_pos (by simpa using hobj)
  have hrun := kmemCacheTake_run cache (ho ▸ hne) h.numPerSlab
  rw [ho] at hrun
  refine ⟨o, _, _, hrun, hne, hdead, h.change hs hp ?_ ?_ ?_ ?_ (fun _ _ => rfl) ?_⟩
  · exact h.owner p hp
  · refine ⟨rest, hrest, ?_, ?_⟩
    · rw [hon]
      exact List.perm_middle.trans hperm
    · rw [hon, List.length_cons, hinuse]
  · intro q hq
    refine List.filter_cons_of_neg ?_
    rw [hobj]
    simpa using hq.symm
  · intro o' ho'
    rcases List.mem_cons.mp ho' with rfl | ho'
    · exact hobj ▸ hp
    · exact h.liveIn o' ho'
  · show (s.cache cache).activeObjs + 1 + (s.slab p).inuse = (s.cache cache).activeObjs + ((s.slab p).inuse + 1)
    omega

end Slub.Inv

/-! ## `kmem_cache_free` -/

theorem listFor_pred {n : Nat} (hnum : n ≤ num) (hpos : 0 < n) : listFor num (n - 1) = if n - 1 = 0 then .empty else .part := by
  rw [listFor]
  by_cases hz : n - 1 = 0
  · rw [if_pos hz, if_pos hz]
  · rw [if_neg hz, if_neg hz, if_neg (by omega)]

theorem kmemCacheFree_run (num : Nat) (ho : o ≠ 0) (hp : objToSlab o = p) (hcache : (s.slab p).cache = cache)
    (hpos : 0 < (s.slab p).inuse) (hnum : (s.slab p).inuse ≤ num) :
    kmemCacheFree cache o s = .ok () (s.change cache num p
      { s.slab p with freelist := o, inuse := (s.slab p).inuse - 1 } (putLe s.bytes o (s.slab p).freelist 8)
      ((s.cache cache).activeObjs - 1)) := by
  subst hp
  rw [kmemCacheFree, if_neg ho, Proc.get_bind, Proc.check_bind_pos hcache, Proc.check_bind_pos hpos]
  simp only [Proc.modify_bind, Proc.get_bind, Slub.pushFree, Slub.setSlab, Slub.setCache, Slub.change, Function.update_self,
    Function.update_idem, listFor_pred hnum hpos]
  by_cases hz : (s.slab (objToSlab o)).inuse - 1 = 0
  · rw [if_pos hz, if_pos hz]
    rfl
  · rw [if_neg hz, if_neg hz]
    rfl

namespace Slub.Inv

theorem freelist_lt (h : s.Inv cache size num base S live R) (hs : SlabShape size num) (hp : p ∈ S) :
    (s.slab p).freelist < 2 ^ 64 := by
  obtain ⟨free, hthread, hperm, -⟩ := h.objects p hp
  cases free with
  | nil =>
    rw [show (s.slab p).freelist = 0 from hthread]
    decide
  | cons o rest =>
    have htop : p + 1 * 4096 ≤ 2 ^ 64 := (h.page p (Finset.mem_insert_of_mem hp)).2.2
    have hin : o + size ≤ p + 4096 := (hs.inside (hperm.subset (List.mem_append_left _ List.mem_cons_self))).2
    have hsize := hs.size_ge
    rw [hthread.1]
    omega

end Slub.Inv

/-- The object `o` has been given back to its slab. -/
def Slub.freed (s : Slub) (cache num o : Nat) : Slub :=
  s.change cache num (objToSlab o)
    { s.slab (objToSlab o) with freelist := o, inuse := (s.slab (objToSlab o)).inuse - 1 }
    (putLe s.bytes o (s.slab (objToSlab o)).freelist 8) ((s.cache cache).activeObjs - 1)

namespace Slub.Inv

/-- A slab with a live object is in use. -/
theorem inuse_pos (h : s.Inv cache size num base S live R) (ho : o ∈ live) : 0 < (s.slab (objToSlab o)).inuse := by
  obtain ⟨-, -, -, hinuse⟩ := h.objects _ (h.liveIn o ho)
  rw [hinuse]
  exact List.length_pos_of_mem (mem_liveOn.mpr ⟨ho, rfl⟩)

/-- **`kmem_cache_free`** of a live object. -/
theorem free_run (h : s.Inv cache size num base S live R) (hs : SlabShape size num) (ho : o ∈ live) :
    kmemCacheFree cache o s = .ok () (s.freed cache num o) := by
  obtain ⟨free, -, -, hlen⟩ := h.free_length (h.liveIn o ho)
  exact kmemCacheFree_run num (h.live_ne_zero hs ho) rfl (h.owner _ (h.liveIn o ho)) (h.inuse_pos ho) (by omega)

/-- The slab goes to the end of the list that it then belongs to. -/
theorem freed (h : s.Inv cache size num base S live R) (hs : SlabShape size num) (ho : o ∈ live) :
    (s.freed cache num o).Inv cache size num base S (live.erase o) (moved R (objToSlab o)
      (listFor num (s.slab (objToSlab o)).inuse) (listFor num ((s.slab (objToSlab o)).inuse - 1))) := by
  have hp : objToSlab o ∈ S := h.liveIn o ho
  have hslot : o ∈ slabSlots size num (objToSlab o) := h.live_slot ho
  have hon : o ∈ liveOn live (objToSlab o) := mem_liveOn.mpr ⟨ho, rfl⟩
  obtain ⟨free, hthread, hperm, -⟩ := h.free_length hp
  obtain ⟨-, -, -, hinuse⟩ := h.objects _ hp
  have hpos := h.inuse_pos ho
  have hsize := hs.size_ge
  have herase : liveOn (live.erase o) (objToSlab o) = (liveOn live (objToSlab o)).erase o := by
    rw [liveOn, liveOn, List.erase_filter]
  refine h.change hs hp ?_ ?_ ?_ ?_ ?_ ?_
  · exact h.owner _ hp
  · refine ⟨o :: free, ?_, ?_, ?_⟩
    · refine hthread.push (h.live_ne_zero hs ho) ?_ fun o' ho' => ?_
      · rw [getLe_putLe]
        exact Nat.mod_eq_of_lt (h.freelist_lt hs hp)
      · -- the other slots are not written
        have hnd := hperm.nodup_iff.mpr (slots_nodup _ (Nat.lt_of_lt_of_le (by decide) hsize) num)
        have hne : o' ≠ o := (List.nodup_append.mp hnd).2.2 o' ho' o hon
        have hapart := slots_apart (hperm.subset (List.mem_append_left _ ho')) hslot hne
        exact getLe_putLe_out (by omega)
    · rw [herase]
      exact List.perm_middle.symm.trans (((List.perm_cons_erase hon).symm.append_left free).trans hperm)
    · rw [herase, List.length_erase_of_mem hon, ← hinuse]
  · intro q hq
    rw [liveOn, ← List.erase_filter]
    exact List.erase_of_not_mem fun hmem => hq (mem_liveOn.mp hmem).2.symm
  · intro o' ho'
    exact h.liveIn o' (List.mem_of_mem_erase ho')
  · intro a ha
    refine putLe_out ?_
    by_contra hin
    exact ha (hs.objToSlab (h.aligned hp) hslot (by omega) (by omega))
  · show (s.cache cache).activeObjs - 1 + (s.slab _).inuse = (s.cache cache).activeObjs + ((s.slab _).inuse - 1)
    have hsum := h.active
    rw [← Finset.add_sum_erase S _ hp] at hsum
    omega

/-- A live object is given back. -/
theorem free (h : s.Inv cache size num base S live R) (hs : SlabShape size num) (ho : o ∈ live) :
    ∃ s' R', kmemCacheFree cache o s = .ok () s' ∧ s'.Inv cache size num base S (live.erase o) R' :=
  ⟨_, _, h.free_run hs ho, h.freed hs ho⟩

end Slub.Inv

/-! ## `kmem_cache_grow` -/

theorem slubAllocPages_some (hpick : s.pick s.ticks = some p) (hpage : SlabPage p 1) (hnew : p ∉ s.taken) :
    slubAllocPages 1 s = .ok p { s with ticks := s.ticks + 1, taken := insert p s.taken } := by
  have hcond : SlabPage p 1 ∧ Disjoint (pagesOf p 1) s.taken := by
    rw [pagesOf_one]
    exact ⟨hpage, Finset.disjoint_singleton_left.mpr hnew⟩
  have htaken : insert p s.taken = s.taken ∪ pagesOf p 1 := by
    rw [pagesOf_one, Finset.union_comm, Finset.insert_eq]
  rw [slubAllocPages, Proc.get_bind, htaken]
  simp only [Nat.add_sub_cancel, hpick, if_pos hcond]
  rfl

/-- There is no page for the caller. -/
theorem slubAllocPages_none (hnone : ∀ p, s.pick s.ticks = some p → SlabPage p 1 → p ∈ s.taken) :
    slubAllocPages 1 s = .ok 0 { s with ticks := s.ticks + 1 } := by
  rw [slubAllocPages, Proc.get_bind]
  simp only [Nat.add_sub_cancel]
  cases hpick : s.pick s.ticks with
  | none => rfl
  | some p =>
    have hcond : ¬ (SlabPage p 1 ∧ Disjoint (pagesOf p 1) s.taken) := by
      rw [pagesOf_one]
      exact fun hp => Finset.disjoint_singleton_left.mp hp.2 (hnone p hpick hp.1)
    simp only [if_neg hcond]
    rfl

/-- The page that `alloc_pages` returns is not in use. -/
theorem slubAllocPages_cases (s : Slub) :
    slubAllocPages 1 s = .ok 0 { s with ticks := s.ticks + 1 } ∨
      ∃ p, SlabPage p 1 ∧ p ∉ s.taken ∧
        slubAllocPages 1 s = .ok p { s with ticks := s.ticks + 1, taken := insert p s.taken } := by
  by_cases hnone : ∀ p, s.pick s.ticks = some p → SlabPage p 1 → p ∈ s.taken
  · exact .inl (slubAllocPages_none hnone)
  · push Not at hnone
    obtain ⟨p, hpick, hpage, hnew⟩ := hnone
    exact .inr ⟨p, hpage, hnew, slubAllocPages_some hpick hpage hnew⟩

/-- What the loop of `kmem_cache_grow` makes of the slab at `p`. -/
structure Slub.Pushed (s t : Slub) (p lo hi : Nat) (free : List Nat) : Prop where
  link : t.link = s.link
  cache : t.cache = s.cache
  taken : t.taken = s.taken
  others : ∀ q, q ≠ p → t.slab q = s.slab q
  owner : (t.slab p).cache = (s.slab p).cache
  inuse : (t.slab p).inuse = (s.slab p).inuse
  bytes : ∀ a, a < lo ∨ hi ≤ a → t.bytes a = s.bytes a
  thread : Threaded t.next 0 (t.slab p).freelist free

/-- **The loop**, by induction on the slots that are left; those pushed so far are `free`. -/
theorem Slub.pushSlots_pushed (free : List Nat) (ptr n : Nat) (hsize : 8 ≤ size) (hptr : 0 < ptr)
    (htop : ptr + n * size ≤ 2 ^ 64) (hlt : (s.slab p).freelist < 2 ^ 64) (hfree : ∀ o ∈ free, o + 8 ≤ ptr)
    (hthread : Threaded s.next 0 (s.slab p).freelist free) :
    s.Pushed (s.pushSlots p size ptr n) p ptr (ptr + n * size) ((slots ptr size n).reverse ++ free) := by
  induction n generalizing s ptr free with
  | zero => exact ⟨rfl, rfl, rfl, fun _ _ => rfl, rfl, rfl, fun _ _ => rfl, hthread⟩
  | succ n ih =>
    rw [Nat.succ_mul] at htop
    have hslab : (s.pushFree p ptr).slab p = { s.slab p with freelist := ptr } := Function.update_self p _ s.slab
    have hpush : Threaded (s.pushFree p ptr).next 0 ((s.pushFree p ptr).slab p).freelist (ptr :: free) := by
      rw [hslab]
      refine hthread.push (Nat.pos_iff_ne_zero.mp hptr) ?_ fun o ho => ?_
      · show getLe (putLe s.bytes ptr (s.slab p).freelist 8) ptr 8 = (s.slab p).freelist
        rw [getLe_putLe]
        exact Nat.mod_eq_of_lt hlt
      · have hle := hfree o ho
        exact getLe_putLe_out (by omega)
    have hbehind : ∀ o ∈ ptr :: free, o + 8 ≤ ptr + size := by
      intro o ho
      rcases List.mem_cons.mp ho with rfl | ho
      · omega
      · have hle := hfree o ho
        omega
    have hlt' : ((s.pushFree p ptr).slab p).freelist < 2 ^ 64 := by
      rw [hslab]
      show ptr < 2 ^ 64
      omega
    have hrest := ih (s := s.pushFree p ptr) (ptr :: free) (ptr + size) (by omega) (by omega) hlt' hbehind hpush
    have hslots : (slots ptr size (n + 1)).reverse ++ free = (slots (ptr + size) size n).reverse ++ ptr :: free := by
      rw [slots_succ, List.reverse_cons, List.append_assoc, List.singleton_append]
    rw [hslots]
    refine ⟨hrest.link, hrest.cache, hrest.taken, fun q hq => ?_, ?_, ?_, fun a ha => ?_, hrest.thread⟩
    · exact (hrest.others q hq).trans (Function.update_of_ne hq _ s.slab)
    · exact hrest.owner.trans (by rw [hslab])
    · exact hrest.inuse.trans (by rw [hslab])
    · rw [Nat.succ_mul] at ha
      exact (hrest.bytes a (by omega)).trans (putLe_out (by omega))

/-- The state after `kmem_cache_grow` made the page `p` a slab. -/
def Slub.grown (s : Slub) (cache p : Nat) : Slub :=
  let s1 : Slub := { s with ticks := s.ticks + 1, taken := insert p s.taken }
  let s2 := s1.setSlab p { cache := cache, inuse := 0, freelist := 0, sMem := p + slabHeader }
  let s3 := s2.pushSlots p (s.cache cache).objSize (p + slabHeader) (s.cache cache).numPerSlab
  let s4 : Slub := { s3 with link := listAddBefore s3.link (slabHead cache .empty) p }
  s4.setCache cache { s.cache cache with
    totalSlabs := (s.cache cache).totalSlabs + 1
    totalObjs := (s.cache cache).totalObjs + (s.cache cache).numPerSlab }

theorem Slub.pushSlots_cache (s : Slub) (p size ptr n : Nat) : (s.pushSlots p size ptr n).cache = s.cache := by
  induction n generalizing s ptr with
  | zero => rfl
  | succ n ih => exact ih (s.pushFree p ptr) (ptr + size)

theorem kmemCacheGrow_some (horder : (s.cache cache).slabOrder = 0) (hpage : SlabPage p 1)
    (halloc : slubAllocPages 1 s = .ok p { s with ticks := s.ticks + 1, taken := insert p s.taken }) :
    kmemCacheGrow cache s = .ok 0 (s.grown cache p) := by
  rw [kmemCacheGrow, Proc.get_bind, horder, Nat.pow_zero, Proc.bind_ok halloc, if_neg (Nat.pos_iff_ne_zero.mp hpage.2.1)]
  simp only [Proc.modify_bind, Slub.setSlab, Function.update_self, Slub.setCache, Slub.pushSlots_cache, Slub.grown]
  rfl

theorem kmemCacheGrow_cases (horder : (s.cache cache).slabOrder = 0) :
    kmemCacheGrow cache s = .ok (-eNoMem) { s with ticks := s.ticks + 1 } ∨
      ∃ p, SlabPage p 1 ∧ p ∉ s.taken ∧ kmemCacheGrow cache s = .ok 0 (s.grown cache p) := by
  rcases slubAllocPages_cases s with hrun | ⟨p, hpage, hnew, hrun⟩
  · rw [kmemCacheGrow, Proc.get_bind, horder, Nat.pow_zero, Proc.bind_ok hrun]
    exact .inl rfl
  · exact .inr ⟨p, hpage, hnew, kmemCacheGrow_some horder hpage hrun⟩

theorem Slub.Inv.tick (h : s.Inv cache size num base S live R) :
    ({ s with ticks := s.ticks + 1 } : Slub).Inv cache size num base S live R :=
  ⟨h.objSize, h.numPerSlab, h.slabOrder, h.taken, h.cacheApart, h.baseApart, h.page, h.rings, h.lists, h.owner, h.objects,
    h.liveIn, h.active, h.totalSlabs, h.totalObjs⟩

/-- What `kmem_cache_grow` does: the page `p` is a slab without a live object, and nothing else changes but the counts. -/
structure Slub.Grown (s t : Slub) (cache p size num : Nat) : Prop where
  record : t.cache cache = { s.cache cache with
    totalSlabs := (s.cache cache).totalSlabs + 1, totalObjs := (s.cache cache).totalObjs + num }
  taken : t.taken = insert p s.taken
  link : t.link = listAddBefore s.link (slabHead cache .empty) p
  others : ∀ q, q ≠ p → t.slab q = s.slab q
  owner : (t.slab p).cache = cache
  inuse : (t.slab p).inuse = 0
  thread : Threaded t.next 0 (t.slab p).freelist (slabSlots size num p).reverse
  bytes : ∀ a, objToSlab a ≠ p → t.bytes a = s.bytes a

theorem Slub.grown_spec (hs : SlabShape size num) (hpage : SlabPage p 1) (hsize : (s.cache cache).objSize = size)
    (hnum : (s.cache cache).numPerSlab = num) : s.Grown (s.grown cache p) cache p size num := by
  have hal : p % 4096 = 0 := hpage.1
  have htop : p + 1 * 4096 ≤ 2 ^ 64 := hpage.2.2
  have hfits : 48 + num * size ≤ 4096 := hs.fits
  -- the state before the loop, and what the loop makes of it
  generalize hs2 : ({ s with ticks := s.ticks + 1, taken := insert p s.taken } : Slub).setSlab p
    { cache := cache, inuse := 0, freelist := 0, sMem := p + slabHeader } = s2
  have hself : s2.slab p = { cache := cache, inuse := 0, freelist := 0, sMem := p + slabHeader } := by
    rw [← hs2]
    exact Function.update_self p _ s.slab
  have hpush : s2.Pushed (s2.pushSlots p size (p + slabHeader) num) p (p + slabHeader) (p + slabHeader + num * size)
      ((slots (p + slabHeader) size num).reverse ++ []) := by
    refine Slub.pushSlots_pushed [] _ _ hs.size_ge ?_ ?_ ?_ (fun o ho => absurd ho List.not_mem_nil) ?_
    · show 0 < p + 48
      omega
    · show p + 48 + num * size ≤ 2 ^ 64
      omega
    · rw [hself]
      exact Nat.two_pow_pos 64
    · rw [hself]
      rfl
  generalize hs3 : s2.pushSlots p size (p + slabHeader) num = s3 at hpush
  have hgrown : s.grown cache p = ({ s3 with link := listAddBefore s3.link (slabHead cache .empty) p } : Slub).setCache cache
      { s.cache cache with totalSlabs := (s.cache cache).totalSlabs + 1, totalObjs := (s.cache cache).totalObjs + num } := by
    rw [← hs3, ← hs2, ← hsize, ← hnum]
    rfl
  rw [hgrown]
  refine ⟨Function.update_self cache _ s3.cache, ?_, ?_, fun q hq => ?_, ?_, ?_, ?_, fun a ha => ?_⟩
  · show s3.taken = _
    rw [hpush.taken, ← hs2]
    rfl
  · show listAddBefore s3.link _ _ = _
    rw [hpush.link, ← hs2]
    rfl
  · show s3.slab q = _
    rw [hpush.others q hq, ← hs2]
    exact Function.update_of_ne hq _ s.slab
  · exact hpush.owner.trans (by rw [hself])
  · exact hpush.inuse.trans (by rw [hself])
  · have hthread := hpush.thread
    rw [List.append_nil] at hthread
    exact hthread
  · -- no byte of another page is written
    have hout : a < p + 48 ∨ p + 48 + num * size ≤ a := by
      by_contra hin
      exact ha (objToSlab_of_page hal (by omega) (by show a < p + 4096; omega))
    show s3.bytes a = _
    rw [hpush.bytes a hout, ← hs2]
    rfl

namespace Slub.Grown

variable {t : Slub}

/-- The new slab is on the list of empty ones. -/
theorem lists (hg : s.Grown t cache p size num) (h : s.Inv cache size num base S live R) (hS : p ∉ S) (k : SlabList) (q : Nat) :
    q ∈ Function.update R .empty (R .empty ++ [p]) k ↔ q ∈ insert p S ∧ listFor num (t.slab q).inuse = k := by
  have hnotin : ∀ j, p ∉ R j := fun j hj => hS (h.mem_of_list hj)
  by_cases hq : q = p
  · rw [hq, hg.inuse]
    cases k with
    | empty => simp [listFor]
    | full => simp [listFor, hnotin]
    | part => simp [listFor, hnotin]
  · have hmem : q ∈ Function.update R .empty (R .empty ++ [p]) k ↔ q ∈ R k := by
      cases k with
      | empty => simp [hq]
      | full => simp
      | part => simp
    rw [hmem, hg.others q hq, h.lists k q]
    simp [hq]

/-- Its objects are free, and those of the other slabs are as before. -/
theorem objects (hg : s.Grown t cache p size num) (h : s.Inv cache size num base S live R) (hs : SlabShape size num) (hS : p ∉ S)
    {q : Nat} (hq : q ∈ insert p S) : ∃ free, Threaded t.next 0 (t.slab q).freelist free ∧
      (free ++ liveOn live q).Perm (slabSlots size num q) ∧ (t.slab q).inuse = (liveOn live q).length := by
  rcases Finset.mem_insert.mp hq with rfl | hq
  · have hdead : liveOn live q = [] := by
      refine List.filter_eq_nil_iff.mpr fun o ho hon => hS ?_
      rw [← of_decide_eq_true hon]
      exact h.liveIn o ho
    refine ⟨_, hg.thread, ?_, ?_⟩
    · rw [hdead, List.append_nil]
      exact List.reverse_perm _
    · rw [hdead, hg.inuse]
      rfl
  · have hqp : q ≠ p := fun heq => hS (heq ▸ hq)
    rw [hg.others q hqp]
    obtain ⟨free, hthread, hperm, hcount⟩ := h.objects q hq
    refine ⟨free, hthread.congr fun o ho => getLe_congr fun a h1 h2 => hg.bytes a ?_, hperm, hcount⟩
    have hsize := hs.size_ge
    rw [hs.objToSlab (h.aligned hq) (hperm.subset (List.mem_append_left _ ho)) h1 (by omega)]
    exact hqp

end Slub.Grown

/-- A new slab is on the list of empty ones, and all its objects are free. -/
theorem Slub.Inv.grow (h : s.Inv cache size num base S live R) (hs : SlabShape size num) (hpage : SlabPage p 1)
    (hnew : p ∉ s.taken) :
    (s.grown cache p).Inv cache size num base (insert p S) live (Function.update R .empty (R .empty ++ [p])) := by
  obtain ⟨hne, hbase, hS⟩ : p ≠ cache ∧ p ∉ base ∧ p ∉ S := by
    rw [h.taken] at hnew
    simpa using hnew
  have hal : p % 4096 = 0 := hpage.1
  have hg := Slub.grown_spec hs hpage h.objSize h.numPerSlab
  have hkeep : ∀ q ∈ S, (s.grown cache p).slab q = s.slab q := fun q hq => hg.others q fun heq => hS (heq ▸ hq)
  refine ⟨?_, ?_, ?_, ?_, ?_, ?_, ?_, ?_, hg.lists h hS, ?_, fun q hq => hg.objects h hs hS hq, ?_, ?_, ?_, ?_⟩
  · rw [hg.record]
    exact h.objSize
  · rw [hg.record]
    exact h.numPerSlab
  · rw [hg.record]
    exact h.slabOrder
  · rw [hg.taken, h.taken, Finset.insert_comm, Finset.union_insert]
  · have hc := h.cacheApart
    simp only [Finset.mem_union, Finset.mem_insert] at hc ⊢
    tauto
  · rw [Finset.disjoint_insert_right]
    exact ⟨hbase, h.baseApart⟩
  · intro q hq
    rw [Finset.insert_comm] at hq
    rcases Finset.mem_insert.mp hq with rfl | hq
    · exact hpage
    · exact h.page q hq
  · rw [hg.link]
    refine h.rings.listAddBefore _ fun j hj => ?_
    rcases List.mem_cons.mp hj with heq | hj
    · have hk : slabHead cache j % 4096 = 0 := by
        rw [← heq]
        exact hal
      have hc : cache % 4096 = 0 := (h.page cache (Finset.mem_insert_self _ _)).1
      exact slabHead_unaligned hc j hk
    · exact hS (h.mem_of_list hj)
  · intro q hq
    rcases Finset.mem_insert.mp hq with rfl | hq
    · exact hg.owner
    · rw [hkeep q hq]
      exact h.owner q hq
  · exact fun o ho => Finset.mem_insert_of_mem (h.liveIn o ho)
  · rw [hg.record, Finset.sum_insert hS, hg.inuse, Nat.zero_add]
    show (s.cache cache).activeObjs = _
    rw [h.active]
    refine Finset.sum_congr rfl fun q hq => ?_
    rw [hkeep q hq]
  · rw [hg.record, Finset.card_insert_of_notMem hS, ← h.totalSlabs]
  · rw [hg.record, Finset.card_insert_of_notMem hS, Nat.succ_mul, ← h.totalObjs]

namespace Slub.Inv

/-- The first slab on a list other than that of the full ones has a free object. -/
theorem first (h : s.Inv cache size num base S live R) (hs : SlabShape size num) (hk : k ≠ .full)
    (hempty : ¬ listEmpty s.link (slabHead cache k) = true) :
    listNext s.link (slabHead cache k) ∈ S ∧ (s.slab (listNext s.link (slabHead cache k))).inuse ≠ num := by
  rw [(h.rings.ring k).listEmpty_iff] at hempty
  rw [(h.rings.ring k).next_head]
  cases hlist : R k with
  | nil => exact absurd hlist hempty
  | cons p rest =>
    have hp : p ∈ R k := by
      rw [hlist]
      exact List.mem_cons_self
    obtain ⟨hmem, hfor⟩ := (h.lists k p).mp hp
    refine ⟨hmem, ?_⟩
    show (s.slab p).inuse ≠ num
    rintro hfull
    have hpos := hs.num_pos
    rw [hfull, listFor, if_neg (by omega), if_pos rfl] at hfor
    exact hk hfor.symm

/-- `kmem_cache_alloc` finds a slab with a free object, unless there is no page for one. -/
theorem slab (h : s.Inv cache size num base S live R) (hs : SlabShape size num) :
    ∃ p s' S' R', kmemCacheSlab cache s = .ok p s' ∧ s'.Inv cache size num base S' live R' ∧
      (p = 0 ∨ p ∈ S' ∧ (s'.slab p).inuse ≠ num) := by
  rw [kmemCacheSlab, Proc.get_bind]
  by_cases hpart : listEmpty s.link (slabHead cache .part) = true
  · rw [if_neg (not_not_intro hpart)]
    by_cases hempty : listEmpty s.link (slabHead cache .empty) = true
    · rw [if_neg (not_not_intro hempty)]
      rcases kmemCacheGrow_cases h.slabOrder with hrun | ⟨p, hpage, hnew, hrun⟩
      · rw [Proc.bind_ok hrun]
        exact ⟨0, _, S, R, rfl, h.tick, .inl rfl⟩
      · -- the new slab is the only one on the list
        have hgrown := h.grow hs hpage hnew
        have hnil := ((h.rings.ring .empty).listEmpty_iff).mp hempty
        have hne : ¬ listEmpty (s.grown cache p).link (slabHead cache .empty) = true := by
          rw [(hgrown.rings.ring .empty).listEmpty_iff, Function.update_self]
          simp
        have hfirst := hgrown.first hs (by decide) hne
        rw [Proc.bind_ok hrun, if_neg (not_not_intro rfl), Proc.get_bind, Proc.check_bind_pos hne]
        exact ⟨_, _, _, _, rfl, hgrown, .inr hfirst⟩
    · rw [if_pos hempty]
      exact ⟨_, s, S, R, rfl, h, .inr (h.first hs (by decide) hempty)⟩
  · rw [if_pos hpart]
    exact ⟨_, s, S, R, rfl, h, .inr (h.first hs (by decide) hpart)⟩

/-- **`kmem_cache_alloc`** returns an object that is not live, or `NULL`. -/
theorem alloc (h : s.Inv cache size num base S live R) (hs : SlabShape size num) :
    ∃ o s' S' R', kmemCacheAlloc cache s = .ok o s' ∧ (o = 0 ∧ s'.Inv cache size num base S' live R' ∨
      o ≠ 0 ∧ o ∉ live ∧ s'.Inv cache size num base S' (o :: live) R') := by
  have hnull : cache ≠ 0 := Nat.pos_iff_ne_zero.mp (h.page cache (Finset.mem_insert_self _ _)).2.1
  obtain ⟨p, s1, S1, R1, hrun, h1, hp⟩ := h.slab hs
  rw [kmemCacheAlloc, Proc.check_bind_pos hnull, Proc.bind_ok hrun]
  rcases hp with rfl | ⟨hp, hroom⟩
  · exact ⟨0, s1, S1, R1, rfl, .inl ⟨rfl, h1⟩⟩
  · obtain ⟨o, s2, R2, htake, hne, hdead, h2⟩ := h1.take hs hp hroom
    rw [if_neg (h1.ne_zero hp)]
    exact ⟨o, s2, S1, R2, htake, .inr ⟨hne, hdead, h2⟩⟩

end Slub.Inv

/-! ## `kmem_cache_create` -/

theorem initLists_rings (m : ListMem Nat) (cache : Nat) : Rings (initLists m cache) (slabHead cache) fun _ => [] where
  ring k := by
    have hself : initLists m cache (slabHead cache k) = { prev := slabHead cache k, next := slabHead cache k } := by
      cases k with
      | full => simp [initLists, listInit, ListMem.setNext, ListMem.setPrev, slabHead]
      | part => simp [initLists, listInit, ListMem.setNext, ListMem.setPrev, slabHead]
      | empty => simp [initLists, listInit, ListMem.setNext, ListMem.setPrev, slabHead]
    refine ⟨?_, ?_, List.nodup_singleton _⟩
    · exact congrArg ListEntry.next hself
    · exact congrArg ListEntry.prev hself
  apart := by
    intro j k hjk z hz hz'
    rw [List.mem_singleton] at hz hz'
    cases j <;> cases k <;> simp [slabHead] at hz hz' hjk <;> omega

/-- The state after `kmem_cache_create` made a cache in the page `p`. -/
def Slub.created (s : Slub) (name : List UInt8) (size p : Nat) : Slub :=
  { s with
    ticks := s.ticks + 1
    taken := insert p s.taken
    bytes := memcpy s.bytes p (fun _ => 0) 0 slabPgsize
    cache := Function.update s.cache p
      { name := (name.takeWhile (· ≠ 0)).take (kmemCacheNameLen - 1), objSize := size
        numPerSlab := (slabPgsize - slabHeader) / size, slabOrder := 0, totalSlabs := 0, totalObjs := 0, activeObjs := 0 }
    link := initLists s.link p }

theorem page_given_back (hpage : SlabPage p 1) (taken : Finset Nat) :
    pagesOf (p / slabPgsize * slabPgsize) 1 ⊆ insert p taken := by
  rw [Nat.div_mul_cancel (Nat.dvd_of_mod_eq_zero hpage.1), pagesOf_one]
  exact Finset.singleton_subset_iff.mpr (Finset.mem_insert_self _ _)

/-- **`kmem_cache_create`** of slabs of one page, once there is a page for the cache. -/
theorem kmemCacheCreate_cases (name : List UInt8) (size : Nat) {s : Slub} (hpage : SlabPage p 1)
    (halloc : slubAllocPages 1 s = .ok p { s with ticks := s.ticks + 1, taken := insert p s.taken }) :
    size = 0 ∧ kmemCacheCreate name size 0 s = .panic .divZero ∨
      size ≠ 0 ∧ (slabPgsize - slabHeader) / size = 0 ∧ (∃ s', kmemCacheCreate name size 0 s = .ok 0 s') ∨
      size ≠ 0 ∧ (slabPgsize - slabHeader) / size ≠ 0 ∧ kmemCacheCreate name size 0 s = .ok p (s.created name size p) := by
  rw [kmemCacheCreate, Proc.bind_ok halloc, if_neg (Nat.pos_iff_ne_zero.mp hpage.2.1)]
  simp only [Proc.modify_bind, ne_eq, not_true_eq_false, if_false]
  by_cases hsize : size = 0
  · exact .inl ⟨hsize, Proc.check_bind_neg (not_not_intro hsize) ..⟩
  · refine .inr ?_
    simp only [Proc.check_bind_pos hsize, Proc.modify_bind, Proc.get_bind, Slub.setCache, Function.update_self, Nat.pow_zero,
      Nat.one_mul]
    by_cases hnum : (slabPgsize - slabHeader) / size = 0
    · refine .inl ⟨hsize, hnum, ?_⟩
      rw [if_pos hnum]
      exact ⟨_, Proc.bind_ok (Proc.check_bind_pos (page_given_back hpage s.taken) ..)⟩
    · refine .inr ⟨hsize, hnum, ?_⟩
      rw [if_neg hnum, Slub.created, Function.update_idem]
      rfl

/-- **`kmem_cache_create`** makes a cache without slabs, and takes a page for it. -/
theorem kmemCacheCreate_inv {name : List UInt8} {c : Nat} {s0 s1 : Slub} (hsize : 8 ≤ size)
    (hrun : kmemCacheCreate name size 0 s0 = .ok c s1) (hc : c ≠ 0) :
    ∃ num, SlabShape size num ∧ c ∉ s0.taken ∧ s1.Inv c size num s0.taken ∅ [] fun _ => [] := by
  rcases slubAllocPages_cases s0 with halloc | ⟨p, hpage, hnew, halloc⟩
  · rw [kmemCacheCreate, Proc.bind_ok halloc] at hrun
    cases hrun
    exact absurd rfl hc
  · rcases kmemCacheCreate_cases name size hpage halloc with ⟨hz, -⟩ | ⟨-, -, s', hnone⟩ | ⟨-, hnum, hmade⟩
    · omega
    · rw [hnone] at hrun
      cases hrun
      exact absurd rfl hc
    · rw [hmade] at hrun
      cases hrun
      have hmul : (slabPgsize - slabHeader) / size * size ≤ slabPgsize - slabHeader := Nat.div_mul_le_self _ _
      have hle : slabHeader ≤ slabPgsize := by decide
      refine ⟨(slabPgsize - slabHeader) / size, ⟨hsize, Nat.pos_iff_ne_zero.mpr hnum, by omega⟩, hnew, ?_⟩
      refine ⟨?_, ?_, ?_, ?_, ?_, ?_, ?_, initLists_rings _ _, ?_, ?_, ?_, ?_, ?_, ?_, ?_⟩
      · simp only [Slub.created, Function.update_self]
      · simp only [Slub.created, Function.update_self]
      · simp only [Slub.created, Function.update_self]
      · rw [Finset.union_empty]
        rfl
      · rwa [Finset.union_empty]
      · exact Finset.disjoint_empty_right _
      · intro q hq
        obtain rfl := Finset.mem_singleton.mp hq
        exact hpage
      · simp
      · exact fun q hq => absurd hq (Finset.notMem_empty q)
      · exact fun q hq => absurd hq (Finset.notMem_empty q)
      · exact fun o ho => absurd ho List.not_mem_nil
      · rw [Finset.sum_empty]
        simp only [Slub.created, Function.update_self]
      · rw [Finset.card_empty]
        simp only [Slub.created, Function.update_self]
      · rw [Finset.card_empty, Nat.zero_mul]
        simp only [Slub.created, Function.update_self]

/-! ## `kmem_cache_destroy` -/

/-- The empty slabs are taken off their list, and their pages given back, one by one. -/
theorem destroySlabs_run {l : List Nat} (rounds : Nat) (hring : ListRing s.link (slabHead cache .empty) l)
    (horder : (s.cache cache).slabOrder = 0) (hpage : ∀ p ∈ l, p % slabPgsize = 0 ∧ p ∈ s.taken) (hfuel : l.length < rounds) :
    ∃ s', destroySlabs cache rounds (l.headD (slabHead cache .empty)) s = .ok () s' ∧ s'.taken = s.taken \ l.toFinset ∧
      s'.cache = s.cache := by
  induction l generalizing s rounds with
  | nil =>
    cases rounds with
    | zero => exact absurd hfuel (Nat.not_lt_zero _)
    | succ rounds =>
      refine ⟨s, ?_, ?_, rfl⟩
      · rw [List.headD_nil, destroySlabs, if_pos rfl]
        rfl
      · simp
  | cons p rest ih =>
    cases rounds with
    | zero => exact absurd hfuel (Nat.not_lt_zero _)
    | succ rounds =>
      obtain ⟨hal, hmem⟩ := hpage p List.mem_cons_self
      have hnd := hring.nodup
      have hne : p ≠ slabHead cache .empty := fun heq => (List.nodup_cons.mp hnd).1 (heq ▸ List.mem_cons_self)
      have hrest : p ∉ rest := (List.nodup_cons.mp (List.nodup_cons.mp hnd).2).1
      have hdiv : p / slabPgsize * slabPgsize = p := Nat.div_mul_cancel (Nat.dvd_of_mod_eq_zero hal)
      have hfirst : ListRing s.link (slabHead cache .empty) ([] ++ p :: rest) := hring
      have hnext : listNext s.link p = rest.headD (slabHead cache .empty) := hfirst.next_eq
      have hdel : ListRing (listDel s.link p) (slabHead cache .empty) rest := hfirst.listDel
      have hfree : slubFreePages p 1 { s with link := listDel s.link p } =
          .ok () { s with link := listDel s.link p, taken := s.taken \ {p} } := by
        rw [slubFreePages, Proc.get_bind, hdiv, pagesOf_one, Proc.check_bind_pos (Finset.singleton_subset_iff.mpr hmem)]
        rfl
      have hpage' : ∀ q ∈ rest, q % slabPgsize = 0 ∧ q ∈ s.taken \ {p} := by
        intro q hq
        obtain ⟨hq1, hq2⟩ := hpage q (List.mem_cons_of_mem p hq)
        refine ⟨hq1, Finset.mem_sdiff.mpr ⟨hq2, fun hqp => hrest ?_⟩⟩
        exact Finset.mem_singleton.mp hqp ▸ hq
      have hfuel' : rest.length < rounds := by
        rw [List.length_cons] at hfuel
        omega
      obtain ⟨s', hrun, htaken, hcache⟩ :=
        ih (s := { s with link := listDel s.link p, taken := s.taken \ {p} }) rounds hdel horder hpage' hfuel'
      refine ⟨s', ?_, ?_, hcache⟩
      · rw [List.headD_cons, destroySlabs, if_neg hne, Proc.get_bind]
        simp only [Proc.modify_bind, horder, Nat.pow_zero]
        rw [Proc.bind_ok hfree, hnext]
        exact hrun
      · rw [htaken, List.toFinset_cons]
        ext q
        simp only [Finset.mem_sdiff, Finset.mem_singleton, Finset.mem_insert]
        tauto

/-- **`kmem_cache_destroy`**: without live objects, all pages of the cache are given back. -/
theorem Slub.Inv.destroy (h : s.Inv cache size num base S [] R) :
    ∃ s', kmemCacheDestroy cache s = .ok () s' ∧ s'.taken = base := by
  have hcpage := h.page cache (Finset.mem_insert_self _ _)
  have hinuse : ∀ p ∈ S, (s.slab p).inuse = 0 := by
    intro p hp
    obtain ⟨_, -, -, hcount⟩ := h.objects p hp
    exact hcount
  have hempty : ∀ p ∈ S, p ∈ R .empty := fun p hp => (h.lists .empty p).mpr ⟨hp, by rw [hinuse p hp]; rfl⟩
  have hnil : ∀ k, k ≠ .empty → R k = [] := by
    intro k hk
    refine List.eq_nil_iff_forall_not_mem.mpr fun p hp => hk ?_
    exact h.rings.unique hp (hempty p (h.mem_of_list hp))
  have hactive : (s.cache cache).activeObjs = 0 := by
    rw [h.active]
    exact Finset.sum_eq_zero hinuse
  have hset : (R .empty).toFinset = S := by
    ext p
    rw [List.mem_toFinset]
    exact ⟨h.mem_of_list, hempty p⟩
  have hlen : (R .empty).length = S.card := by
    rw [← hset, List.toFinset_card_of_nodup (List.nodup_cons.mp (h.rings.ring .empty).nodup).2]
  have hsub : S ⊆ s.taken := by
    rw [h.taken]
    exact Finset.subset_union_right.trans (Finset.subset_insert _ _)
  have hpages : ∀ p ∈ R .empty, p % slabPgsize = 0 ∧ p ∈ s.taken := fun p hp =>
    ⟨h.aligned (h.mem_of_list hp), hsub (h.mem_of_list hp)⟩
  have hrounds : (R .empty).length < s.taken.card + 1 := by
    have hcard := Finset.card_le_card hsub
    omega
  obtain ⟨s1, hrun, htaken, -⟩ := destroySlabs_run _ (h.rings.ring .empty) h.slabOrder hpages hrounds
  have hleft : s1.taken = insert cache base := by
    have hc := h.cacheApart
    rw [htaken, hset, h.taken]
    ext p
    have hp : p ∈ base → p ∉ S := fun hb hS => Finset.disjoint_left.mp h.baseApart hb hS
    simp only [Finset.mem_sdiff, Finset.mem_insert, Finset.mem_union] at hc ⊢
    constructor
    · rintro ⟨heq | hb | hS, hnot⟩
      · exact .inl heq
      · exact .inr hb
      · exact absurd hS hnot
    · rintro (rfl | hb)
      · exact ⟨.inl rfl, fun hS => hc (.inr hS)⟩
      · exact ⟨.inr (.inl hb), hp hb⟩
  have hdiv : cache / slabPgsize * slabPgsize = cache := Nat.div_mul_cancel (Nat.dvd_of_mod_eq_zero hcpage.1)
  have hfree : slubFreePages cache 1 s1 = .ok () { s1 with taken := s1.taken \ {cache} } := by
    have hmem : {cache} ⊆ s1.taken := by
      rw [hleft]
      exact Finset.singleton_subset_iff.mpr (Finset.mem_insert_self _ _)
    rw [slubFreePages, Proc.get_bind, hdiv, pagesOf_one, Proc.check_bind_pos hmem]
    rfl
  refine ⟨{ s1 with taken := s1.taken \ {cache} }, ?_, ?_⟩
  · have hfull := ((h.rings.ring .full).listEmpty_iff).mpr (hnil .full (by decide))
    have hpart := ((h.rings.ring .part).listEmpty_iff).mpr (hnil .part (by decide))
    rw [kmemCacheDestroy, Proc.check_bind_pos (Nat.pos_iff_ne_zero.mp hcpage.2.1), Proc.get_bind, Proc.check_bind_pos hactive,
      Proc.check_bind_pos hfull, Proc.check_bind_pos hpart, (h.rings.ring .empty).next_head, Proc.bind_ok hrun]
    exact hfree
  · rw [hleft]
    show insert cache base \ {cache} = base
    have hc : cache ∉ base := fun hb => h.cacheApart (Finset.mem_union_left _ hb)
    rw [← Finset.erase_eq, Finset.erase_insert hc]

end Ucore
