import Mathlib.Data.Finset.Card
import Mathlib.Data.Finset.Image
import Ucore.Lib.Bytes
import Ucore.Lib.Proc
import Ucore.Libs.Error
import Ucore.Libs.List

/-!
# `Mm.Slub` — `kern/mm/slub.c` of the second lab

A cache hands out objects of one size from slabs of one page. The header of a slab is at the start of its page and the
objects behind it; a free object holds the address of the next free one. Addresses are numbers, the headers and the
caches are found by their addresses, and the objects are bytes. `pick` leaves open which pages `alloc_pages` returns,
if any.
-/

namespace Ucore

/-- `struct slab_t` behind its `slab_link`, which is at the address of the slab -/
structure Slab where
  cache : Nat
  inuse : Nat
  freelist : Nat
  sMem : Nat
deriving DecidableEq

/-- `struct kmem_cache_t` without its list heads -/
structure KmemCache where
  name : List UInt8
  objSize : Nat
  numPerSlab : Nat
  slabOrder : Nat
  totalSlabs : Nat
  totalObjs : Nat
  activeObjs : Nat
deriving DecidableEq

structure Slub where
  link : ListMem Nat
  slab : Nat → Slab
  cache : Nat → KmemCache
  bytes : Bytes
  taken : Finset Nat
  pick : Nat → Option Nat
  ticks : Nat

inductive SlubPanic where
  | cacheNull
  | emptyList    -- `assert(!list_empty(&(cache->slabs_empty)))`
  | noFreeObject -- `assert(slab->freelist != NULL)`
  | notOfCache   -- `panic("kmem_cache_free: object %p does not belong to cache %s\n", …)`
  | notInUse     -- `assert(slab->inuse > 0)`
  | activeObjs   -- `panic("kmem_cache_destroy: attempting to destroy cache %s with %d active objects\n", …)`
  | fullList     -- `assert(list_empty(&(cache->slabs_full)))`
  | partialList  -- `assert(list_empty(&(cache->slabs_partial)))`
  | freePages    -- `free_pages` of a page that is free already
  | divZero      -- `kmem_cache_create`: `available_space / size` with `size == 0`
  | noEnd        -- the loop of `kmem_cache_destroy` goes on for ever
deriving DecidableEq

abbrev SlubM (α : Type) := Proc SlubPanic Int Slub α

def slabPgsize : Nat := 4096

/-- `sizeof(struct slab_t)` -/
def slabHeader : Nat := 48

def kmemCacheNameLen : Nat := 32

/-- The three lists of a cache. -/
inductive SlabList where
  | full | part | empty
deriving DecidableEq

/-- `&(cache->slabs_full)`, `&(cache->slabs_partial)`, `&(cache->slabs_empty)` -/
def slabHead (cache : Nat) : SlabList → Nat
  | .full  => cache + 56
  | .part  => cache + 72
  | .empty => cache + 88

namespace Slub

def setSlab (s : Slub) (slab : Nat) (x : Slab) : Slub := { s with slab := Function.update s.slab slab x }

def setCache (s : Slub) (cache : Nat) (x : KmemCache) : Slub := { s with cache := Function.update s.cache cache x }

/-- `free_obj->next` -/
def next (s : Slub) (obj : Nat) : Nat := getLe s.bytes obj 8

/-- `free_obj->next = slab->freelist; slab->freelist = free_obj;` -/
def pushFree (s : Slub) (slab obj : Nat) : Slub :=
  { s with bytes := putLe s.bytes obj (s.slab slab).freelist 8 }.setSlab slab { s.slab slab with freelist := obj }

/-- The loop of `kmem_cache_grow`, from the object at `objPtr` on. -/
def pushSlots (s : Slub) (slab objSize : Nat) : Nat → Nat → Slub
  | _, 0          => s
  | objPtr, n + 1 => (s.pushFree slab objPtr).pushSlots slab objSize (objPtr + objSize) n

end Slub

/-- The addresses of `n` pages in a row. -/
def pagesOf (page n : Nat) : Finset Nat := (Finset.range n).image fun i => page + i * slabPgsize

/-- Pages that `alloc_pages` may return. -/
def SlabPage (page n : Nat) : Prop := page % slabPgsize = 0 ∧ 0 < page ∧ page + n * slabPgsize ≤ 2 ^ 64

instance (page n : Nat) : Decidable (SlabPage page n) := inferInstanceAs (Decidable (_ ∧ _ ∧ _))

/-- `page2kva(alloc_pages(n))`, or `0` for `NULL` -/
def slubAllocPages (n : Nat) : SlubM Nat := do
  let s ← Proc.get
  let s := { s with ticks := s.ticks + 1 }
  match s.pick (s.ticks - 1) with
  | some page =>
    if SlabPage page n ∧ Disjoint (pagesOf page n) s.taken then do
      Proc.put { s with taken := s.taken ∪ pagesOf page n }
      pure page
    else do
      Proc.put s
      pure 0
  | none      => do
    Proc.put s
    pure 0

/-- `free_pages(pa2page(PADDR(addr)), n)` -/
def slubFreePages (addr n : Nat) : SlubM Unit := do
  let s ← Proc.get
  Proc.check .freePages (pagesOf (addr / slabPgsize * slabPgsize) n ⊆ s.taken)
  Proc.put { s with taken := s.taken \ pagesOf (addr / slabPgsize * slabPgsize) n }

def kmemCacheGrow (cache : Nat) : SlubM Int := do
  let s ← Proc.get
  let page ← slubAllocPages (2 ^ (s.cache cache).slabOrder)
  if page = 0 then pure (-eNoMem)
  else do
    Proc.modify fun s => s.setSlab page { cache := cache, inuse := 0, freelist := 0, sMem := page + slabHeader }
    Proc.modify fun s =>
      s.pushSlots page (s.cache cache).objSize (s.slab page).sMem (s.cache cache).numPerSlab
    Proc.modify fun s => { s with link := listAddBefore s.link (slabHead cache .empty) page }
    Proc.modify fun s => s.setCache cache
      { s.cache cache with
        totalSlabs := (s.cache cache).totalSlabs + 1
        totalObjs := (s.cache cache).totalObjs + (s.cache cache).numPerSlab }
    pure 0

/-- The three calls of `list_init` -/
def initLists (m : ListMem Nat) (cache : Nat) : ListMem Nat :=
  listInit (listInit (listInit m (slabHead cache .full)) (slabHead cache .part)) (slabHead cache .empty)

def objToSlab (obj : Nat) : Nat := obj - obj % slabPgsize

/-- `kmem_cache_create`; the name is cut to its first bytes, and the counters are zero. -/
def kmemCacheCreate (name : List UInt8) (size slabOrder : Nat) : SlubM Nat := do
  let page ← slubAllocPages 1
  if page = 0 then pure 0
  else do
    Proc.modify fun s => { s with bytes := memcpy s.bytes page (fun _ => 0) 0 slabPgsize }
    Proc.modify fun s => s.setCache page
      { name := (name.takeWhile (· ≠ 0)).take (kmemCacheNameLen - 1), objSize := size, numPerSlab := 0,
        slabOrder := slabOrder, totalSlabs := 0, totalObjs := 0, activeObjs := 0 }
    if slabOrder ≠ 0 then do
      slubFreePages page 1
      pure 0
    else do
      Proc.check .divZero (size ≠ 0)
      Proc.modify fun s => s.setCache page
        { s.cache page with numPerSlab := (2 ^ slabOrder * slabPgsize - slabHeader) / size }
      let s ← Proc.get
      if (s.cache page).numPerSlab = 0 then do
        slubFreePages page 1
        pure 0
      else do
        Proc.put { s with link := initLists s.link page }
        pure page

/-- The slab that `kmem_cache_alloc` takes an object from, or `0` where `kmem_cache_grow` fails. -/
def kmemCacheSlab (cache : Nat) : SlubM Nat := do
  let s ← Proc.get
  if ¬ listEmpty s.link (slabHead cache .part) then pure (listNext s.link (slabHead cache .part))
  else if ¬ listEmpty s.link (slabHead cache .empty) then pure (listNext s.link (slabHead cache .empty))
  else do
    let ret ← kmemCacheGrow cache
    if ret ≠ 0 then pure 0
    else do
      let s ← Proc.get
      Proc.check .emptyList (¬ listEmpty s.link (slabHead cache .empty))
      pure (listNext s.link (slabHead cache .empty))

/-- `kmem_cache_alloc` from step 4 on. -/
def kmemCacheTake (cache slab : Nat) : SlubM Nat := do
  let s ← Proc.get
  Proc.check .noFreeObject ((s.slab slab).freelist ≠ 0)
  let obj := (s.slab slab).freelist
  Proc.modify fun s => s.setSlab slab
    { s.slab slab with freelist := s.next obj, inuse := (s.slab slab).inuse + 1 }
  Proc.modify fun s => s.setCache cache { s.cache cache with activeObjs := (s.cache cache).activeObjs + 1 }
  Proc.modify fun s => { s with link := listDel s.link slab }
  let s ← Proc.get
  if (s.slab slab).inuse = (s.cache cache).numPerSlab then
    Proc.put { s with link := listAddBefore s.link (slabHead cache .full) slab }
  else
    Proc.put { s with link := listAddBefore s.link (slabHead cache .part) slab }
  pure obj

def kmemCacheAlloc (cache : Nat) : SlubM Nat := do
  Proc.check .cacheNull (cache ≠ 0)
  let slab ← kmemCacheSlab cache
  if slab = 0 then pure 0
  else kmemCacheTake cache slab

def kmemCacheFree (cache obj : Nat) : SlubM Unit := do
  if obj = 0 then pure ()
  else do
    let slab := objToSlab obj
    let s ← Proc.get
    Proc.check .notOfCache ((s.slab slab).cache = cache)
    Proc.check .notInUse (0 < (s.slab slab).inuse)
    Proc.modify fun s => s.pushFree slab obj
    Proc.modify fun s => s.setSlab slab { s.slab slab with inuse := (s.slab slab).inuse - 1 }
    Proc.modify fun s => s.setCache cache { s.cache cache with activeObjs := (s.cache cache).activeObjs - 1 }
    Proc.modify fun s => { s with link := listDel s.link slab }
    let s ← Proc.get
    if (s.slab slab).inuse = 0 then
      Proc.put { s with link := listAddBefore s.link (slabHead cache .empty) slab }
    else
      Proc.put { s with link := listAddBefore s.link (slabHead cache .part) slab }

/-- The loop of `kmem_cache_destroy`, for as many rounds as there are pages to give back. -/
def destroySlabs (cache : Nat) : Nat → Nat → SlubM Unit
  | 0, _           => Proc.stop .noEnd
  | rounds + 1, le => do
    if le = slabHead cache .empty then pure ()
    else do
      let s ← Proc.get
      let nextLe := listNext s.link le
      Proc.modify fun s => { s with link := listDel s.link le }
      slubFreePages le (2 ^ (s.cache cache).slabOrder)
      destroySlabs cache rounds nextLe

def kmemCacheDestroy (cache : Nat) : SlubM Unit := do
  Proc.check .cacheNull (cache ≠ 0)
  let s ← Proc.get
  Proc.check .activeObjs ((s.cache cache).activeObjs = 0)
  Proc.check .fullList (listEmpty s.link (slabHead cache .full))
  Proc.check .partialList (listEmpty s.link (slabHead cache .part))
  destroySlabs cache (s.taken.card + 1) (listNext s.link (slabHead cache .empty))
  slubFreePages cache 1

end Ucore
