import Mathlib.Data.Finset.Card
import Mathlib.Data.Finset.Image
import Mathlib.Logic.Function.Basic
import Ucore.Lib.Proc

/-!
# `Mm.Kmalloc` — `kern/mm/kmalloc.c`, the allocator behind `kmalloc`

Memory is cut into units of 16 bytes. A block begins with its number of units; while it is free, the address of the next
free block follows. `lo` and `hi` are the two halves of the unit at an address, so the fields of a `bigblock_t` lie over
those of a `slob_t` as they do in the machine. Every search takes as many rounds as it is given; a search that is not
over by then stops with `noEnd`. `align` is `0` in every call of `slob_alloc`, and interrupts are off where they matter.
-/

namespace Ucore.Slob

/-- `PAGE_SIZE` -/
def pageSize : Nat := 4096

/-- `SLOB_UNIT` -/
def slobUnit : Nat := 16

/-- `SLOB_UNITS(size)` -/
def slobUnits (size : Nat) : Nat := (size + slobUnit - 1) / slobUnit

/-- `sizeof(bigblock_t)` -/
def bigblockSize : Nat := 24

structure SlobMem where
  lo : Nat → Nat
  hi : Nat → Nat
  arena : Nat
  slobfree : Nat
  bigblocks : Nat
  taken : Finset Nat
  pick : Nat → Nat → Option Nat
  ticks : Nat

inductive SlobPanic where
  | tooLarge  -- `assert((size + SLOB_UNIT) < PAGE_SIZE)`
  | freePages -- `free_pages` of pages that are free already
  | noEnd     -- a search that goes on
deriving DecidableEq

abbrev SlobM (α : Type) := Proc SlobPanic Int SlobMem α

/-- The addresses of the pages of a block of order `order`. -/
def orderPages (page order : Nat) : Finset Nat := (Finset.range (2 ^ order)).image fun i => page + i * pageSize

namespace SlobMem

/-! ## `slob_t` and `bigblock_t` -/

def units (s : SlobMem) (b : Nat) : Nat := s.lo b

def next (s : SlobMem) (b : Nat) : Nat := s.hi b

def setUnits (s : SlobMem) (b v : Nat) : SlobMem := { s with lo := Function.update s.lo b v }

def setNext (s : SlobMem) (b v : Nat) : SlobMem := { s with hi := Function.update s.hi b v }

def order (s : SlobMem) (bb : Nat) : Nat := s.lo bb

def pages (s : SlobMem) (bb : Nat) : Nat := s.hi bb

/-- `bb->next`, which is in the second unit -/
def bbNext (s : SlobMem) (bb : Nat) : Nat := s.lo (bb + slobUnit)

def setOrder (s : SlobMem) (bb v : Nat) : SlobMem := s.setUnits bb v

def setPages (s : SlobMem) (bb v : Nat) : SlobMem := s.setNext bb v

def setBbNext (s : SlobMem) (bb v : Nat) : SlobMem := s.setUnits (bb + slobUnit) v

/-- `*last = v`, where `last` is `&bigblocks` or the `&bb->next` of a block. -/
def setLast (s : SlobMem) (last : Option Nat) (v : Nat) : SlobMem :=
  match last with
  | none    => { s with bigblocks := v }
  | some bb => s.setBbNext bb v

/-- Pages that `alloc_pages` may return: they are free, and lie above the kernel. -/
def MayGive (s : SlobMem) (page order : Nat) : Prop :=
  page % pageSize = 0 ∧ s.arena + slobUnit < page ∧ Disjoint (orderPages page order) s.taken

instance (s : SlobMem) (page order : Nat) : Decidable (s.MayGive page order) := inferInstanceAs (Decidable (_ ∧ _ ∧ _))

/-- The pages that the next call of `__slob_get_free_pages` returns, if any. -/
def grant (s : SlobMem) (order : Nat) : Option Nat :=
  match s.pick s.ticks order with
  | some page => if s.MayGive page order then some page else none
  | none      => none

end SlobMem

/-- `__slob_get_free_pages`; `0` for `NULL` -/
def slobGetFreePages (order : Nat) : SlobM Nat := do
  let s ← Proc.get
  match s.grant order with
  | some page => do
    Proc.put { s with ticks := s.ticks + 1, taken := s.taken ∪ orderPages page order }
    pure page
  | none      => do
    Proc.put { s with ticks := s.ticks + 1 }
    pure 0

/-- `__slob_free_pages` -/
def slobFreePages (kva order : Nat) : SlobM Unit := do
  let s ← Proc.get
  let page := kva / pageSize * pageSize
  Proc.check .freePages (orderPages page order ⊆ s.taken)
  Proc.put { s with taken := s.taken \ orderPages page order }

/-! ## `slob_free` -/

/-- Find reinsertion point -/
def slobFind (s : SlobMem) (b : Nat) : Nat → Nat → Option Nat
  | 0, _       => none
  | n + 1, cur =>
    if b > cur ∧ b < s.next cur then some cur
    else if cur ≥ s.next cur ∧ (b > cur ∨ b < s.next cur) then some cur
    else slobFind s b n (s.next cur)

/-- The block `b` is joined with the one behind it, or linked to it. -/
def joinNext (s : SlobMem) (cur b : Nat) : SlobMem :=
  if b + slobUnit * s.units b = s.next cur then
    let s := s.setUnits b (s.units b + s.units (s.next cur))
    s.setNext b (s.next (s.next cur))
  else s.setNext b (s.next cur)

/-- The block in front of `b` is joined with it, or linked to it. -/
def joinPrev (s : SlobMem) (cur b : Nat) : SlobMem :=
  if cur + slobUnit * s.units cur = b then
    let s := s.setUnits cur (s.units cur + s.units b)
    s.setNext cur (s.next b)
  else s.setNext cur b

/-- `if (size) b->units = SLOB_UNITS(size);` -/
def markUnits (s : SlobMem) (b size : Nat) : SlobMem := if size ≠ 0 then s.setUnits b (slobUnits size) else s

def slobFree (fuel block size : Nat) : SlobM Unit := do
  if block = 0 then pure ()
  else do
    Proc.modify fun s => markUnits s block size
    let s ← Proc.get
    match slobFind s block fuel s.slobfree with
    | none     => Proc.stop .noEnd
    | some cur => Proc.put { joinPrev (joinNext s cur block) cur block with slobfree := cur }

/-! ## `slob_alloc` -/

/-- `n` units are taken from `cur`, which is behind `prev`. -/
def slobTake (s : SlobMem) (prev cur n : Nat) : SlobMem :=
  if s.units cur = n then { s.setNext prev (s.next cur) with slobfree := prev }
  else
    let s := s.setNext prev (cur + slobUnit * n)
    let s := s.setUnits (s.next prev) (s.units cur - n)
    let s := s.setNext (s.next prev) (s.next cur)
    let s := s.setUnits cur n
    { s with slobfree := prev }

/-- The loop of `slob_alloc` -/
def slobScan (size n : Nat) : Nat → Nat → Nat → SlobM Nat
  | 0, _, _            => Proc.stop .noEnd
  | fuel + 1, prev, cur => do
    let s ← Proc.get
    if s.units cur ≥ n then do
      Proc.put (slobTake s prev cur n)
      pure cur
    else if cur = s.slobfree then
      if size = pageSize then pure 0
      else do
        let page ← slobGetFreePages 0
        if page = 0 then pure 0
        else do
          slobFree fuel page pageSize
          let s ← Proc.get
          slobScan size n fuel s.slobfree (s.next s.slobfree)
    else slobScan size n fuel cur (s.next cur)

def slobAlloc (fuel size : Nat) : SlobM Nat := do
  Proc.check .tooLarge (size + slobUnit < pageSize)
  let s ← Proc.get
  slobScan size (slobUnits size) fuel s.slobfree (s.next s.slobfree)

/-! ## `kmalloc` and `kfree` -/

/-- The loop of `find_order`; after 32 shifts nothing is left of an `int`. -/
def shiftOrder : Nat → Nat → Nat
  | 0, _        => 0
  | n + 1, size => if size > 4096 then shiftOrder n (size / 2) + 1 else 0

/-- `find_order`: the size becomes an `int`, and a negative one is not shifted. -/
def findOrder (size : Nat) : Nat :=
  if size % 2 ^ 32 < 2 ^ 31 then shiftOrder 32 (size % 2 ^ 32) else 0

def kmalloc (fuel size : Nat) : SlobM Nat := do
  if size < pageSize - slobUnit then do
    let m ← slobAlloc fuel (size + slobUnit)
    pure (if m = 0 then 0 else m + slobUnit)
  else do
    let bb ← slobAlloc fuel bigblockSize
    if bb = 0 then pure 0
    else do
      Proc.modify fun s => s.setOrder bb (findOrder size)
      let s ← Proc.get
      let pages ← slobGetFreePages (s.order bb)
      Proc.modify fun s => s.setPages bb pages
      if pages ≠ 0 then do
        Proc.modify fun s => { s.setBbNext bb s.bigblocks with bigblocks := bb }
        pure pages
      else do
        slobFree fuel bb bigblockSize
        pure 0

/-- The search of `kfree` in `bigblocks` -/
def bigFind (s : SlobMem) (block : Nat) : Nat → Option Nat → Nat → SlobM (Option (Option Nat × Nat))
  | 0, _, _         => Proc.stop .noEnd
  | n + 1, last, bb =>
    if bb = 0 then pure none
    else if s.pages bb = block then pure (some (last, bb))
    else bigFind s block n (some bb) (s.bbNext bb)

/-- The way of `kfree` for what is not on the big block list -/
def kfreeSmall (fuel block : Nat) : SlobM Unit := slobFree fuel (block - slobUnit) 0

def kfree (fuel block : Nat) : SlobM Unit := do
  if block = 0 then pure ()
  else if block % pageSize = 0 then do
    let s ← Proc.get
    let found ← bigFind s block fuel none s.bigblocks
    match found with
    | some (last, bb) => do
      Proc.put (s.setLast last (s.bbNext bb))
      let s ← Proc.get
      slobFreePages block (s.order bb)
      slobFree fuel bb bigblockSize
    | none            => kfreeSmall fuel block
  else kfreeSmall fuel block

/-- Nothing is allocated: the arena is the only free block, and leads to itself. -/
def slobInit (arena : Nat) (pick : Nat → Nat → Option Nat) : SlobMem :=
  { lo := Function.update (fun _ => 0) arena 1, hi := Function.update (fun _ => 0) arena arena, arena := arena
    slobfree := arena, bigblocks := 0, taken := ∅, pick := pick, ticks := 0 }

end Ucore.Slob
