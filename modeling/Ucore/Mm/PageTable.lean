import Mathlib.Data.Finset.Basic
import Ucore.Lib.Bytes
import Ucore.Lib.Proc
import Ucore.Libs.Error

/-!
# `Mm.PageTable` — `kern/mm/pmm.c`, three-level page tables over counted pages

A page is known by its page number, and so is a page directory. What a page holds is either the 512 entries
of a table or the bytes of data; which of the two is looked at is up to the code that uses the page, so
`PageMem` keeps both.

`alloc_page` is left open: `pick k` is the page that the `k`-th call would like to give out, and the call
gets `NULL` if there is none or if it is not free; `nulls` counts these. TLB flushes leave no trace in this state.
-/

namespace Ucore

/-- `PGSIZE`, `PTSIZE` and `PDSIZE`: the bytes under an entry of a table of level 2, 1 and 0 -/
def pgsize : Nat := 2 ^ 12
def ptsize : Nat := 2 ^ 21
def pdsize : Nat := 2 ^ 30
/-- `USERBASE` and `USERTOP` -/
def userBase : Nat := 0x00200000
def userTop : Nat := 0x80000000

/-- `USER_ACCESS(start, end)` -/
def UserAccess (start stop : Nat) : Prop := userBase ≤ start ∧ start < stop ∧ stop ≤ userTop

instance (start stop : Nat) : Decidable (UserAccess start stop) := inferInstanceAs (Decidable (_ ∧ _ ∧ _))

/-- `ROUNDDOWN(a, n)` and `ROUNDUP(a, n)`, in 64-bit arithmetic -/
def rounddown (a n : Nat) : Nat := a - a % n
def roundup (a n : Nat) : Nat := rounddown ((a + n - 1) % 2 ^ 64) n

/-- `PTE_R | PTE_W | PTE_X | PTE_U` and their subsets -/
@[ext]
structure Perm where
  r : Bool
  w : Bool
  x : Bool
  u : Bool
deriving DecidableEq

/-- `pte_t` -/
@[ext]
structure Pte where
  ppn : Nat
  v : Bool
  perm : Perm
deriving DecidableEq

def Perm.none : Perm := { r := false, w := false, x := false, u := false }

def Pte.zero : Pte := { ppn := 0, v := false, perm := .none }

/-- `pte_create(ppn, PTE_V | perm)` -/
def pteCreate (ppn : Nat) (perm : Perm) : Pte := { ppn := ppn, v := true, perm := perm }

/-- `PDX1`, `PDX0` and `PTX` -/
def pdx1 (la : Nat) : Nat := la / pdsize % 512
def pdx0 (la : Nat) : Nat := la / ptsize % 512
def ptx (la : Nat) : Nat := la / pgsize % 512

/-- The physical pages. `freed` remembers the calls of `free_page`, the last one first. -/
structure PageMem where
  ref : Nat → Int
  table : Nat → Nat → Pte
  data : Nat → Bytes
  free : Finset Nat
  freed : List Nat
  pick : Nat → Option Nat
  ticks : Nat
  nulls : Nat

/-- The assertions of the functions below. -/
inductive MmPanic where
  | range          -- `assert(start % PGSIZE == 0 && …)`, `assert(USER_ACCESS(start, end))`
  | copyNoPage     -- `copy_range`: `assert(npage != NULL)`
  | copyInsert     -- `copy_range`: `assert(ret == 0)`
  | allocRef       -- `pgdir_alloc_page`: `assert(page_ref(page) == 1)`
  | vmaRange       -- `insert_vma_struct`: `assert(vma->vm_start < vma->vm_end)`
  | vmaOverlap     -- `check_vma_overlap`
  | mmCount        -- `mm_destroy`, `exit_mmap`: `assert(mm_count(mm) == 0)`
  | loops          -- a loop that would not end
deriving DecidableEq

abbrev MemM (α : Type) := Proc MmPanic Int PageMem α

namespace PageMem

def take (s : PageMem) (p : Nat) : PageMem := { s with free := s.free.erase p, ticks := s.ticks + 1 }

def tick (s : PageMem) : PageMem := { s with ticks := s.ticks + 1, nulls := s.nulls + 1 }

def setPte (s : PageMem) (t i : Nat) (e : Pte) : PageMem :=
  { s with table := Function.update s.table t (Function.update (s.table t) i e) }

def setTable (s : PageMem) (t : Nat) (x : Nat → Pte) : PageMem := { s with table := Function.update s.table t x }

def setRef (s : PageMem) (p : Nat) (r : Int) : PageMem := { s with ref := Function.update s.ref p r }

def setData (s : PageMem) (p : Nat) (x : Bytes) : PageMem := { s with data := Function.update s.data p x }

/-- The allocator gets a page back, and clears its counter. -/
def give (s : PageMem) (p : Nat) : PageMem :=
  { s with free := insert p s.free, freed := p :: s.freed, ref := Function.update s.ref p 0 }

end PageMem

def allocPage : MemM (Option Nat) := do
  let s ← Proc.get
  match s.pick s.ticks with
  | some p =>
    if p ∈ s.free then do
      Proc.put (s.take p)
      pure (some p)
    else do
      Proc.put s.tick
      pure none
  | none   => do
    Proc.put s.tick
    pure none

def freePage (p : Nat) : MemM Unit := Proc.modify fun s => s.give p

def pageRefInc (p : Nat) : MemM Unit := Proc.modify fun s => s.setRef p (s.ref p + 1)

def pageRefDec (p : Nat) : MemM Unit := Proc.modify fun s => s.setRef p (s.ref p - 1)

/-! ## Walking the tables -/

/-- One level of `get_pte`: the table behind entry `i` of the table `t`; with `create` a missing one is made. -/
def getTable (t i : Nat) (create : Bool) : MemM (Option Nat) := do
  let s ← Proc.get
  if (s.table t i).v = true then pure (some (s.table t i).ppn)
  else if create = false then pure none
  else do
    let page ← allocPage
    match page with
    | none      => pure none
    | some page => do
      Proc.modify fun s =>
        ((s.setRef page 1).setTable page fun _ => .zero).setPte t i (pteCreate page { Perm.none with u := true })
      pure (some page)

/-- `get_pte`; the pointer returned is a table and an index. -/
def getPte (pgdir la : Nat) (create : Bool) : MemM (Option (Nat × Nat)) := do
  let pd0 ← getTable pgdir (pdx1 la) create
  match pd0 with
  | none     => pure none
  | some pd0 => do
    let pt ← getTable pd0 (pdx0 la) create
    match pt with
    | none    => pure none
    | some pt => pure (some (pt, ptx la))

/-! ## Mapping and unmapping a page -/

def pageRemovePte (t i : Nat) : MemM Unit := do
  let s ← Proc.get
  if (s.table t i).v = true then do
    let page := (s.table t i).ppn
    pageRefDec page
    let s ← Proc.get
    if s.ref page = 0 then freePage page else pure ()
    Proc.modify fun s => s.setPte t i .zero
  else pure ()

def pageRemove (pgdir la : Nat) : MemM Unit := do
  let ptep ← getPte pgdir la false
  match ptep with
  | none        => pure ()
  | some (t, i) => pageRemovePte t i

/-- The part of `page_insert` behind `get_pte`. -/
def pageInsertAt (page t i : Nat) (perm : Perm) : MemM Unit := do
  pageRefInc page
  let s ← Proc.get
  if (s.table t i).v = true then
    if (s.table t i).ppn = page then pageRefDec page else pageRemovePte t i
  else pure ()
  Proc.modify fun s => s.setPte t i (pteCreate page perm)

def pageInsert (pgdir page la : Nat) (perm : Perm) : MemM Unit := do
  let ptep ← getPte pgdir la true
  match ptep with
  | none        => Proc.fail (-eNoMem)
  | some (t, i) => pageInsertAt page t i perm

def pgdirAllocPage (pgdir la : Nat) (perm : Perm) : MemM (Option Nat) := do
  let page ← allocPage
  match page with
  | none      => pure none
  | some page => do
    let ret ← Proc.attempt (pageInsert pgdir page la perm)
    match ret with
    | .error _ => do
      freePage page
      pure none
    | .ok _    => do
      let s ← Proc.get
      Proc.check .allocRef (s.ref page = 1)
      pure (some page)

/-! ## Ranges -/

/-- The asserts at the start of the range functions. -/
def checkRange (start stop : Nat) : MemM Unit := do
  Proc.check .range (start % pgsize = 0 ∧ stop % pgsize = 0)
  Proc.check .range (UserAccess start stop)

/-- The `do … while (start != 0 && start < end)` of `unmap_range` and `copy_range`: `body` says where the next
    round starts. -/
def rangeLoop (body : Nat → MemM Nat) (stop : Nat) : Nat → Nat → MemM Unit
  | 0, _            => Proc.stop .loops
  | fuel + 1, start => do
    let next ← body start
    if next ≠ 0 ∧ next < stop then rangeLoop body stop fuel next else pure ()

/-- Each round gets a page further. -/
def rangeFuel (start stop : Nat) : Nat := (stop - start) / pgsize + 1

/-- The table for this part is missing: `start = ROUNDDOWN(start + PTSIZE, PTSIZE)`. -/
def nextTable (start : Nat) : Nat := rounddown (start + ptsize) ptsize

def unmapRound (pgdir start : Nat) : MemM Nat := do
  let ptep ← getPte pgdir start false
  match ptep with
  | none        => pure (nextTable start)
  | some (t, i) => do
    let s ← Proc.get
    if s.table t i ≠ .zero then pageRemovePte t i else pure ()
    pure (start + pgsize)

def unmapRange (pgdir start stop : Nat) : MemM Unit := do
  checkRange start stop
  rangeLoop (unmapRound pgdir) stop (rangeFuel start stop) start

/-- `copy_range` for one page: `ptep` of the process that forks leads to a valid entry. -/
def copyPage (pgdirTo start : Nat) (pte : Pte) : MemM Unit := do
  let nptep ← getPte pgdirTo start true
  match nptep with
  | none   => Proc.fail (-eNoMem)
  | some _ => do
    let npage ← allocPage
    match npage with
    | none       => Proc.stop .copyNoPage
    | some npage => do
      Proc.modify fun s => s.setData npage (memcpy (s.data npage) 0 (s.data pte.ppn) 0 pgsize)
      let ret ← Proc.attempt (pageInsert pgdirTo npage start pte.perm)
      match ret with
      | .error _ => Proc.stop .copyInsert
      | .ok _    => pure ()

def copyRound (pgdirTo pgdirFrom start : Nat) : MemM Nat := do
  let ptep ← getPte pgdirFrom start false
  match ptep with
  | none        => pure (nextTable start)
  | some (t, i) => do
    let s ← Proc.get
    if (s.table t i).v = true then copyPage pgdirTo start (s.table t i) else pure ()
    pure (start + pgsize)

/-- `copy_range(to, from, start, end, share)`; `share` is not used. -/
def copyRange (pgdirTo pgdirFrom start stop : Nat) : MemM Unit := do
  checkRange start stop
  rangeLoop (copyRound pgdirTo pgdirFrom) stop (rangeFuel start stop) start

/-- The page of a new directory starts as a copy of `boot_pgdir`. -/
def setupPgdir (boot : Nat → Pte) : MemM Nat := do
  let page ← allocPage
  match page with
  | none      => Proc.fail (-eNoMem)
  | some page => do
    Proc.modify fun s => s.setTable page boot
    pure page

/-! ## Giving up an address space -/

/-- No entry of the page table is valid. -/
def ptEmpty (x : Nat → Pte) : Bool := (List.range 512).all fun i => !(x i).v

/-- The inner loop of `exit_range`, over the entries of the directory `pd0`; returns `free_pd0` and the cursor. -/
def exitPd0 (pd0 stop d1start : Nat) : Nat → Nat → Bool → MemM (Bool × Nat)
  | 0, _, _                   => Proc.stop .loops
  | fuel + 1, d0start, freePd0 => do
    let s ← Proc.get
    let pde0 := s.table pd0 (pdx0 d0start)
    if pde0.v = true then
      if ptEmpty (s.table pde0.ppn) = true then do
        freePage pde0.ppn
        Proc.modify fun s => s.setPte pd0 (pdx0 d0start) .zero
      else pure ()
    else pure ()
    let freePd0 := freePd0 && pde0.v
    let d0start := d0start + ptsize
    if d0start ≠ 0 ∧ d0start < d1start + pdsize ∧ d0start < stop then exitPd0 pd0 stop d1start fuel d0start freePd0
    else pure (freePd0, d0start)

/-- A round of the outer loop of `exit_range`. -/
def exitPass (pgdir stop d1start d0start : Nat) : MemM Unit := do
  let s ← Proc.get
  let pde1 := s.table pgdir (pdx1 d1start)
  if pde1.v = true then do
    let (freePd0, _) ← exitPd0 pde1.ppn stop d1start 513 d0start true
    if freePd0 = true then do
      freePage pde1.ppn
      Proc.modify fun s => s.setPte pgdir (pdx1 d1start) .zero
    else pure ()
  else pure ()

def exitPd1 (pgdir stop : Nat) : Nat → Nat → Nat → MemM Unit
  | 0, _, _                   => Proc.stop .loops
  | fuel + 1, d1start, d0start => do
    exitPass pgdir stop d1start d0start
    let d1start := d1start + pdsize
    if d1start ≠ 0 ∧ d1start < stop then exitPd1 pgdir stop fuel d1start d1start else pure ()

def exitRange (pgdir start stop : Nat) : MemM Unit := do
  checkRange start stop
  exitPd1 pgdir stop ((stop - start) / pdsize + 2) (rounddown start pdsize) (rounddown start ptsize)

end Ucore
