import Ucore.Lib.Proc
import Ucore.Libs.List

/-!
# `Mm.DefaultPmm` — `kern/mm/default_pmm.c`, the first-fit page allocator

The page descriptors are numbered by their index in `pages[]`, so that pointer comparison and pointer
arithmetic on `struct Page *` are comparison and arithmetic of indices. `property` and `nr_free` are
`unsigned int`: every store to them is taken modulo `2 ^ 32`.

The two `while ((le = list_next(le)) != &free_list)` loops run on fuel. A ring through `npage`
descriptors and the list head closes within `npage + 1` hops, so the loops get `npage + 2`; a walk that
uses them up goes round a cycle that does not contain `free_list` (`PmmPanic.loops`).
-/

namespace Ucore

/-- The addresses of `list_entry_t` objects: `free_area.free_list`, or `pages[i].page_link`. -/
inductive Link where
  | freeList
  | page (i : Nat)
deriving DecidableEq

/-- `le2page(le, page_link)`; the code never applies it to `free_list` itself. -/
def le2page : Link → Nat
  | .page i   => i
  | .freeList => 0

/-- `struct Page`, with the two bits of `flags` that are in use. -/
structure Page where
  ref : Int
  pgReserved : Bool
  pgProperty : Bool
  property : Nat

/-- The memory the allocator works on. -/
structure Pmm where
  npage : Nat
  pages : Nat → Page
  link : ListMem Link
  nrFree : Nat

/-- The assertions of the file, and a walk that never gets back to `free_list`. -/
inductive PmmPanic where
  | zeroPages
  | notReserved
  | notAllocated
  | loops
deriving DecidableEq

abbrev PmmM (α : Type) := Proc PmmPanic Empty Pmm α

namespace Pmm

def setPage (s : Pmm) (i : Nat) (p : Page) : Pmm :=
  { s with pages := Function.update s.pages i p }

def setProperty (s : Pmm) (i n : Nat) : Pmm :=
  s.setPage i { s.pages i with property := n % 2 ^ 32 }

def setPageProperty (s : Pmm) (i : Nat) : Pmm := s.setPage i { s.pages i with pgProperty := true }

def clearPageProperty (s : Pmm) (i : Nat) : Pmm := s.setPage i { s.pages i with pgProperty := false }

def setLink (s : Pmm) (f : ListMem Link → ListMem Link) : Pmm := { s with link := f s.link }

def addNrFree (s : Pmm) (n : Nat) : Pmm := { s with nrFree := (s.nrFree + n) % 2 ^ 32 }

/-- `nr_free -= n`, in `unsigned int` arithmetic. -/
def subNrFree (s : Pmm) (n : Nat) : Pmm := { s with nrFree := (s.nrFree + (2 ^ 32 - n % 2 ^ 32)) % 2 ^ 32 }

def fuel (s : Pmm) : Nat := s.npage + 2

variable (s : Pmm) (i n q : Nat)

@[simp] theorem setPage_pages (p : Page) :
    (s.setPage i p).pages q = if q = i then p else s.pages q := by
  simp only [setPage, Function.update_apply]

@[simp] theorem property_setProperty :
    ((s.setProperty i n).pages q).property = if q = i then n % 2 ^ 32 else (s.pages q).property := by
  simp only [setProperty, setPage_pages]
  split <;> simp_all

@[simp] theorem pgReserved_setProperty :
    ((s.setProperty i n).pages q).pgReserved = (s.pages q).pgReserved := by
  simp only [setProperty, setPage_pages]
  split <;> simp_all

@[simp] theorem pgProperty_setProperty :
    ((s.setProperty i n).pages q).pgProperty = (s.pages q).pgProperty := by
  simp only [setProperty, setPage_pages]
  split <;> simp_all

@[simp] theorem property_setPageProperty :
    ((s.setPageProperty i).pages q).property = (s.pages q).property := by
  simp only [setPageProperty, setPage_pages]
  split <;> simp_all

@[simp] theorem pgReserved_setPageProperty :
    ((s.setPageProperty i).pages q).pgReserved = (s.pages q).pgReserved := by
  simp only [setPageProperty, setPage_pages]
  split <;> simp_all

@[simp] theorem pgProperty_setPageProperty :
    ((s.setPageProperty i).pages q).pgProperty = (decide (q = i) || (s.pages q).pgProperty) := by
  simp only [setPageProperty, setPage_pages]
  split <;> simp_all

@[simp] theorem property_clearPageProperty :
    ((s.clearPageProperty i).pages q).property = (s.pages q).property := by
  simp only [clearPageProperty, setPage_pages]
  split <;> simp_all

@[simp] theorem pgReserved_clearPageProperty :
    ((s.clearPageProperty i).pages q).pgReserved = (s.pages q).pgReserved := by
  simp only [clearPageProperty, setPage_pages]
  split <;> simp_all

@[simp] theorem pgProperty_clearPageProperty :
    ((s.clearPageProperty i).pages q).pgProperty = (!decide (q = i) && (s.pages q).pgProperty) := by
  simp only [clearPageProperty, setPage_pages]
  split <;> simp_all

@[simp] theorem pages_setLink (f : ListMem Link → ListMem Link) : (s.setLink f).pages = s.pages := rfl
@[simp] theorem pages_addNrFree : (s.addNrFree n).pages = s.pages := rfl
@[simp] theorem pages_subNrFree : (s.subNrFree n).pages = s.pages := rfl
@[simp] theorem link_setProperty : (s.setProperty i n).link = s.link := rfl
@[simp] theorem link_setPageProperty : (s.setPageProperty i).link = s.link := rfl
@[simp] theorem link_clearPageProperty : (s.clearPageProperty i).link = s.link := rfl
@[simp] theorem link_addNrFree : (s.addNrFree n).link = s.link := rfl
@[simp] theorem link_subNrFree : (s.subNrFree n).link = s.link := rfl
@[simp] theorem link_setLink (f : ListMem Link → ListMem Link) : (s.setLink f).link = f s.link := rfl
@[simp] theorem npage_setProperty : (s.setProperty i n).npage = s.npage := rfl
@[simp] theorem npage_setPageProperty : (s.setPageProperty i).npage = s.npage := rfl
@[simp] theorem npage_clearPageProperty : (s.clearPageProperty i).npage = s.npage := rfl
@[simp] theorem npage_addNrFree : (s.addNrFree n).npage = s.npage := rfl
@[simp] theorem npage_subNrFree : (s.subNrFree n).npage = s.npage := rfl
@[simp] theorem npage_setLink (f : ListMem Link → ListMem Link) : (s.setLink f).npage = s.npage := rfl
@[simp] theorem nrFree_setProperty : (s.setProperty i n).nrFree = s.nrFree := rfl
@[simp] theorem nrFree_setPageProperty : (s.setPageProperty i).nrFree = s.nrFree := rfl
@[simp] theorem nrFree_clearPageProperty : (s.clearPageProperty i).nrFree = s.nrFree := rfl
@[simp] theorem nrFree_setLink (f : ListMem Link → ListMem Link) : (s.setLink f).nrFree = s.nrFree := rfl

end Pmm

def defaultInit (s : Pmm) : Pmm := { s with link := listInit s.link .freeList, nrFree := 0 }

/-- The page loop of `default_init_memmap`. -/
def memmapPages : Nat → Nat → PmmM Unit
  | _, 0     => pure ()
  | p, n + 1 => do
    let s ← Proc.get
    Proc.check .notReserved (s.pages p).pgReserved
    Proc.modify fun s => s.setPage p { ref := 0, pgReserved := false, pgProperty := false, property := 0 }
    memmapPages (p + 1) n

/-- The page loop of `default_free_pages`. -/
def freePagesLoop : Nat → Nat → PmmM Unit
  | _, 0     => pure ()
  | p, n + 1 => do
    let s ← Proc.get
    Proc.check .notAllocated (!(s.pages p).pgReserved && !(s.pages p).pgProperty)
    Proc.modify fun s => s.setPage p
      { s.pages p with ref := 0, pgReserved := false, pgProperty := false }
    freePagesLoop (p + 1) n

/-- The insertion loop. After `list_add(le, base)` at the end of the list the source does not leave the
    loop: the next entry visited is `base` itself. -/
def insertLoop (base : Nat) : Nat → Link → PmmM Unit
  | 0, _         => Proc.stop .loops
  | fuel + 1, le => do
    let s ← Proc.get
    let le := listNext s.link le
    if le = .freeList then pure ()
    else if base < le2page le then
      Proc.modify fun s => s.setLink (listAddBefore · le (.page base))
    else if listNext s.link le = .freeList then do
      Proc.modify fun s => s.setLink (listAdd · le (.page base))
      insertLoop base fuel le
    else insertLoop base fuel le

/-- The part `default_init_memmap` and `default_free_pages` share: make `base` the head of a free block
    of `n` pages, account for it, and put it on the list. -/
def linkBlock (base n : Nat) : PmmM Unit := do
  Proc.modify fun s => ((s.setProperty base n).setPageProperty base).addNrFree n
  let s ← Proc.get
  if listEmpty s.link .freeList then
    Proc.modify fun s => s.setLink (listAdd · .freeList (.page base))
  else insertLoop base s.fuel .freeList

def defaultInitMemmap (base n : Nat) : PmmM Unit := do
  Proc.check .zeroPages (0 < n)
  memmapPages base n
  linkBlock base n

/-- The search loop of `default_alloc_pages`: the first listed block of at least `n` pages. -/
def searchLoop (n : Nat) : Nat → Link → PmmM (Option Nat)
  | 0, _         => Proc.stop .loops
  | fuel + 1, le => do
    let s ← Proc.get
    let le := listNext s.link le
    if le = .freeList then pure none
    else if n ≤ (s.pages (le2page le)).property then pure (some (le2page le))
    else searchLoop n fuel le

/-- What exceeds `n` pages of the block at `page` goes back on the list as a block of its own. -/
def splitBlock (n page : Nat) (prev : Link) : PmmM Unit := do
  let s ← Proc.get
  if n < (s.pages page).property then do
    let p := page + n
    Proc.modify fun s => (s.setProperty p ((s.pages page).property - n)).setPageProperty p
    Proc.modify fun s => s.setLink (listAdd · prev (.page p))
  else pure ()

/-- Taking the first `n` pages of the block at `page` off the list. -/
def takeBlock (n page : Nat) : PmmM Unit := do
  let s ← Proc.get
  let prev := listPrev s.link (.page page)
  Proc.modify fun s => s.setLink (listDel · (.page page))
  splitBlock n page prev
  Proc.modify fun s => (s.subNrFree n).clearPageProperty page

def defaultAllocPages (n : Nat) : PmmM (Option Nat) := do
  Proc.check .zeroPages (0 < n)
  let s ← Proc.get
  if s.nrFree < n then pure none
  else
    match ← searchLoop n s.fuel .freeList with
    | none => pure none
    | some page => do
      takeBlock n page
      pure (some page)

/-- Merging `base` into the block in front of it; the head of the resulting block. -/
def mergePrev (base : Nat) : PmmM Nat := do
  let s ← Proc.get
  let le := listPrev s.link (.page base)
  if le ≠ .freeList ∧ le2page le + (s.pages (le2page le)).property = base then do
    let p := le2page le
    Proc.modify fun s => (s.setProperty p ((s.pages p).property + (s.pages base).property)).clearPageProperty base
    Proc.modify fun s => s.setLink (listDel · (.page base))
    pure p
  else pure base

/-- Merging the block behind `base` into it. -/
def mergeNext (base : Nat) : PmmM Unit := do
  let s ← Proc.get
  let le := listNext s.link (.page base)
  if le ≠ .freeList ∧ base + (s.pages base).property = le2page le then do
    let p := le2page le
    Proc.modify fun s => (s.setProperty base ((s.pages base).property + (s.pages p).property)).clearPageProperty p
    Proc.modify fun s => s.setLink (listDel · (.page p))
  else pure ()

def defaultFreePages (base n : Nat) : PmmM Unit := do
  Proc.check .zeroPages (0 < n)
  freePagesLoop base n
  linkBlock base n
  let base ← mergePrev base
  mergeNext base

def defaultNrFreePages (s : Pmm) : Nat := s.nrFree

end Ucore
