import Ucore.Mm.PageTable

/-!
# `Mm.Vmm` — `kern/mm/vmm.c`, areas of virtual memory

A `vma_struct` is an interval of pages with flags, an `mm_struct` is the list of them that share a directory,
sorted by address. Both are objects of `kmalloc`, and are known by their addresses; `Vm` keeps the `mm_struct`s
next to the physical pages. As with pages, `kpick` leaves open which address `kmalloc` returns, if any.
-/

namespace Ucore

/-- `VM_READ | VM_WRITE | VM_EXEC | VM_STACK` and their subsets -/
structure VmFlags where
  read : Bool
  write : Bool
  exec : Bool
  stack : Bool
deriving DecidableEq

/-- `struct vma_struct` -/
structure Vma where
  obj : Nat
  vmStart : Nat
  vmEnd : Nat
  vmFlags : VmFlags
deriving DecidableEq

/-- `struct mm_struct` -/
structure Mm where
  mmapList : List Vma
  mmapCache : Option Vma
  pgdir : Nat
  mapCount : Nat
  mmCount : Int
deriving DecidableEq

structure Vm where
  mem : PageMem
  mm : Nat → Mm
  live : Finset Nat
  kpick : Nat → Option Nat
  kticks : Nat

abbrev VmM (α : Type) := Proc MmPanic Int Vm α

namespace Vm

def setMem (s : Vm) (m : PageMem) : Vm := { s with mem := m }

def setMm (s : Vm) (m : Nat) (x : Mm) : Vm := { s with mm := Function.update s.mm m x }

def ktake (s : Vm) (p : Nat) : Vm := { s with live := insert p s.live, kticks := s.kticks + 1 }

def ktick (s : Vm) : Vm := { s with kticks := s.kticks + 1 }

def kgive (s : Vm) (p : Nat) : Vm := { s with live := s.live.erase p }

end Vm

/-- Run a function of `pmm.c`. -/
def inMem {α : Type} (x : MemM α) : VmM α := Proc.zoom Vm.mem (fun m s => s.setMem m) x

def kmalloc : VmM (Option Nat) := do
  let s ← Proc.get
  match s.kpick s.kticks with
  | some p =>
    if p ∈ s.live then do
      Proc.put s.ktick
      pure none
    else do
      Proc.put (s.ktake p)
      pure (some p)
  | none   => do
    Proc.put s.ktick
    pure none

def kfree (p : Nat) : VmM Unit := Proc.modify fun s => s.kgive p

def Mm.empty : Mm := { mmapList := [], mmapCache := none, pgdir := 0, mapCount := 0, mmCount := 0 }

def mmCreate : VmM (Option Nat) := do
  let mm ← kmalloc
  match mm with
  | none    => pure none
  | some mm => do
    Proc.modify fun s => s.setMm mm .empty
    pure (some mm)

def vmaCreate (vmStart vmEnd : Nat) (vmFlags : VmFlags) : VmM (Option Vma) := do
  let vma ← kmalloc
  match vma with
  | none     => pure none
  | some vma => pure (some { obj := vma, vmStart := vmStart, vmEnd := vmEnd, vmFlags := vmFlags })

/-- `vma->vm_start <= addr && addr < vma->vm_end` -/
def Vma.Contains (vma : Vma) (addr : Nat) : Prop := vma.vmStart ≤ addr ∧ addr < vma.vmEnd

instance (vma : Vma) (addr : Nat) : Decidable (vma.Contains addr) := inferInstanceAs (Decidable (_ ∧ _))

/-- What `find_vma` returns: the cached area if it fits, else the first one in the list that does. -/
def Mm.findVma (mm : Mm) (addr : Nat) : Option Vma :=
  match mm.mmapCache with
  | some vma => if vma.Contains addr then some vma else mm.mmapList.find? fun vma => vma.Contains addr
  | none     => mm.mmapList.find? fun vma => vma.Contains addr

def findVma (m addr : Nat) : VmM (Option Vma) := do
  let s ← Proc.get
  match (s.mm m).findVma addr with
  | none     => pure none
  | some vma => do
    Proc.put (s.setMm m { s.mm m with mmapCache := some vma })
    pure (some vma)

def checkVmaOverlap (prev next : Vma) : VmM Unit := do
  Proc.check .vmaOverlap (prev.vmStart < prev.vmEnd)
  Proc.check .vmaOverlap (prev.vmEnd ≤ next.vmStart)
  Proc.check .vmaOverlap (next.vmStart < next.vmEnd)

/-- The areas before and after the place of a new one. -/
def Mm.split (mm : Mm) (vma : Vma) : List Vma × List Vma := mm.mmapList.span fun v => decide (v.vmStart ≤ vma.vmStart)

/-- `list_add_after(le_prev, &(vma->list_link)); mm->map_count++` -/
def Mm.insert (mm : Mm) (vma : Vma) : Mm :=
  { mm with mmapList := (mm.split vma).1 ++ vma :: (mm.split vma).2, mapCount := mm.mapCount + 1 }

/-- The checks of `insert_vma_struct` against its neighbours, where there are any. -/
def checkPrev (prev : Option Vma) (vma : Vma) : VmM Unit :=
  match prev with
  | some prev => checkVmaOverlap prev vma
  | none      => pure ()

def checkNext (vma : Vma) (next : Option Vma) : VmM Unit :=
  match next with
  | some next => checkVmaOverlap vma next
  | none      => pure ()

def insertVmaStruct (m : Nat) (vma : Vma) : VmM Unit := do
  Proc.check .vmaRange (vma.vmStart < vma.vmEnd)
  let s ← Proc.get
  checkPrev ((s.mm m).split vma).1.getLast? vma
  checkNext vma ((s.mm m).split vma).2.head?
  Proc.put (s.setMm m ((s.mm m).insert vma))

/-- The loop of `mm_destroy` frees the areas one by one. -/
def kfreeVmas : List Vma → VmM Unit
  | []         => pure ()
  | vma :: rest => do
    kfree vma.obj
    kfreeVmas rest

def mmDestroy (m : Nat) : VmM Unit := do
  let s ← Proc.get
  Proc.check .mmCount ((s.mm m).mmCount = 0)
  kfreeVmas (s.mm m).mmapList
  kfree m

/-- `mm_map` from `vma_create` on. -/
def mmMapInsert (m start stop : Nat) (vmFlags : VmFlags) : VmM Unit := do
  let vma ← vmaCreate start stop vmFlags
  match vma with
  | none     => Proc.fail (-eNoMem)
  | some vma => insertVmaStruct m vma

/-- `mm_map` once `start` and `end` are rounded. -/
def mmMapRange (m start stop : Nat) (vmFlags : VmFlags) : VmM Unit := do
  if ¬ UserAccess start stop then Proc.fail (-eInval)
  else do
    let vma ← findVma m start
    match vma with
    | some vma => if stop > vma.vmStart then Proc.fail (-eInval) else mmMapInsert m start stop vmFlags
    | none     => mmMapInsert m start stop vmFlags

def mmMap (m addr len : Nat) (vmFlags : VmFlags) : VmM Unit :=
  mmMapRange m (rounddown addr pgsize) (roundup ((addr + len) % 2 ^ 64) pgsize) vmFlags

/-- The loop of `dup_mmap` over the areas of `from`, the last one first. -/
def dupVmas (dst : Nat) (pgdirFrom : Nat) : List Vma → VmM Unit
  | []          => pure ()
  | vma :: rest => do
    let nvma ← vmaCreate vma.vmStart vma.vmEnd vma.vmFlags
    match nvma with
    | none      => Proc.fail (-eNoMem)
    | some nvma => do
      insertVmaStruct dst nvma
      let s ← Proc.get
      let ret ← Proc.attempt (inMem (copyRange (s.mm dst).pgdir pgdirFrom vma.vmStart vma.vmEnd))
      match ret with
      | .error _ => Proc.fail (-eNoMem)
      | .ok _    => dupVmas dst pgdirFrom rest

def dupMmap (dst src : Nat) : VmM Unit := do
  let s ← Proc.get
  dupVmas dst (s.mm src).pgdir (s.mm src).mmapList.reverse

/-- The two loops of `exit_mmap`. -/
def unmapVmas (pgdir : Nat) : List Vma → MemM Unit
  | []          => pure ()
  | vma :: rest => do
    unmapRange pgdir vma.vmStart vma.vmEnd
    unmapVmas pgdir rest

def exitVmas (pgdir : Nat) : List Vma → MemM Unit
  | []          => pure ()
  | vma :: rest => do
    exitRange pgdir vma.vmStart vma.vmEnd
    exitVmas pgdir rest

def exitMmap (m : Nat) : VmM Unit := do
  let s ← Proc.get
  Proc.check .mmCount ((s.mm m).mmCount = 0)
  inMem (unmapVmas (s.mm m).pgdir (s.mm m).mmapList)
  inMem (exitVmas (s.mm m).pgdir (s.mm m).mmapList)

/-- `setup_pgdir(mm)` -/
def mmSetupPgdir (boot : Nat → Pte) (m : Nat) : VmM Unit := do
  let pgdir ← inMem (setupPgdir boot)
  Proc.modify fun s => s.setMm m { s.mm m with pgdir := pgdir }

/-- The start of `copy_mm` and of `load_icode`: `mm_create` and `setup_pgdir`. -/
def mmNew (boot : Nat → Pte) : VmM Nat := do
  let mm ← mmCreate
  match mm with
  | none    => Proc.fail (-eNoMem)
  | some mm => do
    let ret ← Proc.attempt (mmSetupPgdir boot mm)
    match ret with
    | .error _ => do
      mmDestroy mm
      Proc.fail (-eNoMem)
    | .ok _    => pure mm

def putPgdir (m : Nat) : VmM Unit := do
  let s ← Proc.get
  inMem (freePage (s.mm m).pgdir)

/-- Giving up an address space, as `do_exit` does after the last process that uses it. -/
def mmTeardown (m : Nat) : VmM Unit := do
  exitMmap m
  putPgdir m
  mmDestroy m

end Ucore
