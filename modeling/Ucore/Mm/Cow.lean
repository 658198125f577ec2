import Ucore.Mm.Vmm

/-!
# `Mm.Cow` — copy-on-write: `copy_range` and `do_pgfault` of `lab5_challenge`

In this lab `copy_range` does not copy: both processes map the page, and neither may write to it. `do_pgfault` makes the
copy when one of them tries to. The functions it calls are those of `Mm.PageTable` and `Mm.Vmm`, line for line; its
counter `pgfault_num` is read nowhere and left out.
-/

namespace Ucore.Cow

/-! ## `copy_range` -/

/-- `*ptep & ~PTE_W` -/
def readOnly (pte : Pte) : Pte := { pte with perm := { pte.perm with w := false } }

/-- If the page may be written to, the entry of the parent loses this right; returns `perm` for the child. -/
def protectPte (ptep : Nat × Nat) : MemM Perm := do
  let s ← Proc.get
  let pte := s.table ptep.1 ptep.2
  if pte.perm.w = true then do
    Proc.modify fun s => s.setPte ptep.1 ptep.2 (readOnly pte)
    pure (readOnly pte).perm
  else pure pte.perm

/-- `copy_range` for one page: the entry at `ptep` is valid. -/
def sharePage (pgdirTo start : Nat) (ptep : Nat × Nat) : MemM Unit := do
  let s ← Proc.get
  let page := (s.table ptep.1 ptep.2).ppn
  let perm ← protectPte ptep
  let ret ← Proc.attempt (pageInsert pgdirTo page start perm)
  match ret with
  | .error _ => Proc.stop .copyInsert
  | .ok _    => pure ()

def copyRound (pgdirTo pgdirFrom start : Nat) : MemM Nat := do
  let ptep ← getPte pgdirFrom start false
  match ptep with
  | none      => pure (nextTable start)
  | some ptep => do
    let s ← Proc.get
    if (s.table ptep.1 ptep.2).v = true then sharePage pgdirTo start ptep else pure ()
    pure (start + pgsize)

/-- `copy_range(to, from, start, end, share)`; `share` is not used. -/
def copyRange (pgdirTo pgdirFrom start stop : Nat) : MemM Unit := do
  checkRange start stop
  rangeLoop (copyRound pgdirTo pgdirFrom) stop (rangeFuel start stop) start

/-- The loop of `dup_mmap` over the areas of `from`, the last one first. -/
def dupVmas (dst : Nat) (pgdirFrom : Nat) : List Vma → VmM Unit
  | []          => pure ()
  | vma :: rest => do
    let nvma ← vmaCreate vma.vmStart vma.vmEnd vma.vmFlags
    match nvma with
    | none      => Proc.fail (-eNoMem)
    | some nvma => do
      insertVmaStruct dst nvma
      let s ← Proc.get
      let ret ← Proc.attempt (inMem (copyRange (s.mm dst).pgdir pgdirFrom vma.vmStart vma.vmEnd))
      match ret with
      | .error _ => Proc.fail (-eNoMem)
      | .ok _    => dupVmas dst pgdirFrom rest

def dupMmap (dst src : Nat) : VmM Unit := do
  let s ← Proc.get
  dupVmas dst (s.mm src).pgdir (s.mm src).mmapList.reverse

/-! ## `do_pgfault` -/

/-- `perm` for the fault that makes the copy -/
def cowPerm (flags : VmFlags) : Perm := { r := flags.write, w := flags.write, x := false, u := true }

/-- `perm` for a page that is missing -/
def missingPerm (flags : VmFlags) : Perm := { r := flags.read, w := flags.write, x := flags.exec, u := true }

/-- The two cases of a copy-on-write fault: the page is shared, or it is not. -/
def cowFault (pgdir pageAddr page : Nat) (perm : Perm) : MemM Int := do
  let s ← Proc.get
  if s.ref page > 1 then do
    let npage ← allocPage
    match npage with
    | none       => pure (-eInval)
    | some npage => do
      Proc.modify fun s => s.setData npage (memcpy (s.data npage) 0 (s.data page) 0 pgsize)
      let ret ← Proc.attempt (pageInsert pgdir npage pageAddr perm)
      match ret with
      | .error _ => do
        freePage npage
        pure (-eInval)
      | .ok _    => pure 0
  else do
    let ret ← Proc.attempt (pageInsert pgdir page pageAddr perm)
    match ret with
    | .error _ => pure (-eInval)
    | .ok _    => pure 0

def missingFault (pgdir addr : Nat) (perm : Perm) : MemM Int := do
  let page ← pgdirAllocPage pgdir addr perm
  match page with
  | none   => pure (-eInval)
  | some _ => pure 0

/-- `*ptep & PTE_V`, no `PTE_W`, and `VM_WRITE` -/
def IsCow (pte : Pte) (flags : VmFlags) : Prop := pte.v = true ∧ pte.perm.w = false ∧ flags.write = true

instance (pte : Pte) (flags : VmFlags) : Decidable (IsCow pte flags) := inferInstanceAs (Decidable (_ ∧ _ ∧ _))

/-- `do_pgfault` once an area is found -/
def faultIn (pgdir addr : Nat) (flags : VmFlags) : MemM Int := do
  let pageAddr := rounddown addr pgsize
  let ptep ← getPte pgdir pageAddr false
  match ptep with
  | none      => missingFault pgdir addr (missingPerm flags)
  | some ptep => do
    let s ← Proc.get
    let pte := s.table ptep.1 ptep.2
    if IsCow pte flags then cowFault pgdir pageAddr pte.ppn (cowPerm flags)
    else missingFault pgdir addr (missingPerm flags)

/-- `do_pgfault(mm, error_code, addr)` returns its code; `error_code` is not used. -/
def doPgfault (m _errorCode addr : Nat) : VmM Int := do
  let vma ← findVma m addr
  match vma with
  | none     => pure (-eInval)
  | some vma =>
    if vma.vmStart > addr then pure (-eInval)
    else do
      let s ← Proc.get
      inMem (faultIn (s.mm m).pgdir addr vma.vmFlags)

end Ucore.Cow
