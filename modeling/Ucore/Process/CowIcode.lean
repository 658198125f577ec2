import Ucore.Mm.Cow
import Ucore.Process.LoadIcode

/-!
# `Process.CowIcode` — segments and stack in `load_icode` of `lab5_challenge`

This `load_icode` gets the program as an array of bytes. Here are the two parts of it that make areas and map pages: a
segment, from (3.5) on, and the stack. The program headers are those of `Process.LoadIcode`.
-/

namespace Ucore.Cow

abbrev LoadM (α : Type) := Proc ExecPanic Int Vm α

/-- Run a function of `vmm.c`. -/
def inVmm {α : Type} (x : VmM α) : LoadM α := Proc.within id (fun v _ => v) ExecPanic.mm x

/-- `perm` of a segment -/
def segPerm (ph : ProgHdr) : Perm :=
  { r := ph.vmFlags.read || ph.vmFlags.write, w := ph.vmFlags.write, x := ph.vmFlags.exec, u := true }

/-- `memcpy(page2kva(page) + off, src + from, len)` -/
def fillPage (page off : Nat) (src : Bytes) (start len : Nat) : LoadM Unit :=
  Proc.modify fun s => s.setMem (s.mem.setData page (memcpy (s.mem.data page) off src start len))

/-- The variables `start`, `la`, `from` and `page`; the last one is looked at only after a page has been allocated. -/
structure LoadPos where
  start : Nat
  la : Nat
  src : Nat
  page : Nat

/-- `size`: what of the page that ends at `la` comes from the offset `off` on, up to `stop` -/
def sizeIn (off la stop : Nat) : Nat := if stop < la then pgsize - off - (la - stop) else pgsize - off

/-- (3.6.1) copy TEXT/DATA section of binary program -/
def loadText (binary : Bytes) (ph : ProgHdr) (pgdir : Nat) : Nat → LoadPos → LoadM LoadPos
  | 0, _        => Proc.stop .loops
  | fuel + 1, x =>
    if x.start < ph.stop then do
      let page ← inVmm (inMem (pgdirAllocPage pgdir x.la (segPerm ph)))
      match page with
      | none      => Proc.fail (-eNoMem)
      | some page => do
        let off := x.start - x.la
        let la := x.la + pgsize
        let size := sizeIn off la ph.stop
        fillPage page off binary x.src size
        loadText binary ph pgdir fuel { start := x.start + size, la := la, src := x.src + size, page := page }
    else pure x

/-- The second loop of (3.6.2) -/
def clearPages (ph : ProgHdr) (pgdir : Nat) : Nat → LoadPos → LoadM Unit
  | 0, _        => Proc.stop .loops
  | fuel + 1, x =>
    if x.start < ph.stopMem then do
      let page ← inVmm (inMem (pgdirAllocPage pgdir x.la (segPerm ph)))
      match page with
      | none      => Proc.fail (-eNoMem)
      | some page => do
        let off := x.start - x.la
        let la := x.la + pgsize
        let size := sizeIn off la ph.stopMem
        fillPage page off (fun _ => 0) 0 size
        clearPages ph pgdir fuel { x with start := x.start + size, la := la, page := page }
    else pure ()

/-- (3.6.2) build BSS section of binary program -/
def loadBss (ph : ProgHdr) (pgdir : Nat) (x : LoadPos) : LoadM Unit :=
  if x.start < x.la then
    if x.start = ph.stopMem then pure ()
    else do
      let off := x.start + pgsize - x.la
      let size := sizeIn off x.la ph.stopMem
      fillPage x.page off (fun _ => 0) 0 size
      let start := x.start + size
      Proc.check .bssEnd (ph.stopMem < x.la ∧ start = ph.stopMem ∨ ph.stopMem ≥ x.la ∧ start = x.la)
      clearPages ph pgdir (pageFuel start ph.stopMem) { x with start := start }
  else clearPages ph pgdir (pageFuel x.start ph.stopMem) x

/-- A segment of type `ELF_PT_LOAD` -/
def loadSegment (binary : Bytes) (m : Nat) (ph : ProgHdr) : LoadM Unit :=
  if ph.pFilesz > ph.pMemsz then Proc.fail (-eInvalElf)
  else do
    inVmm (mmMap m ph.pVa ph.pMemsz ph.vmFlags)
    let s ← Proc.get
    let pgdir := (s.mm m).pgdir
    let x ← loadText binary ph pgdir (pageFuel ph.pVa ph.stop)
      { start := ph.pVa, la := rounddown ph.pVa pgsize, src := ph.pOffset, page := 0 }
    loadBss ph pgdir x

/-- `assert(pgdir_alloc_page(mm->pgdir, USTACKTOP - k * PGSIZE, PTE_USER) != NULL)` -/
def stackPage (pgdir k : Nat) : LoadM Unit := do
  let page ← inVmm (inMem (pgdirAllocPage pgdir (ustackTop - k * pgsize) pteUser))
  match page with
  | none   => Proc.stop .stackPage
  | some _ => pure ()

/-- (4) build user stack memory -/
def loadStack (m : Nat) : LoadM Unit := do
  inVmm (mmMap m (ustackTop - ustackSize) ustackSize { read := true, write := true, exec := false, stack := true })
  let s ← Proc.get
  let pgdir := (s.mm m).pgdir
  stackPage pgdir 1
  stackPage pgdir 2
  stackPage pgdir 3
  stackPage pgdir 4

end Ucore.Cow
