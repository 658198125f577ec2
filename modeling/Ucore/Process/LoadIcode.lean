import Ucore.Libs.String
import Ucore.Mm.Vmm

/-!
# `Process.LoadIcode` — `load_icode` of `kern/process/proc.c`

The segments of a program file are brought into a new address space, then the stack with the arguments. The file is known
by its bytes, and by how much of a read arrives; what is behind a descriptor does not matter otherwise. `Exec` has the
address spaces, and of the current process what `load_icode` writes to. A number of 64 bits is a `Nat`, and is reduced
where it may wrap. The loops take as many rounds as their ranges have pages.
-/

namespace Ucore

/-- `EXEC_MAX_ARG_NUM` and `EXEC_MAX_ARG_LEN` -/
def execMaxArgNum : Nat := 32
def execMaxArgLen : Nat := 4095

/-- `USTACKTOP` and `USTACKSIZE` -/
def ustackTop : Nat := userTop
def ustackSize : Nat := 256 * pgsize

/-- `ELF_MAGIC` and `ELF_PT_LOAD` -/
def elfMagic : Nat := 0x464C457F
def elfPtLoad : Nat := 1

/-- The part of `struct elfhdr` that is looked at, at its offsets -/
structure ElfHdr where
  eMagic : Nat
  eEntry : Nat
  ePhoff : Nat
  ePhnum : Nat

def elfHdr (b : Bytes) : ElfHdr :=
  { eMagic := getLe b 0 4, eEntry := getLe b 24 8, ePhoff := getLe b 32 8, ePhnum := getLe b 56 2 }

/-- `sizeof(struct elfhdr)` and `sizeof(struct proghdr)` -/
def elfHdrSize : Nat := 64
def progHdrSize : Nat := 56

/-- The part of `struct proghdr` that is looked at -/
structure ProgHdr where
  pType : Nat
  pFlags : Nat
  pOffset : Nat
  pVa : Nat
  pFilesz : Nat
  pMemsz : Nat

def progHdr (b : Bytes) : ProgHdr :=
  { pType := getLe b 0 4, pFlags := getLe b 4 4, pOffset := getLe b 8 8, pVa := getLe b 16 8, pFilesz := getLe b 32 8
    pMemsz := getLe b 40 8 }

/-- A program file: of a read at an offset some bytes arrive, none from behind the end, and if there are none there may be an
    error. -/
structure ElfFile where
  bytes : Bytes
  size : Nat
  got : Nat → Nat → Nat
  err : Nat → Nat → Int
  size_lt : size < 2 ^ 63
  got_le : ∀ offset len, got offset len ≤ size - offset

/-- `struct trapframe` -/
structure Trapframe where
  gpr : Nat → Nat
  status : Nat
  epc : Nat
  tval : Nat
  cause : Nat

/-- `mm`, `pgdir` and `tf` are those of `current`. -/
structure Exec where
  vm : Vm
  mm : Option Nat
  pgdir : Nat
  tf : Trapframe

inductive ExecPanic where
  | argNum         -- `assert(argc >= 0 && argc <= EXEC_MAX_ARG_NUM)`
  | stackPage      -- `assert(pgdir_alloc_page(…) != NULL)`
  | bssEnd         -- `assert((end < la && start == end) || (end >= la && start == la))`
  | nullPte        -- `*pte` where `get_pte` found nothing
  | badPte         -- `pte2page called with invalid pte`
  | loops          -- a loop that would not end
  | mm (p : MmPanic)
deriving DecidableEq

abbrev ExecM (α : Type) := Proc ExecPanic Int Exec α

/-- Run a function of `vmm.c`. -/
def inVm {α : Type} (x : VmM α) : ExecM α := fun s =>
  match x s.vm with
  | .ok a v  => .ok a { s with vm := v }
  | .err e v => .err e { s with vm := v }
  | .panic p => .panic (.mm p)

def Exec.modMem (s : Exec) (f : PageMem → PageMem) : Exec := { s with vm := s.vm.setMem (f s.vm.mem) }

/-- `memcpy(page2kva(page) + off, src + from, len)` -/
def copyToPage (page off : Nat) (src : Bytes) (start len : Nat) : ExecM Unit :=
  Proc.modify fun s => s.modMem fun m => m.setData page (memcpy (m.data page) off src start len)

/-! ## The file -/

/-- `load_icode_read`: the bytes that arrive are copied, and the result is `0` if these are all. -/
def loadIcodeRead (file : ElfFile) (len offset : Nat) : Nat × Int :=
  let got := min (file.got offset len) len
  (got, if got = len then 0 else if got = 0 ∧ file.err offset len < 0 then file.err offset len else -1)

/-- A header is read from the file. -/
def readHdr {α : Type} (file : ElfFile) (hdr : Bytes → α) (len offset : Nat) : ExecM α :=
  let ret := (loadIcodeRead file len offset).2
  if ret ≠ 0 then Proc.fail ret else pure (hdr fun i => file.bytes (offset + i))

/-! ## Segments -/

/-- `vm_flags` and `perm` of a segment -/
def ProgHdr.vmFlags (ph : ProgHdr) : VmFlags :=
  { read := ph.pFlags.testBit 2, write := ph.pFlags.testBit 1, exec := ph.pFlags.testBit 0, stack := false }

def ProgHdr.perm (ph : ProgHdr) : Perm :=
  { r := ph.vmFlags.read, w := ph.vmFlags.write, x := ph.vmFlags.exec, u := true }

/-- `end` and `end_mem` -/
def ProgHdr.stop (ph : ProgHdr) : Nat := (ph.pVa + ph.pFilesz) % 2 ^ 64
def ProgHdr.stopMem (ph : ProgHdr) : Nat := (ph.pVa + ph.pMemsz) % 2 ^ 64

def pageFuel (start stop : Nat) : Nat := (stop - start) / pgsize + 3

/-- Load File Content (TEXT/DATA) -/
def loadFile (file : ElfFile) (ph : ProgHdr) (pgdir : Nat) : Nat → Nat → Nat → ExecM Nat
  | 0, _, _             => Proc.stop .loops
  | fuel + 1, start, la =>
    if start < ph.stop then do
      let page ← inVm (inMem (pgdirAllocPage pgdir la ph.perm))
      match page with
      | none      => Proc.fail (-eNoMem)
      | some page => do
        let offset := (ph.pOffset + (start - ph.pVa)) % 2 ^ 64
        let pageOff := start - la
        let size := min (ph.stop - start) (pgsize - pageOff)
        let (got, ret) := loadIcodeRead file size offset
        copyToPage page pageOff (fun i => file.bytes (offset + i)) 0 got
        if ret ≠ 0 then Proc.fail ret
        else do
          let start := start + size
          loadFile file ph pgdir fuel start (if start < ph.stop ∧ start ≥ la + pgsize then la + pgsize else la)
    else pure start

/-- Zero out the remainder of the *current* page if we stopped in the middle -/
def zeroTail (pgdir start : Nat) : ExecM Unit := do
  let ptep ← inVm (inMem (getPte pgdir start false))
  match ptep with
  | none        => pure ()
  | some (t, i) => do
    let s ← Proc.get
    if (s.vm.mem.table t i).v = true then
      copyToPage (s.vm.mem.table t i).ppn (start % pgsize) (fun _ => 0) 0 (pgsize - start % pgsize)
    else pure ()

/-- Allocate and zero full new pages for the rest of BSS -/
def zeroPages (ph : ProgHdr) (pgdir : Nat) : Nat → Nat → ExecM Unit
  | 0, _            => Proc.stop .loops
  | fuel + 1, start =>
    if start < ph.stopMem then do
      let page ← inVm (inMem (pgdirAllocPage pgdir start ph.perm))
      match page with
      | none      => Proc.fail (-eNoMem)
      | some page => do
        copyToPage page 0 (fun _ => 0) 0 pgsize
        zeroPages ph pgdir fuel (start + pgsize)
    else pure ()

/-- Handle BSS (Zero out remaining memory) -/
def loadBss (ph : ProgHdr) (pgdir start : Nat) : ExecM Unit :=
  if ph.stop < ph.stopMem then
    if start % pgsize ≠ 0 then do
      zeroTail pgdir start
      zeroPages ph pgdir (pageFuel start ph.stopMem) (roundup start pgsize)
    else zeroPages ph pgdir (pageFuel start ph.stopMem) start
  else pure ()

/-- A segment of type `ELF_PT_LOAD` -/
def loadSegment (file : ElfFile) (m : Nat) (ph : ProgHdr) : ExecM Unit :=
  if ph.pFilesz > ph.pMemsz then Proc.fail (-eInvalElf)
  else do
    inVm (mmMap m ph.pVa ph.pMemsz ph.vmFlags)
    let s ← Proc.get
    let pgdir := (s.vm.mm m).pgdir
    let start ← loadFile file ph pgdir (pageFuel ph.pVa ph.stop) ph.pVa (rounddown ph.pVa pgsize)
    loadBss ph pgdir start

/-- Load TEXT/DATA/BSS: the program headers from the `i`-th on -/
def loadSegments (file : ElfFile) (m phoff : Nat) : Nat → Nat → ExecM Unit
  | 0, _     => pure ()
  | n + 1, i => do
    let ph ← readHdr file progHdr progHdrSize ((phoff + i * progHdrSize) % 2 ^ 64)
    if ph.pType ≠ elfPtLoad then loadSegments file m phoff n (i + 1)
    else do
      loadSegment file m ph
      loadSegments file m phoff n (i + 1)

/-! ## The stack -/

/-- `PTE_USER` -/
def pteUser : Perm := { r := true, w := true, x := true, u := true }

/-- `assert(pgdir_alloc_page(mm->pgdir, USTACKTOP - k * PGSIZE, PTE_USER) != NULL)` -/
def stackPage (pgdir k : Nat) : ExecM Unit := do
  let page ← inVm (inMem (pgdirAllocPage pgdir (ustackTop - k * pgsize) pteUser))
  match page with
  | none   => Proc.stop .stackPage
  | some _ => pure ()

/-- Setup User Stack -/
def setupStack (m : Nat) : ExecM Unit := do
  inVm (mmMap m (ustackTop - ustackSize) ustackSize { read := true, write := true, exec := false, stack := true })
  let s ← Proc.get
  let pgdir := (s.vm.mm m).pgdir
  stackPage pgdir 1
  stackPage pgdir 2
  stackPage pgdir 3
  stackPage pgdir 4

/-- `pte2page(*get_pte(pgdir, la, 0))` -/
def pageAt (pgdir la : Nat) : ExecM Nat := do
  let ptep ← inVm (inMem (getPte pgdir la false))
  match ptep with
  | none        => Proc.stop .nullPte
  | some (t, i) => do
    let s ← Proc.get
    if (s.vm.mem.table t i).v = true then pure (s.vm.mem.table t i).ppn else Proc.stop .badPte

/-- The string that begins at `base` is copied from `cur` on, page by page. -/
def pushChunks (pgdir : Nat) (str : Bytes) (base stop : Nat) : Nat → Nat → ExecM Unit
  | 0, _          => Proc.stop .loops
  | fuel + 1, cur =>
    if cur < stop then do
      let page ← pageAt pgdir cur
      let off := cur % pgsize
      let chunk := min (pgsize - off) (stop - cur)
      copyToPage page off str (cur - base) chunk
      pushChunks pgdir str base stop fuel (cur + chunk)
    else pure ()

/-- Push strings: returns `stacktop`, and `user_vaddr_argv` of what is pushed. -/
def pushStrings (pgdir : Nat) (kargv : Nat → Bytes) : Nat → Nat → Nat → ExecM (Nat × List Nat)
  | 0, _, stacktop     => pure (stacktop, [])
  | n + 1, i, stacktop => do
    let len := strnlen (kargv i) (execMaxArgLen + 1) 0
    let stacktop := stacktop - (len + 1)
    pushChunks pgdir (kargv i) stacktop (stacktop + len + 1) (pageFuel stacktop (stacktop + len + 1)) stacktop
    let (top, argv) ← pushStrings pgdir kargv n (i + 1) stacktop
    pure (top, stacktop :: argv)

/-- `*(uintptr_t *)la = v` -/
def pushWord (pgdir la v : Nat) : ExecM Unit := do
  let page ← pageAt pgdir la
  copyToPage page (la % pgsize) (putLe (fun _ => 0) 0 v 8) 0 8

/-- Write argv array, with its NULL terminator -/
def pushArgv (pgdir : Nat) : List Nat → Nat → ExecM Unit
  | [], la        => pushWord pgdir la 0
  | v :: argv, la => do
    pushWord pgdir la v
    pushArgv pgdir argv (la + 8)

/-- Align Stack Pointer for argv array -/
def argvTop (argc stacktop : Nat) : Nat := (stacktop - (argc + 1) * 8) / 16 * 16

/-! ## `load_icode` -/

/-- `(sstatus & ~SSTATUS_SPP) | SSTATUS_SPIE` -/
def userStatus (sstatus : Nat) : Nat := (sstatus ^^^ (sstatus &&& 0x100)) ||| 0x20

/-- Context Switch Setup and Trapframe Setup; `sp`, `a0` and `a1` are the registers 2, 10 and 11. -/
def switchTo (m argc stacktop entry : Nat) (s : Exec) : Exec :=
  { vm := s.vm.setMm m { s.vm.mm m with mmCount := (s.vm.mm m).mmCount + 1 }
    mm := some m
    pgdir := (s.vm.mm m).pgdir
    tf :=
      { gpr := Function.update (Function.update (Function.update (fun _ => 0) 2 stacktop) 10 argc) 11 stacktop
        status := userStatus s.tf.status, epc := entry, tval := 0, cause := 0 } }

/-- `load_icode` once there is an address space -/
def loadInto (file : ElfFile) (argc : Nat) (kargv : Nat → Bytes) (m : Nat) : ExecM Unit := do
  let elf ← readHdr file elfHdr elfHdrSize 0
  if elf.eMagic ≠ elfMagic then Proc.fail (-eInvalElf)
  else do
    loadSegments file m elf.ePhoff elf.ePhnum 0
    setupStack m
    let s ← Proc.get
    let pgdir := (s.vm.mm m).pgdir
    let (top, argv) ← pushStrings pgdir kargv argc 0 ustackTop
    let stacktop := argvTop argc top
    pushArgv pgdir argv stacktop
    Proc.modify (switchTo m argc stacktop elf.eEntry)

/-- `bad_mm` -/
def badMm (m : Nat) : ExecM Unit := do
  inVm (mmDestroy m)
  Proc.modify fun s => { s with mm := none }

/-- `load_icode(fd, argc, kargv)`; the directory starts as a copy of `boot_pgdir`. -/
def loadIcode (boot : Nat → Pte) (file : ElfFile) (argc : Nat) (kargv : Nat → Bytes) : ExecM Unit := do
  Proc.check .argNum (argc ≤ execMaxArgNum)
  let m ← inVm (mmNew boot)
  Proc.onErr (loadInto file argc kargv m) (badMm m)

end Ucore
