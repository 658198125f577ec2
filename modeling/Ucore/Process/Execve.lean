import Ucore.Fs.Files
import Ucore.Mm.UserMem
import Ucore.Process.LoadIcode

/-!
# `Process.Execve` — `do_execve` of `kern/process/proc.c`

The arguments are copied, all descriptors but the first two are closed, the program file is opened, the address space is given
up, and `load_icode` loads the file through its descriptor. So the functions of `Process.LoadIcode` that read from the file are
here once more, over the descriptors (`Execve.loadIcode`). The heap is known by the allocations that fail, so that `kfree` does
not show.
-/

namespace Ucore.Execve

open Vfs

/-- `PROC_NAME_LEN` and `FS_MAX_FPATH_LEN` -/
def procNameLen : Nat := 15
def fsMaxFpathLen : Nat := 4095

/-- The machine, and of `current` the fields that `do_execve` reads and writes. -/
structure Sys where
  ex : Exec
  files : FilesSys
  pid : Nat
  name : Bytes

inductive Panic where
  | exec (p : ExecPanic)
  | files (p : VfsPanic)
deriving DecidableEq

abbrev SysM (α : Type) := Proc Panic Int Sys α

def inExec {α : Type} (x : ExecM α) : SysM α := Proc.within Sys.ex (fun ex s => { s with ex := ex }) .exec x
def inFiles {α : Type} (x : FilesM α) : SysM α := Proc.within Sys.files (fun files s => { s with files := files }) .files x

/-! ## `load_icode` -/

def loadIcodeRead (ops : NodeOps) (fd len : Nat) (offset : Int) : FilesM ReadAnswer := do
  let ret ← Proc.attempt (Vfs.fileSeek ops fd offset)
  match ret with
  | .error e => pure { ret := e, used := 0, data := fun _ => 0 }
  | .ok _    => do
    let r ← Proc.attempt (sysfileRead ops fd len)
    match r with
    | .error e => pure { ret := if e < 0 then e else -1, used := 0, data := fun _ => 0 }
    | .ok r    => pure { r with ret := if r.ret = len then 0 else if r.ret < 0 then r.ret else -1 }

/-- The `off_t` of an `unsigned long` -/
def offT (n : Nat) : Int := Int.bmod n (2 ^ 64)

def readHdr {α : Type} (ops : NodeOps) (fd : Nat) (hdr : Bytes → α) (len offset : Nat) : SysM α := do
  let r ← inFiles (loadIcodeRead ops fd len (offT offset))
  if r.ret ≠ 0 then Proc.fail r.ret else pure (hdr r.data)

def loadFile (ops : NodeOps) (fd : Nat) (ph : ProgHdr) (pgdir : Nat) : Nat → Nat → Nat → SysM Nat
  | 0, _, _             => Proc.stop (.exec .loops)
  | fuel + 1, start, la =>
    if start < ph.stop then do
      let page ← inExec (inVm (inMem (pgdirAllocPage pgdir la ph.perm)))
      match page with
      | none      => Proc.fail (-eNoMem)
      | some page => do
        let offset := (ph.pOffset + (start - ph.pVa)) % 2 ^ 64
        let pageOff := start - la
        let size := min (ph.stop - start) (pgsize - pageOff)
        let r ← inFiles (loadIcodeRead ops fd size (offT offset))
        inExec (copyToPage page pageOff r.data 0 r.used)
        if r.ret ≠ 0 then Proc.fail r.ret
        else do
          let start := start + size
          loadFile ops fd ph pgdir fuel start (if start < ph.stop ∧ start ≥ la + pgsize then la + pgsize else la)
    else pure start

def loadSegment (ops : NodeOps) (fd m : Nat) (ph : ProgHdr) : SysM Unit :=
  if ph.pFilesz > ph.pMemsz then Proc.fail (-eInvalElf)
  else do
    inExec (inVm (mmMap m ph.pVa ph.pMemsz ph.vmFlags))
    let s ← Proc.get
    let pgdir := (s.ex.vm.mm m).pgdir
    let start ← loadFile ops fd ph pgdir (pageFuel ph.pVa ph.stop) ph.pVa (rounddown ph.pVa pgsize)
    inExec (loadBss ph pgdir start)

def loadSegments (ops : NodeOps) (fd m phoff : Nat) : Nat → Nat → SysM Unit
  | 0, _     => pure ()
  | n + 1, i => do
    let ph ← readHdr ops fd progHdr progHdrSize ((phoff + i * progHdrSize) % 2 ^ 64)
    if ph.pType ≠ elfPtLoad then loadSegments ops fd m phoff n (i + 1)
    else do
      loadSegment ops fd m ph
      loadSegments ops fd m phoff n (i + 1)

/-- The stack and the arguments, and the switch to the new address space -/
def loadStack (m argc : Nat) (kargv : Nat → Bytes) (entry : Nat) : ExecM Unit := do
  setupStack m
  let s ← Proc.get
  let pgdir := (s.vm.mm m).pgdir
  let (top, argv) ← pushStrings pgdir kargv argc 0 ustackTop
  let stacktop := argvTop argc top
  pushArgv pgdir argv stacktop
  Proc.modify (switchTo m argc stacktop entry)

def loadInto (ops : NodeOps) (fd argc : Nat) (kargv : Nat → Bytes) (m : Nat) : SysM Unit := do
  let elf ← readHdr ops fd elfHdr elfHdrSize 0
  if elf.eMagic ≠ elfMagic then Proc.fail (-eInvalElf)
  else do
    loadSegments ops fd m elf.ePhoff elf.ePhnum 0
    inExec (loadStack m argc kargv elf.eEntry)

def loadIcode (boot : Nat → Pte) (ops : NodeOps) (fd argc : Nat) (kargv : Nat → Bytes) : SysM Unit := do
  Proc.check (.exec .argNum) (argc ≤ execMaxArgNum)
  let m ← inExec (inVm (mmNew boot))
  Proc.onErr (loadInto ops fd argc kargv m) (inExec (badMm m))

/-! ## The arguments -/

/-- What `do_execve` is called with: the addresses, and the memory they are addresses of. `junk` is what is in a new buffer. -/
structure Args where
  name : Nat
  argc : Int
  argv : Nat
  mem : Bytes
  junk : Bytes

/-- `argv[i]` -/
def Args.arg (a : Args) (i : Nat) : Nat := getLe a.mem (a.argv + 8 * i) 8

/-- `copy_string(current->mm, dst, src, maxn)` -/
def copyString (a : Args) (dst : Bytes) (src maxn : Nat) : SysM Bytes := do
  let s ← Proc.get
  let (ok, buf) ← inExec (inVm (Ucore.copyString s.ex.mm a.mem dst src maxn))
  if ok = false then Proc.fail (-eInval) else pure buf

/-- The loop of `copy_kargv` -/
def copyKargvFrom (a : Args) : Nat → Nat → SysM (List Bytes)
  | 0, _     => pure []
  | n + 1, i => do
    inFiles (inVfs Vfs.kmalloc)
    let buf ← copyString a a.junk (a.arg i) (execMaxArgLen + 1)
    let bufs ← copyKargvFrom a n (i + 1)
    pure (buf :: bufs)

def copyKargv (a : Args) (argc : Nat) : SysM (List Bytes) := do
  let s ← Proc.get
  let ok ← inExec (inVm (userMemCheck s.ex.mm a.argv (8 * argc) false))
  if ok = false then Proc.fail (-eInval) else copyKargvFrom a argc 0

/-- `snprintf(local_name, sizeof(local_name), "<null> %d", current->pid)` -/
def nullName (pid : Nat) : Bytes := fun i =>
  ((("<null> " ++ toString pid).toList.map fun c => c.toNat.toUInt8).take procNameLen).getD i 0

/-- `local_name` -/
def copyName (a : Args) : SysM Bytes := do
  let s ← Proc.get
  if a.name = 0 then pure (nullName s.pid) else copyString a (fun _ => 0) a.name (procNameLen + 1)

def copyPath (a : Args) (path : Nat) : SysM (List UInt8) := do
  inFiles (inVfs Vfs.kmalloc)
  let buf ← copyString a a.junk path (fsMaxFpathLen + 1)
  pure (cstring buf 0 (fsMaxFpathLen + 1))

def sysfileOpen (a : Args) (path flags : Nat) : SysM Nat := do
  let path ← copyPath a path
  inFiles (Vfs.fileOpen path flags)

/-! ## `do_execve` -/

/-- How it ends: it returns 0, it returns an error, or the process exits with one. -/
inductive End where
  | done
  | returns (e : Int)
  | exits (e : Int)
deriving DecidableEq

/-- The old address space is given up. -/
def leaveMm : ExecM Unit := do
  let s ← Proc.get
  match s.mm with
  | none   => pure ()
  | some m => do
    let count := (s.vm.mm m).mmCount - 1
    inVm (Proc.modify fun v => v.setMm m { v.mm m with mmCount := count })
    if count = 0 then inVm (mmTeardown m) else pure ()
    Proc.modify fun s => { s with mm := none }

/-- `name` and `kargv` -/
def copyArgs (a : Args) : SysM (Bytes × List Bytes) := do
  let name ← copyName a
  let kargv ← copyKargv a a.argc.toNat
  pure (name, kargv)

/-- `set_proc_name(current, name)` -/
def setProcName (name : Bytes) : SysM Unit :=
  Proc.modify fun s => { s with name := fun i => if i < procNameLen then name i else 0 }

/-- `do_execve` once the program file is open -/
def execFile (boot : Nat → Pte) (ops : NodeOps) (fd : Nat) (argc : Nat) (name : Bytes) (kargv : List Bytes) : SysM End := do
  inExec leaveMm
  let ret ← Proc.attempt (loadIcode boot ops fd argc fun i => kargv.getD i fun _ => 0)
  match ret with
  | .error e => pure (.exits e)
  | .ok _    => do
    setProcName name
    pure .done

def doExecve (boot : Nat → Pte) (ops : NodeOps) (a : Args) : SysM End :=
  if ¬ (1 ≤ a.argc ∧ a.argc ≤ execMaxArgNum) then pure (.returns (-eInval))
  else do
    let args ← Proc.attempt (copyArgs a)
    match args with
    | .error e          => pure (.returns e)
    | .ok (name, kargv) => do
      inFiles filesCloseall
      let fd ← Proc.attempt (sysfileOpen a (a.arg 0) 0)
      match fd with
      | .error e => pure (.exits e)
      | .ok fd   => execFile boot ops fd a.argc.toNat name kargv

end Ucore.Execve
