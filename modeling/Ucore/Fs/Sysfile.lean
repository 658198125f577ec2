import Ucore.Fs.File
import Ucore.Mm.UserMem

/-!
# `Fs.Sysfile` — `sysfile_read` and `sysfile_write` of `kern/fs/sysfile.c`

The bytes go through a buffer of the kernel, one after another: a call of `file_read` or `file_write`, and a copy from or to the
memory of the process. The loops take a round for every byte at most. Nobody else comes in between, so the lock of the `mm` is
not modelled; and the memory of the process is no memory of the kernel. `buffer` is what `kmalloc` returns.
-/

namespace Ucore.Sysfile

/-- What stops the machine: the file system, the checks of the memory, or `assert(len >= alen)`. -/
inductive Panic where
  | fs (p : SfsPanic)
  | mm (p : MmPanic)
  | lenAlen
  | loops

/-- The file, the address spaces, and the memory of the process by its addresses. -/
structure State where
  files : FileSys
  vm : Vm
  mem : Bytes

abbrev SysM (α : Type) := Proc Panic Int State α

def inFiles {α : Type} (x : FileM α) : SysM α := Proc.within State.files (fun files s => { s with files := files }) .fs x

def inVm {α : Type} (x : VmM α) : SysM α := Proc.within State.vm (fun vm s => { s with vm := vm }) .mm x

/-- `file_testfd` of `kern/fs/file.c` -/
def fileTestfd (pid fd : Nat) (readable writable : Bool) : FileM Bool := do
  let r ← Proc.attempt (fd2file pid fd)
  match r with
  | .error _ => pure false
  | .ok file =>
    if readable = true ∧ file.readable = false then pure false
    else if writable = true ∧ file.writable = false then pure false
    else pure true

/-- `IOBUF_SIZE` -/
def iobufSize : Nat := 4096

/-- The return value, `*copied_store` and the buffer. -/
def fileCall (pid fd : Nat) (buf : Bytes) (len : Nat) (write : Bool) : SysM IoResult := do
  let r ← Proc.attempt (inFiles (fileIo pid fd buf len write))
  match r with
  | .ok r      => pure r
  | .error ret => pure { ret := ret, alen := 0, buf := buf }

def copyOut (mm : Option Nat) (dst : Nat) (src : Bytes) (len : Nat) : SysM Bool := do
  let s ← Proc.get
  let (ok, mem) ← inVm (copyToUser mm s.mem dst src len)
  Proc.modify fun s => { s with mem := mem }
  pure ok

def copyIn (mm : Option Nat) (dst : Bytes) (src len : Nat) : SysM (Bool × Bytes) := do
  let s ← Proc.get
  inVm (copyFromUser mm s.mem dst src len false)

/-- The local variables of the loops. -/
structure Vars where
  base : Nat
  len : Nat
  copied : Nat

/-- `base += alen, len -= alen, copied += alen` -/
def Vars.advance (v : Vars) (alen : Nat) : Vars where
  base := (v.base + alen) % 2 ^ 64
  len := v.len - alen
  copied := v.copied + alen

/-- The loop of `sysfile_read`: `ret` and `copied`. -/
def sysfileReadLoop (pid fd : Nat) (mm : Option Nat) : Nat → Bytes → Vars → SysM (Int × Nat)
  | 0, _, _             => Proc.stop .loops
  | fuel + 1, buffer, v =>
    if v.len ≠ 0 then do
      let r ← fileCall pid fd buffer (min iobufSize v.len) false
      let (ret, v) ←
        if r.alen ≠ 0 then do
          let ok ← copyOut mm v.base r.buf r.alen
          if ok = true then do
            Proc.check .lenAlen (r.alen ≤ v.len)
            pure (r.ret, v.advance r.alen)
          else pure (if r.ret = 0 then -eInval else r.ret, v)
        else pure (r.ret, v)
      if ret ≠ 0 ∨ r.alen = 0 then pure (ret, v.copied)
      else sysfileReadLoop pid fd mm fuel r.buf v
    else pure (0, v.copied)

/-- The loop of `sysfile_write`. A refused copy leaves `alen` as it was. -/
def sysfileWriteLoop (pid fd : Nat) (mm : Option Nat) : Nat → Bytes → Vars → SysM (Int × Nat)
  | 0, _, _             => Proc.stop .loops
  | fuel + 1, buffer, v =>
    if v.len ≠ 0 then do
      let alen := min iobufSize v.len
      let (ok, buffer) ← copyIn mm buffer v.base alen
      let (ret, alen, v) ←
        if ok = true then do
          let r ← fileCall pid fd buffer alen true
          if r.alen ≠ 0 then do
            Proc.check .lenAlen (r.alen ≤ v.len)
            pure (r.ret, r.alen, v.advance r.alen)
          else pure (r.ret, r.alen, v)
        else pure (-eInval, alen, v)
      if ret ≠ 0 ∨ alen = 0 then pure (ret, v.copied)
      else sysfileWriteLoop pid fd mm fuel buffer v
    else pure (0, v.copied)

/-- The label `out`; the count is returned as an `int`. -/
def sysfileOut (ret : Int) (copied : Nat) : Int := if copied ≠ 0 then Int.bmod copied (2 ^ 32) else ret

def sysfileRead (pid fd : Nat) (mm : Option Nat) (buffer : Option Bytes) (base len : Nat) : SysM Int :=
  if len = 0 then pure 0
  else do
    let ok ← inFiles (fileTestfd pid fd true false)
    if ok = false then pure (-eInval)
    else match buffer with
      | none        => pure (-eNoMem)
      | some buffer => do
        let (ret, copied) ← sysfileReadLoop pid fd mm (len + 1) buffer { base := base, len := len, copied := 0 }
        pure (sysfileOut ret copied)

def sysfileWrite (pid fd : Nat) (mm : Option Nat) (buffer : Option Bytes) (base len : Nat) : SysM Int :=
  if len = 0 then pure 0
  else do
    let ok ← inFiles (fileTestfd pid fd false true)
    if ok = false then pure (-eInval)
    else match buffer with
      | none        => pure (-eNoMem)
      | some buffer => do
        let (ret, copied) ← sysfileWriteLoop pid fd mm (len + 1) buffer { base := base, len := len, copied := 0 }
        pure (sysfileOut ret copied)

end Ucore.Sysfile
