import Ucore.Fs.Sfs.SfsInode

/-!
# `Fs.File` — `kern/fs/file.c` and `vfs_open`, the descriptors of one file

Every descriptor has a position of its own; size and blocks are in the inode, which all descriptors of a
file share. The state here is one file of the simple file system, regular or a directory, with the descriptors that are
open on it, in any number of processes; the path in a `file_open` is one that leads to this file.

The kernel is not preempted, and nothing below these functions waits while it holds the inode's
semaphore, so a call is one step. Within a call a slot of the descriptor table is `FD_INIT` or `FD_CLOSED`
and its `open_count` moves; between calls it is free, or `FD_OPENED` with `open_count` 1, and only the open
slots are listed. The inode's `open_count` is the length of the list.
-/

namespace Ucore

/-- `FILES_STRUCT_NENTRY` -/
def filesStructNentry : Nat := (4096 - 48) / 40

/-- An open `struct file`, in the table of the process `pid`. -/
structure File where
  pid : Nat
  fd : Nat
  readable : Bool
  writable : Bool
  pos : Int

/-- A file and its descriptors. -/
structure FileSys where
  ctx : SfsCtx
  files : List File

abbrev FileM (α : Type) := Proc SfsPanic Int FileSys α

def onCtx {α : Type} (x : SinM α) : FileM α := Proc.zoom FileSys.ctx (fun c s => { s with ctx := c }) x

/-- The slot `fd` of the process `pid`. -/
def File.at (pid fd : Nat) (f : File) : Bool := f.pid == pid && f.fd == fd

/-! ## Open flags -/

/-- `O_CREAT`, `O_EXCL`, `O_TRUNC` and `O_APPEND` -/
def oCreat (flags : Nat) : Bool := flags.testBit 2
def oExcl (flags : Nat) : Bool := flags.testBit 3
def oTrunc (flags : Nat) : Bool := flags.testBit 4
def oAppend (flags : Nat) : Bool := flags.testBit 5

/-- `open_flags & O_ACCMODE`: readable and writable. -/
def oAccmode (flags : Nat) : Option (Bool × Bool) :=
  match flags % 4 with
  | 0 => some (true, false)
  | 1 => some (false, true)
  | 2 => some (true, true)
  | _ => none

/-! ## The descriptor table -/

/-- `fd_array_alloc(NO_FD, …)`: the first free slot. -/
def fdArrayAlloc (pid : Nat) : FileM Nat := do
  let s ← Proc.get
  match (List.range filesStructNentry).find? fun fd => !s.files.any (File.at pid fd) with
  | some fd => pure fd
  | none    => Proc.fail (-eMaxOpen)

def fd2file (pid fd : Nat) : FileM File := do
  let s ← Proc.get
  match s.files.find? (File.at pid fd) with
  | some file => pure file
  | none      => Proc.fail (-eInval)

def setPos (pid fd : Nat) (pos : Int) : FileM Unit :=
  Proc.modify fun s => { s with files := s.files.map fun f => if f.at pid fd then { f with pos := pos } else f }

/-! ## The calls -/

/-- `inode_open_dec`: the last close writes the inode back; a failure is only reported. -/
def inodeOpenDec : FileM Unit := do
  let s ← Proc.get
  if s.files.length = 0 then do
    let _ ← Proc.attempt (onCtx sfsFsync)
  else pure ()

/-- `vfs_open` of a path that exists. -/
def vfsOpen (flags : Nat) (canWrite : Bool) : FileM Unit :=
  if oTrunc flags = true ∧ canWrite = false then Proc.fail (-eInval)
  else if oExcl flags = true ∧ oCreat flags = true then Proc.fail (-eExists)
  else if oTrunc flags = true ∨ oCreat flags = true then Proc.onErr (onCtx (sfsTruncfile 0)) inodeOpenDec
  else pure ()

def fileOpen (pid flags : Nat) : FileM Nat :=
  match oAccmode flags with
  | none => Proc.fail (-eInval)
  | some (readable, writable) => do
    let fd ← fdArrayAlloc pid
    vfsOpen flags writable
    let s ← Proc.get
    let pos := if oAppend flags = true then (s.ctx.sin.din.size : Int) else 0
    Proc.put { s with files := { pid := pid, fd := fd, readable := readable, writable := writable, pos := pos } :: s.files }
    pure fd

def fileClose (pid fd : Nat) : FileM Unit := do
  let _ ← fd2file pid fd
  Proc.modify fun s => { s with files := s.files.filter fun f => !f.at pid fd }
  inodeOpenDec

/-- `file_read` and `file_write`, through `sfs_io`. -/
def fileIo (pid fd : Nat) (buf : Bytes) (len : Nat) (write : Bool) : FileM IoResult := do
  let file ← fd2file pid fd
  if (if write = true then file.writable else file.readable) = false then Proc.fail (-eInval)
  else do
    let r ← onCtx (sfsIoNolock buf file.pos len write)
    setPos pid fd (file.pos + r.alen)
    pure r

def fileRead (pid fd : Nat) (buf : Bytes) (len : Nat) : FileM IoResult := fileIo pid fd buf len false

def fileWrite (pid fd : Nat) (buf : Bytes) (len : Nat) : FileM IoResult := fileIo pid fd buf len true

/-- The position a `file_seek` asks for (`LSEEK_SET`, `LSEEK_CUR`, `LSEEK_END`), an `off_t`. -/
def seekPos (file : File) (size : Nat) (pos : Int) : Nat → Option Int
  | 0 => some pos
  | 1 => some (Int.bmod (pos + file.pos) (2 ^ 64))
  | 2 => some (Int.bmod (pos + size) (2 ^ 64))
  | _ => none

def fileSeek (pid fd : Nat) (pos : Int) (whence : Nat) : FileM Unit := do
  let file ← fd2file pid fd
  let s ← Proc.get
  match seekPos file s.ctx.sin.din.size pos whence with
  | none     => Proc.fail (-eInval)
  | some pos => do
    onCtx (sfsTryseek pos)
    setPos pid fd pos

/-! ## Directories -/

/-- `struct dirent` -/
structure Dirent where
  offset : Int
  name : Bytes

/-- Its return value, and what becomes of the `struct dirent`. -/
def fileGetdirentry (pid fd : Nat) (entry : Option Bytes) (direntp : Dirent) : FileM (Int × Dirent) := do
  let _ ← fd2file pid fd
  let s ← Proc.get
  Proc.check .vopGetdirentry (s.ctx.sin.din.type = sfsTypeDir)
  let (ret, iob) ← onCtx (sfsGetdirentry entry (iobufInit (direntp.name, 0) (sfsMaxFnameLen + 1) direntp.offset))
  if ret = 0 then pure (ret, { offset := Int.bmod (direntp.offset + iob.used) (2 ^ 64), name := iob.ioBase.1 })
  else pure (ret, { direntp with name := iob.ioBase.1 })

end Ucore
