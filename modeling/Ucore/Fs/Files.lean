import Ucore.Fs.Vfs.Path

/-!
# `Fs.Files` — `kern/fs/file.c`, `fs.c` and `sysfile.c`, the table of descriptors

The descriptors of one process, over the inodes of `Fs.Vfs`; `file->fd` is the place in the table, which nothing changes. What
the file systems make of the bytes of a file is in `Fs.Sfs`. Here it is given by `NodeOps`: a table is the same whatever its
files hold.
-/

namespace Ucore.Vfs

/-- `FD_NONE`, `FD_INIT`, `FD_OPENED` and `FD_CLOSED` -/
inductive FdStatus where
  | none
  | init
  | opened
  | closed
deriving DecidableEq

/-- `struct file` -/
structure FdFile where
  status : FdStatus
  readable : Bool
  writable : Bool
  pos : Int
  node : Option Node
  openCount : Int

/-- `struct files_struct` -/
structure FilesStruct where
  pwd : Option Node
  fdArray : Nat → FdFile
  filesCount : Int

/-- The inodes of the kernel, and `current->filesp`. -/
structure FilesSys where
  fs : State
  filesp : FilesStruct

/-- What a read returns, how much of the buffer is used, and the bytes. -/
structure ReadAnswer where
  ret : Int
  used : Nat
  data : Bytes

/-- What a file system does when it is asked to seek or to read at a position: the answer, the files afterwards, and which of
    the next allocations and transfers fail. -/
structure NodeOps where
  tryseek : State → Node → Int → Int × (Nat → Option DiskNode) × List Bool
  read : State → Node → Int → Nat → ReadAnswer × (Nat → Option DiskNode) × List Bool

abbrev FilesM (α : Type) := Proc VfsPanic Int FilesSys α

def inVfs {α : Type} (x : VfsM α) : FilesM α := Proc.zoom FilesSys.fs (fun fs s => { s with fs := fs }) x

namespace FilesSys

def file (s : FilesSys) (fd : Nat) : FdFile := s.filesp.fdArray fd

def setFile (s : FilesSys) (fd : Nat) (f : FdFile) : FilesSys :=
  { s with filesp := { s.filesp with fdArray := Function.update s.filesp.fdArray fd f } }

end FilesSys

def getFile (fd : Nat) : FilesM FdFile := do
  let s ← Proc.get
  pure (s.file fd)

def setFile (fd : Nat) (f : FdFile) : FilesM Unit := Proc.modify fun s => s.setFile fd f

/-! ## `file.c` -/

/-- `get_fd_array` -/
def getFdArray : FilesM Unit := do
  let s ← Proc.get
  Proc.check .filesCount (0 < s.filesp.filesCount)

/-- `fd_array_alloc(NO_FD, …)` -/
def fdArrayAlloc : FilesM Nat := do
  getFdArray
  let s ← Proc.get
  match (List.range filesStructNentry).find? fun fd => (s.file fd).status = .none with
  | none    => Proc.fail (-eMaxOpen)
  | some fd => do
    Proc.check .fdArray ((s.file fd).openCount = 0)
    setFile fd { s.file fd with status := .init, node := none }
    pure fd

/-- `vfs_close(file->node)` -/
def closeNode (node : Option Node) : FilesM Unit :=
  match node with
  | none   => Proc.stop .vopNull
  | some n => inVfs (vfsClose n)

def fdArrayFree (fd : Nat) : FilesM Unit := do
  let file ← getFile fd
  Proc.check .fdArray (file.status = .init ∨ file.status = .closed)
  Proc.check .fdArray (file.openCount = 0)
  if file.status = .closed then do
    closeNode file.node
    setFile fd { file with status := .none }
  else setFile fd { file with status := .none }

def fdArrayAcquire (fd : Nat) : FilesM Unit := do
  let file ← getFile fd
  Proc.check .fdArray (file.status = .opened)
  setFile fd { file with openCount := file.openCount + 1 }

def fdArrayRelease (fd : Nat) : FilesM Unit := do
  let file ← getFile fd
  Proc.check .fdArray (file.status = .opened ∨ file.status = .closed)
  Proc.check .fdArray (0 < file.openCount)
  setFile fd { file with openCount := file.openCount - 1 }
  if file.openCount - 1 = 0 then fdArrayFree fd else pure ()

def fdArrayOpen (fd : Nat) : FilesM Unit := do
  let file ← getFile fd
  Proc.check .fdArray (file.status = .init ∧ file.node ≠ none)
  setFile fd { file with status := .opened, openCount := file.openCount + 1 }

def fdArrayClose (fd : Nat) : FilesM Unit := do
  let file ← getFile fd
  Proc.check .fdArray (file.status = .opened)
  Proc.check .fdArray (0 < file.openCount)
  setFile fd { file with status := .closed, openCount := file.openCount - 1 }
  if file.openCount - 1 = 0 then fdArrayFree fd else pure ()

def fd2file (fd : Nat) : FilesM FdFile :=
  if fd < filesStructNentry then do
    getFdArray
    let file ← getFile fd
    if file.status = .opened then pure file else Proc.fail (-eInval)
  else Proc.fail (-eInval)

def fileTestfd (fd : Nat) (readable writable : Bool) : FilesM Bool := do
  let file ← Proc.attempt (fd2file fd)
  match file with
  | .error _ => pure false
  | .ok file =>
    if readable = true ∧ file.readable = false then pure false
    else if writable = true ∧ file.writable = false then pure false
    else pure true

/-- `stat->st_size` of `vop_fstat`. It is asked for `O_APPEND` only, which `dev_open` refuses. -/
def vopFstatSize (n : Node) : VfsM Nat := do
  vop sfsNode n
  let s ← Proc.get
  match n with
  | .dev _   => Proc.stop .vopNull
  | .sfs ino => pure ((s.disk ino).elim 0 DiskNode.size)

/-- `file->pos` of a file that is being opened -/
def openPos (node : Node) (fd flags : Nat) : FilesM Int :=
  if oAppend flags = true then do
    let size ← Proc.onErr (inVfs (vopFstatSize node)) (do
      inVfs (vfsClose node)
      fdArrayFree fd)
    pure size
  else pure 0

def fileOpen (path : List UInt8) (flags : Nat) : FilesM Nat :=
  match oAccmode flags with
  | none                      => Proc.fail (-eInval)
  | some (readable, writable) => do
    let fd ← fdArrayAlloc
    let s ← Proc.get
    let node ← Proc.onErr (inVfs (vfsOpen s.filesp.pwd path flags)) (fdArrayFree fd)
    let pos ← openPos node fd flags
    let file ← getFile fd
    setFile fd { file with readable := readable, writable := writable, pos := pos, node := some node }
    fdArrayOpen fd
    pure fd

/-- Directories have no `vop_read` and no `vop_tryseek`. -/
def notDir (s : State) (n : Node) : Bool := !s.isDir n

/-- An operation on `file->node` -/
def vopNode {α : Type} (node : Option Node) (op : State → Node → α × (Nat → Option DiskNode) × List Bool) : FilesM α :=
  match node with
  | none   => Proc.stop .vopNull
  | some n => do
    inVfs (vop notDir n)
    let s ← Proc.get
    let (a, disk, faults) := op s.fs n
    Proc.put { s with fs := { s.fs with disk := disk, faults := faults } }
    pure a

/-- `file->pos += copied` of a file that is still open -/
def advance (fd copied : Nat) : FilesM Unit := do
  let file ← getFile fd
  if file.status = .opened then setFile fd { file with pos := file.pos + copied } else pure ()

/-- Its return value and `*copied_store`, with the bytes. -/
def fileRead (ops : NodeOps) (fd len : Nat) : FilesM ReadAnswer := do
  let file ← Proc.attempt (fd2file fd)
  match file with
  | .error e => pure { ret := e, used := 0, data := fun _ => 0 }
  | .ok file =>
    if file.readable = false then pure { ret := -eInval, used := 0, data := fun _ => 0 }
    else do
      fdArrayAcquire fd
      let r ← vopNode file.node fun s n => ops.read s n file.pos len
      advance fd r.used
      fdArrayRelease fd
      pure r

/-- `file->pos = pos` after `vop_tryseek` -/
def seekTo (fd : Nat) (ret pos : Int) : FilesM Unit := do
  let file ← getFile fd
  if ret = 0 then setFile fd { file with pos := pos } else pure ()

/-- `file_seek(fd, pos, LSEEK_SET)` -/
def fileSeek (ops : NodeOps) (fd : Nat) (pos : Int) : FilesM Unit := do
  let file ← fd2file fd
  fdArrayAcquire fd
  let ret ← vopNode file.node fun s n => ops.tryseek s n pos
  seekTo fd ret pos
  fdArrayRelease fd
  if ret = 0 then pure () else Proc.fail ret

/-! ## `fs.c` -/

/-- `files_closeall` from the slot `fd` on -/
def filesCloseallFrom : Nat → Nat → FilesM Unit
  | 0, _      => pure ()
  | n + 1, fd => do
    let file ← getFile fd
    if file.status = .opened then do
      fdArrayClose fd
      filesCloseallFrom n (fd + 1)
    else filesCloseallFrom n (fd + 1)

/-- skip the stdin & stdout -/
def filesCloseall : FilesM Unit := do
  getFdArray
  filesCloseallFrom (filesStructNentry - 2) 2

/-! ## `sysfile.c` -/

/-- `IOBUF_SIZE` -/
def iobufSize : Nat := 4096

/-- The loop of `sysfile_read`, with what has been copied so far. The destination is in the kernel, and there is no `mm`, so
    that `copy_to_user` copies. -/
def sysfileReadLoop (ops : NodeOps) (fd : Nat) : Nat → Nat → Nat → Bytes → FilesM ReadAnswer
  | 0, _, _, _                    => Proc.stop .loops
  | fuel + 1, len, copied, base =>
    if len ≠ 0 then do
      let r ← fileRead ops fd (min iobufSize len)
      Proc.check .sysfileRead (r.used ≤ len)
      let base := memcpy base copied r.data 0 r.used
      if r.ret ≠ 0 ∨ r.used = 0 then pure { ret := r.ret, used := copied + r.used, data := base }
      else sysfileReadLoop ops fd fuel (len - r.used) (copied + r.used) base
    else pure { ret := 0, used := copied, data := base }

/-- A count of bytes that have been copied goes before an error. -/
def sysfileRead (ops : NodeOps) (fd len : Nat) : FilesM ReadAnswer :=
  if len = 0 then pure { ret := 0, used := 0, data := fun _ => 0 }
  else do
    let ok ← fileTestfd fd true false
    if ok = false then Proc.fail (-eInval)
    else do
      inVfs kmalloc
      let r ← sysfileReadLoop ops fd (len + 1) len 0 (fun _ => 0)
      pure { r with ret := if r.used ≠ 0 then r.used else r.ret }

end Ucore.Vfs
