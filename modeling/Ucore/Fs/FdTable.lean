import Ucore.Fs.File
import Ucore.Fs.Files

/-!
# `Fs.FdTable` — `kern/fs/file.c`, one table used by many processes

The processes of one `files_struct`. A call that waits for the file system in its middle is cut there: it leaves a `Call`, and
goes on from it when the file system has answered (`Act`). In between, the other processes run. What the file system answers is
up to it. `log` keeps the changes of status and the calls of `vfs_close`, the last one first.
-/

namespace Ucore.FdTable

open Vfs

/-- `file->status = new`, with the inode that the entry then has, and `vfs_close(file->node)` -/
inductive Event where
  | status (fd : Nat) (old new : FdStatus) (node : Option Node)
  | vfsClose (fd : Nat) (node : Option Node)
deriving DecidableEq

structure Table where
  file : Nat → FdFile
  filesCount : Int
  log : List Event

inductive FdPanic where
  | filesCount
  | allocCount
  | freeStatus
  | freeCount
  | acquireStatus
  | releaseStatus
  | releaseCount
  | openInit
  | closeStatus
  | closeCount
  | dupStatus
  | vopNull
deriving DecidableEq

abbrev TableM (α : Type) := Proc FdPanic Int Table α

/-- `E_BUSY` and the others are negative where they are returned. -/
inductive Op where
  | open
  | close
  | dup
  | seek
  | read
  | write
deriving DecidableEq

/-- Where the call of a process is: it has returned, or the file system has not answered yet. -/
inductive Call where
  | idle
  | done (op : Op) (ret : Except Int Int)
  | opening (fd : Nat) (readable writable append : Bool)     -- in `vfs_open`
  | stating (fd : Nat) (node : Node) (readable writable : Bool)     -- in `vop_fstat`, of `file_open`
  | dropping (fd : Nat) (node : Node) (ret : Int)     -- in `vfs_close(node)`, of `file_open`
  | transferring (write : Bool) (fd : Nat)     -- in `vop_read` or `vop_write`
  | sizing (fd : Nat) (pos : Int)     -- in `vop_fstat`, of `file_seek`
  | seeking (fd : Nat) (pos : Int)     -- in `vop_tryseek`
  | freeing (fd : Nat) (op : Op) (ret : Except Int Int)     -- in `vfs_close(file->node)`, of `fd_array_free`

/-! ## The table -/

def getFile (fd : Nat) : TableM FdFile := do
  let t ← Proc.get
  pure (t.file fd)

def setFile (fd : Nat) (f : FdFile) : TableM Unit := Proc.modify fun t => { t with file := Function.update t.file fd f }

/-- `file->status = status` -/
def setStatus (fd : Nat) (status : FdStatus) : TableM Unit := Proc.modify fun t =>
  { t with
    file := Function.update t.file fd { t.file fd with status := status }
    log := .status fd (t.file fd).status status (t.file fd).node :: t.log }

def noFd : Int := -0x9527

def testfd (fd : Int) : Bool := decide (0 ≤ fd ∧ fd < filesStructNentry)

def getFdArray : TableM Unit := do
  let t ← Proc.get
  Proc.check .filesCount (0 < t.filesCount)

/-- `found:` in `fd_array_alloc` -/
def fdArrayFound (fd : Nat) : TableM Nat := do
  let file ← getFile fd
  Proc.check .allocCount (file.openCount = 0)
  setStatus fd .init
  let file ← getFile fd
  setFile fd { file with node := none }
  pure fd

def fdArrayAlloc (fd : Int) : TableM Nat := do
  getFdArray
  let t ← Proc.get
  if fd = noFd then
    match (List.range filesStructNentry).find? fun fd => (t.file fd).status = .none with
    | none    => Proc.fail (-eMaxOpen)
    | some fd => fdArrayFound fd
  else if testfd fd = true then
    if (t.file fd.toNat).status = .none then fdArrayFound fd.toNat else Proc.fail (-eBusy)
  else Proc.fail (-eInval)

/-- Its last step comes when `vfs_close` is through. Every caller returns behind it, with `ret`. -/
def fdArrayFree (fd : Nat) (op : Op) (ret : Except Int Int) : TableM Call := do
  let file ← getFile fd
  Proc.check .freeStatus (file.status = .init ∨ file.status = .closed)
  Proc.check .freeCount (file.openCount = 0)
  if file.status = .closed then do
    Proc.modify fun t => { t with log := .vfsClose fd file.node :: t.log }
    pure (.freeing fd op ret)
  else do
    setStatus fd .none
    pure (.done op ret)

def fdArrayAcquire (fd : Nat) : TableM Unit := do
  let file ← getFile fd
  Proc.check .acquireStatus (file.status = .opened)
  setFile fd { file with openCount := file.openCount + 1 }

def fdArrayRelease (fd : Nat) (op : Op) (ret : Except Int Int) : TableM Call := do
  let file ← getFile fd
  Proc.check .releaseStatus (file.status = .opened ∨ file.status = .closed)
  Proc.check .releaseCount (0 < file.openCount)
  setFile fd { file with openCount := file.openCount - 1 }
  if file.openCount - 1 = 0 then fdArrayFree fd op ret else pure (.done op ret)

def fdArrayOpen (fd : Nat) : TableM Unit := do
  let file ← getFile fd
  Proc.check .openInit (file.status = .init ∧ file.node ≠ none)
  setStatus fd .opened
  let file ← getFile fd
  setFile fd { file with openCount := file.openCount + 1 }

def fdArrayClose (fd : Nat) (op : Op) (ret : Except Int Int) : TableM Call := do
  let file ← getFile fd
  Proc.check .closeStatus (file.status = .opened)
  Proc.check .closeCount (0 < file.openCount)
  setStatus fd .closed
  let file ← getFile fd
  setFile fd { file with openCount := file.openCount - 1 }
  if file.openCount - 1 = 0 then fdArrayFree fd op ret else pure (.done op ret)

/-- The counts of the inode are its own matter. -/
def fdArrayDup (toFd fromFd : Nat) : TableM Unit := do
  let file ← getFile toFd
  let fromFile ← getFile fromFd
  Proc.check .dupStatus (file.status = .init ∧ fromFile.status = .opened)
  Proc.check .vopNull (fromFile.node ≠ none)
  setFile toFd { file with
    pos := fromFile.pos
    readable := fromFile.readable
    writable := fromFile.writable
    node := fromFile.node }
  fdArrayOpen toFd

def fd2file (fd : Int) : TableM Nat :=
  if testfd fd = true then do
    getFdArray
    let file ← getFile fd.toNat
    if file.status = .opened then pure fd.toNat else Proc.fail (-eInval)
  else Proc.fail (-eInval)

/-- `vop_read(file->node, …)` and the others are called on an inode. -/
def vopNode (fd : Nat) : TableM Unit := do
  let file ← getFile fd
  Proc.check .vopNull (file.node ≠ none)

/-- A function that fails has returned. -/
def ended (op : Op) (m : TableM Call) : TableM Call := do
  let r ← Proc.attempt m
  match r with
  | .ok c    => pure c
  | .error e => pure (.done op (.error e))

/-- 0, or an error -/
def answer (ret : Int) : Except Int Int := if ret = 0 then .ok 0 else .error ret

/-! ## `file_open` -/

def fileOpen (flags : Nat) : TableM Call :=
  match oAccmode flags with
  | none                      => pure (.done .open (.error (-eInval)))
  | some (readable, writable) => ended .open do
    let fd ← fdArrayAlloc noFd
    pure (.opening fd readable writable (oAppend flags))

/-- `file->node = node` and what follows -/
def fileOpened (fd : Nat) (node : Node) (readable writable : Bool) : TableM Call := do
  let file ← getFile fd
  setFile fd { file with node := some node, readable := readable, writable := writable }
  fdArrayOpen fd
  pure (.done .open (.ok fd))

def setPos (fd : Nat) (pos : Int) : TableM Unit := do
  let file ← getFile fd
  setFile fd { file with pos := pos }

/-- behind `vfs_open` -/
def fileOpenNode (fd : Nat) (readable writable append : Bool) : Except Int Node → TableM Call
  | .error ret => fdArrayFree fd .open (.error ret)
  | .ok node   => do
    setPos fd 0
    if append = true then pure (.stating fd node readable writable) else fileOpened fd node readable writable

/-- behind `vop_fstat` -/
def fileOpenStat (fd : Nat) (node : Node) (readable writable : Bool) : Except Int Int → TableM Call
  | .error ret => pure (.dropping fd node ret)
  | .ok size   => do
    setPos fd size
    fileOpened fd node readable writable

/-! ## The other calls -/

def fileClose (fd : Int) : TableM Call := ended .close do
  let fd ← fd2file fd
  fdArrayClose fd .close (.ok 0)

def transferOp (write : Bool) : Op := if write = true then .write else .read

/-- `file_read` and `file_write`, up to `vop_read` or `vop_write` -/
def fileTransfer (write : Bool) (fd : Int) : TableM Call := ended (transferOp write) do
  let fd ← fd2file fd
  let file ← getFile fd
  if (if write = true then file.writable else file.readable) = false then Proc.fail (-eInval)
  else do
    fdArrayAcquire fd
    vopNode fd
    pure (.transferring write fd)

def fileRead (fd : Int) : TableM Call := fileTransfer false fd

def fileWrite (fd : Int) : TableM Call := fileTransfer true fd

/-- and behind it, with `copied` bytes of the buffer used -/
def fileTransferred (write : Bool) (fd : Nat) (ret : Int) (copied : Nat) : TableM Call := do
  let file ← getFile fd
  if file.status = .opened then setFile fd { file with pos := file.pos + copied } else pure ()
  fdArrayRelease fd (transferOp write) (answer ret)

def lseekSet : Int := 0
def lseekCur : Int := 1
def lseekEnd : Int := 2

def fileSeek (fd pos whence : Int) : TableM Call := ended .seek do
  let fd ← fd2file fd
  fdArrayAcquire fd
  let file ← getFile fd
  if whence = lseekSet then do
    vopNode fd
    pure (.seeking fd pos)
  else if whence = lseekCur then do
    vopNode fd
    pure (.seeking fd (pos + file.pos))
  else if whence = lseekEnd then do
    vopNode fd
    pure (.sizing fd pos)
  else fdArrayRelease fd .seek (.error (-eInval))

/-- behind `vop_fstat` -/
def fileSeekStat (fd : Nat) (pos : Int) : Except Int Int → TableM Call
  | .error ret => fdArrayRelease fd .seek (.error ret)
  | .ok size   => do
    vopNode fd
    pure (.seeking fd (pos + size))

/-- behind `vop_tryseek` -/
def fileSought (fd : Nat) (pos ret : Int) : TableM Call := do
  if ret = 0 then setPos fd pos else pure ()
  fdArrayRelease fd .seek (answer ret)

def fileDup (fd1 fd2 : Int) : TableM Call := ended .dup do
  let file1 ← fd2file fd1
  let file2 ← fdArrayAlloc fd2
  fdArrayDup file2 file1
  pure (.done .dup (.ok file2))

/-! ## The processes -/

inductive Act where
  | open (flags : Nat)
  | close (fd : Int)
  | dup (fd1 fd2 : Int)
  | seek (fd pos whence : Int)
  | read (fd : Int)
  | write (fd : Int)
  | opened (node : Except Int Node)
  | stated (size : Except Int Int)
  | closed
  | transferred (ret : Int) (copied : Nat)
  | sought (ret : Int)

/-- The process is in none of these functions. -/
def Call.Out : Call → Prop
  | .idle     => True
  | .done _ _ => True
  | _         => False

instance (c : Call) : Decidable c.Out :=
  match c with
  | .idle                => .isTrue trivial
  | .done _ _            => .isTrue trivial
  | .opening _ _ _ _     => .isFalse id
  | .stating _ _ _ _     => .isFalse id
  | .dropping _ _ _      => .isFalse id
  | .transferring _ _    => .isFalse id
  | .sizing _ _          => .isFalse id
  | .seeking _ _         => .isFalse id
  | .freeing _ _ _       => .isFalse id

def start : Act → Option (TableM Call)
  | .open flags          => some (fileOpen flags)
  | .close fd            => some (fileClose fd)
  | .dup fd1 fd2         => some (fileDup fd1 fd2)
  | .seek fd pos whence  => some (fileSeek fd pos whence)
  | .read fd             => some (fileRead fd)
  | .write fd            => some (fileWrite fd)
  | _                    => none

/-- What a process does next, if it can do that: begin a call, or go on with the one that it is in. -/
def code : Call → Act → Option (TableM Call)
  | .opening fd readable writable append, .opened node => some (fileOpenNode fd readable writable append node)
  | .stating fd node readable writable, .stated size   => some (fileOpenStat fd node readable writable size)
  | .dropping fd _ ret, .closed                        => some (fdArrayFree fd .open (.error ret))
  | .transferring write fd, .transferred ret copied    => some (fileTransferred write fd ret copied)
  | .sizing fd pos, .stated size                       => some (fileSeekStat fd pos size)
  | .seeking fd pos, .sought ret                       => some (fileSought fd pos ret)
  | .freeing fd op ret, .closed                        => some do
    setStatus fd .none
    pure (.done op ret)
  | .idle, a                                           => start a
  | .done _ _, a                                       => start a
  | _, _                                               => none

structure FdSys (ι : Type) where
  table : Table
  call : ι → Call

variable {ι : Type} [DecidableEq ι]

/-- Process `p` takes a step, up to the next wait. -/
def FdSys.step (s : FdSys ι) (p : ι) (a : Act) : Option (FdSys ι) :=
  match code (s.call p) a with
  | none   => none
  | some m =>
    match m s.table with
    | .ok c t  => some { table := t, call := Function.update s.call p c }
    | .err _ _ => none
    | .panic _ => none

/-- The table as `fd_array_init` leaves it, of a `files_struct` in use -/
structure FdSys.Init (s : FdSys ι) : Prop where
  status : ∀ fd, (s.table.file fd).status = .none
  openCount : ∀ fd, (s.table.file fd).openCount = 0
  filesCount : 0 < s.table.filesCount
  log : s.table.log = []
  idle : ∀ p, s.call p = .idle

end Ucore.FdTable
