import Ucore.Fs.Sfs.SfsFs
import Ucore.Fs.Sfs.Correctness.SizeBlocks

/-!
# `Fs.Sfs.Volume` — a mounted file system with all its inodes in memory

The functions of `sfs_inode.c`, `sfs_fs.c` and `vfs/inode.c` that bring inodes into memory, count the holders of each,
and drop or write back what is there. A `struct inode *` is the number of an inode in memory that somebody holds.
`lock_sfs_fs` and the lock of an inode make each of these functions one step. `open_count` belongs to the layer above.
-/

namespace Ucore.Volume

/-- What stops the machine. -/
inductive Panic where
  | sfs (p : SfsPanic)   -- a function on one inode, or on the blocks
  | noInode              -- a pointer to an inode that nobody holds
  | vop                  -- `__vop_op`: the operation is not in the table of the inode
  | refDec               -- `inode_ref_dec`: `assert(inode_ref_count(node) > 0)`
  | getRoot              -- `load sfs root failed`
  | lookupPath           -- `sfs_lookup`: `assert(*path != '\0' && *path != '/')`
  | unmount              -- `sfs_unmount`: `assert(!sfs->super_dirty)`

/-- `struct sfs_fs` with its `inode_list`, the newest inode first. -/
structure SfsVolume where
  fs : SfsFs
  inodes : List SfsInode

namespace SfsVolume

/-- The inode in memory with this number. -/
def find (v : SfsVolume) (ino : Nat) : Option SfsInode := v.inodes.find? fun sin => sin.ino = ino

/-- The inode `sin` as it is now. -/
def store (v : SfsVolume) (sin : SfsInode) : SfsVolume :=
  { v with inodes := v.inodes.map fun old => if old.ino = sin.ino then sin else old }

end SfsVolume

abbrev VolM (α : Type) := Proc Panic Int SfsVolume α

/-- A function on the blocks. -/
def onBlocks {α : Type} (x : SfsM α) : VolM α := Proc.within SfsVolume.fs (fun fs v => { v with fs := fs }) .sfs x

/-- What a pointer points to. -/
def theInode (ino : Nat) : VolM SfsInode := do
  let v ← Proc.get
  match v.find ino with
  | none     => Proc.stop .noInode
  | some sin => pure sin

/-- A function on the inode `ino`. -/
def onInode {α : Type} (ino : Nat) (x : SinM α) : VolM α := do
  let sin ← theInode ino
  Proc.within (fun v => ⟨v.fs, sin⟩) (fun c v => { v with fs := c.fs }.store c.sin) .sfs x

def modifyInode (ino : Nat) (f : SfsInode → SfsInode) : VolM Unit := do
  let sin ← theInode ino
  Proc.modify fun v => v.store (f sin)

/-- A pointer is good as long as somebody holds it. -/
def held (ino : Nat) : VolM SfsInode := do
  let sin ← theInode ino
  Proc.check .noInode (0 < sin.refCount)
  pure sin

/-- A `vop_…` of a pointer, if the table for inodes of its type has it. -/
def vop {α : Type} (type ino : Nat) (x : VolM α) : VolM α := do
  let sin ← held ino
  Proc.check .vop (sin.din.type = type)
  x

/-! ## Inodes in memory -/

/-- `hash32` of `libs/hash.c`, of 10 bits -/
def sinHashfn (ino : Nat) : Nat := ino * 0x9e370001 % 2 ^ 32 / 2 ^ 22

/-- The chain of `hash_list`. An inode enters and leaves it together with `inode_list`. -/
def sfsHashList (v : SfsVolume) (ino : Nat) : List SfsInode :=
  v.inodes.filter fun sin => sinHashfn sin.ino = sinHashfn ino

def sfsSetLinks (sin : SfsInode) : VolM Unit := Proc.modify fun v => { v with inodes := sin :: v.inodes }

def sfsRemoveLinks (ino : Nat) : VolM Unit :=
  Proc.modify fun v => { v with inodes := v.inodes.filter fun sin => sin.ino ≠ ino }

/-- `inode_ref_inc` -/
def inodeRefInc (ino : Nat) : VolM Nat := do
  let sin ← theInode ino
  modifyInode ino fun sin => { sin with refCount := sin.refCount + 1 }
  pure (sin.refCount + 1)

/-- Whether the inode is there; then it has one more holder. -/
def lookupSfsNolock (ino : Nat) : VolM Bool := do
  let v ← Proc.get
  match (sfsHashList v ino).find? fun sin => sin.ino = ino with
  | none   => pure false
  | some _ => do
    let refCount ← inodeRefInc ino
    if refCount = 1 then do
      modifyInode ino fun sin => { sin with reclaimCount := sin.reclaimCount + 1 }
      pure true
    else pure true

def sfsLoadInode (kmalloc : Nat → Bool) (ino : Nat) : VolM Nat := do
  let found ← lookupSfsNolock ino
  if found = true then pure ino
  else do
    let sin ← onBlocks (loadInodeMiss kmalloc ino)
    sfsSetLinks sin
    pure ino

/-- The end of `sfs_reclaim`: an inode without links gives its blocks back. -/
def reclaimBlocks (sin : SfsInode) : VolM Unit :=
  if sin.din.nlinks = 0 then do
    onBlocks (sfsBlockFree sin.ino)
    if sin.din.indirect ≠ 0 then onBlocks (sfsBlockFree sin.din.indirect) else pure ()
  else pure ()

/-- `vop_truncate(node, 0)` and `vop_fsync(node)` of `sfs_reclaim`, where they are due. -/
def reclaimSync (ino : Nat) : VolM Unit := do
  let sin ← theInode ino
  if sin.din.nlinks = 0 then
    if sin.din.type = sfsTypeFile then onInode ino (sfsTruncfile 0) else Proc.stop .vop
  else pure ()
  let sin ← theInode ino
  if sin.dirty = true then onInode ino sfsFsync else pure ()

def sfsReclaim (ino : Nat) : VolM Unit := do
  let sin ← theInode ino
  Proc.check (.sfs .reclaimCount) (0 < sin.reclaimCount)
  modifyInode ino fun sin => { sin with reclaimCount := sin.reclaimCount - 1 }
  if sin.reclaimCount - 1 ≠ 0 ∨ sin.refCount ≠ 0 then Proc.fail (-eBusy)
  else do
    reclaimSync ino
    let sin ← theInode ino
    sfsRemoveLinks ino
    reclaimBlocks sin

/-- `inode_ref_dec`: the last holder tries to drop the inode, and whatever comes of that is only reported. -/
def inodeRefDec (ino : Nat) : VolM Nat := do
  let sin ← theInode ino
  Proc.check .refDec (0 < sin.refCount)
  modifyInode ino fun sin => { sin with refCount := sin.refCount - 1 }
  if sin.refCount - 1 = 0 then do
    let _ ← Proc.attempt (sfsReclaim ino)
    pure 0
  else pure (sin.refCount - 1)

/-! ## Looking up -/

/-- `entry` is what `kmalloc` returns for the entry of the search. -/
def sfsLookupOnce (dir : Nat) (name : List UInt8) (entry : Option Bytes) (kmalloc : Nat → Bool) : VolM Nat := do
  let r ← onInode dir (sfsDirentSearchNolock name entry)
  match r.ino with
  | none     => Proc.fail r.ret
  | some ino => sfsLoadInode kmalloc ino

/-- `path` without its NUL. -/
def sfsLookup (node : Nat) (path : List UInt8) (entry : Option Bytes) (kmalloc : Nat → Bool) : VolM Nat := do
  Proc.check .lookupPath (path ≠ [] ∧ path.head? ≠ some 47)
  let _ ← inodeRefInc node
  let sin ← theInode node
  if sin.din.type ≠ sfsTypeDir then do
    let _ ← inodeRefDec node
    Proc.fail (-eNotDir)
  else do
    let r ← Proc.attempt (sfsLookupOnce node path entry kmalloc)
    let _ ← inodeRefDec node
    match r with
    | .error ret  => Proc.fail ret
    | .ok subnode => pure subnode

/-- `SFS_BLKN_ROOT` -/
def sfsBlknRoot : Nat := 1

def sfsGetRoot (kmalloc : Nat → Bool) : VolM Nat := do
  let r ← Proc.attempt (sfsLoadInode kmalloc sfsBlknRoot)
  match r with
  | .error _ => Proc.stop .getRoot
  | .ok node => pure node

/-! ## Writing back -/

/-- The loop of `sfs_sync`: what a `vop_fsync` returns is not looked at. -/
def syncInodes : List Nat → VolM Unit
  | []        => pure ()
  | ino :: is => do
    let _ ← Proc.attempt (onInode ino sfsFsync)
    syncInodes is

def setSuperDirty (dirty : Bool) : SfsM Unit := Proc.modify fun s => { s with superDirty := dirty }

/-- The superblock and the free map, in `sfs_sync`. -/
def syncBooks : SfsM Unit := do
  let s ← Proc.get
  if s.superDirty = true then do
    setSuperDirty false
    Proc.onErr sfsSyncSuper (setSuperDirty true)
    Proc.onErr sfsSyncFreemap (setSuperDirty true)
  else pure ()

def sfsSync : VolM Unit := do
  let v ← Proc.get
  syncInodes (v.inodes.map SfsInode.ino)
  onBlocks syncBooks

/-- The memory of the file system is given back, so no state is left to speak of when it succeeds. -/
def sfsUnmount : VolM Unit := do
  let v ← Proc.get
  if v.inodes ≠ [] then Proc.fail (-eBusy)
  else Proc.check .unmount (v.fs.superDirty = false)

/-! ## Calls -/

/-- The calls from the layer above. A file, a directory and a holder are named by a pointer. -/
inductive VolCall where
  | getRoot (kmalloc : Nat → Bool)
  | lookup (node : Nat) (path : List UInt8) (entry : Option Bytes) (kmalloc : Nat → Bool)
  | getdirentry (node : Nat) (entry : Option Bytes) (iob : Iobuf)
  | file (node : Nat) (op : FileOp)
  | fsync (node : Nat)
  | refInc (node : Nat)
  | refDec (node : Nat)
  | sync

namespace VolCall

def run : VolCall → VolM Unit
  | .getRoot kmalloc                => do
    let _ ← sfsGetRoot kmalloc
  | .lookup node path entry kmalloc => vop sfsTypeDir node (do
    let _ ← sfsLookup node path entry kmalloc)
  | .getdirentry node entry iob     => vop sfsTypeDir node (do
    let _ ← onInode node (sfsGetdirentry entry iob))
  | .file node op                   => vop sfsTypeFile node (onInode node op.run)
  | .fsync node                     => do
    let _ ← held node
    onInode node sfsFsync
  | .refInc node                    => do
    let _ ← held node
    let _ ← inodeRefInc node
  | .refDec node                    => do
    let _ ← inodeRefDec node
  | .sync                           => sfsSync

/-- Lengths are of type `size_t`, and an operation on a file is one of its own. -/
def Given : VolCall → Prop
  | .file _ (.read _ _ len)  => len < 2 ^ 64
  | .file _ (.write _ _ len) => len < 2 ^ 64
  | .file _ (.other _)       => False
  | _                        => True

/-- The call returns, with or without an error, and leaves `v'`. -/
def Step (v : SfsVolume) (call : VolCall) (v' : SfsVolume) : Prop :=
  call.Given ∧ (call.run v = .ok () v' ∨ ∃ e, call.run v = .err e v')

/-- The file that the call may change. -/
def target : VolCall → Option Nat
  | .file node _ => some node
  | _            => none

end VolCall

end Ucore.Volume
