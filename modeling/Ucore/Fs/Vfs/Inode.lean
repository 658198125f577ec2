import Ucore.Fs.File

/-!
# `Fs.Vfs.Inode` — `kern/fs/vfs/inode.c` and the name operations behind it

All inodes of the kernel, with what opening and naming read of them: a directory is the list of its entries, slot by
slot, and a regular file its size and the blocks it maps. The code has no operation that changes a directory. What the simple
file system does block by block is in `Fs.Sfs`.

Allocations and transfers may fail at any point: `faults` says, in their order, which of the next ones do. The kernel is
not preempted and none of these functions waits, so the locks are not modelled.
-/

namespace Ucore.Vfs

/-- `MAX_INODE_COUNT` -/
def maxInodeCount : Int := 0x10000
/-- `SFS_TYPE_LINK` -/
def sfsTypeLink : Nat := 3
/-- `SFS_BLKN_ROOT` -/
def sfsBlknRoot : Nat := 1

/-- `'/'` and `':'` -/
def slash : UInt8 := 0x2f
def colon : UInt8 := 0x3a

/-- The inode of a device, or of the mounted file system. -/
inductive Node where
  | dev (i : Nat)
  | sfs (ino : Nat)
deriving DecidableEq

/-- The assertions and panics on the way. -/
inductive VfsPanic where
  | direntSearchName   -- `sfs_dirent_search_nolock`: `assert(strlen(name) <= SFS_MAX_FNAME_LEN)`
  | lookupPath         -- `sfs_lookup`: `assert(*path != '\0' && *path != '/')`
  | vopNull            -- `__vop_op`: the operation is `NULL`
  | inodeCheck         -- `inode_check`, of the counts
  | refDec             -- `inode_ref_dec`: `assert(inode_ref_count(node) > 0)`
  | openDec            -- `inode_open_dec`: `assert(inode_open_count(node) > 0)`
  | loadInode          -- `sfs_load_inode`: no inode there
  | invalidType        -- `sfs_get_ops`
  | loadRoot           -- `sfs_get_root`
  | truncfileSame      -- `sfs_truncfile`: `assert(tblks == din->blocks)`
  | curdirFs           -- `get_device`: `assert(node->in_fs != NULL)`
  | namefileParent     -- `sfs_namefile`: `assert(ino != sin->ino && sin->din->type == SFS_TYPE_DIR)`
  | filesCount         -- `get_fd_array`
  | filesDestroy       -- `files_destroy`
  | fdArray            -- the assertions of the `fd_array` functions
  | sysfileRead        -- `sysfile_read`: `assert(len >= alen)`
  | loops              -- a loop that would not end
deriving DecidableEq

/-- A block of a file: its number, and what is in it. -/
structure FileBlock where
  ino : Nat
  data : List UInt8

/-- An inode on the disk. -/
structure DiskNode where
  type : Nat
  nlinks : Nat
  size : Nat
  blocks : List FileBlock             -- the block map; `din->blocks` is its length
  entries : List (List UInt8 × Nat)   -- names and inode numbers; 0 is an empty slot

/-- `vfs_dev_t`, with what its device answers to `d_open` -/
structure VDev where
  devname : List UInt8
  mountable : Bool
  mounted : Bool        -- `vdev->fs != NULL`
  dOpen : Nat → Int

structure State where
  disk : Nat → Option DiskNode
  devs : List VDev              -- `vdev_list`; `.dev i` is the `devnode` of the `i`-th
  refCount : Node → Int
  openCount : Node → Int
  bootfs : Option Node
  faults : List Bool

abbrev VfsM (α : Type) := Proc VfsPanic Int State α

/-- Here the code may fail with `-e`. -/
def mayFail (e : Int) : VfsM Unit := do
  let s ← Proc.get
  match s.faults with
  | []         => pure ()
  | b :: rest  => do
    Proc.put { s with faults := rest }
    if b = true then Proc.fail (-e) else pure ()

def kmalloc : VfsM Unit := mayFail eNoMem

/-- A transfer of `disk0` -/
def transfer : VfsM Unit := mayFail eInval

namespace State

def isType (s : State) (type : Nat) : Node → Bool
  | .dev _   => false
  | .sfs ino => (s.disk ino).any fun d => d.type = type

/-- `in_ops` is `sfs_node_dirops`. -/
def isDir (s : State) (n : Node) : Bool := s.isType sfsTypeDir n

/-- `in_ops` is `sfs_node_fileops`. -/
def isFile (s : State) (n : Node) : Bool := s.isType sfsTypeFile n

def addRef (s : State) (n : Node) (k : Int) : State := { s with refCount := Function.update s.refCount n (s.refCount n + k) }

def addOpen (s : State) (n : Node) (k : Int) : State :=
  { s with openCount := Function.update s.openCount n (s.openCount n + k) }

end State

/-! ## Reference counts -/

/-- `__vop_op`: the operation is there, and `inode_check` -/
def vop (has : State → Node → Bool) (n : Node) : VfsM Unit := do
  let s ← Proc.get
  Proc.check .vopNull (has s n = true)
  Proc.check .inodeCheck (s.openCount n ≤ s.refCount n ∧ 0 ≤ s.openCount n ∧ s.refCount n < maxInodeCount ∧
    s.openCount n < maxInodeCount)

/-- The operations that every inode has, and those of the simple file system. -/
def anyNode (_ : State) (_ : Node) : Bool := true
def sfsNode (_ : State) : Node → Bool
  | .dev _ => false
  | .sfs _ => true

def vopRefInc (n : Node) : VfsM Unit := Proc.modify fun s => s.addRef n 1

/-- The last reference reclaims the inode: `sfs_reclaim` frees it, or leaves it in memory with no references if writing it
    back fails. A device has no `vop_reclaim`. -/
def vopRefDec (n : Node) : VfsM Unit := do
  let s ← Proc.get
  Proc.check .refDec (0 < s.refCount n)
  Proc.modify fun s => s.addRef n (-1)
  if s.refCount n = 1 then vop sfsNode n else pure ()

def vopOpenInc (n : Node) : VfsM Unit := Proc.modify fun s => s.addOpen n 1

/-- The last close calls `vop_close`; a failure is only reported. -/
def vopOpenDec (n : Node) : VfsM Unit := do
  let s ← Proc.get
  Proc.check .openDec (0 < s.openCount n)
  Proc.modify fun s => s.addOpen n (-1)
  if s.openCount n = 1 then vop anyNode n else pure ()

/-! ## `sfs_inode.c` -/

/-- An inode that has no references may still be in memory, and then nothing can fail. -/
def sfsLoadInode (ino : Nat) : VfsM Node := do
  let s ← Proc.get
  if 0 < s.refCount (.sfs ino) then do
    vopRefInc (.sfs ino)
    pure (.sfs ino)
  else do
    kmalloc
    match s.disk ino with
    | none   => Proc.stop .loadInode
    | some d => do
      transfer
      Proc.check .loadInode (d.nlinks ≠ 0)
      kmalloc
      Proc.check .invalidType (d.type = sfsTypeDir ∨ d.type = sfsTypeFile)
      Proc.modify fun s => s.addRef (.sfs ino) 1
      pure (.sfs ino)

/-- `sfs_dirent_search_nolock`: the first entry with the name. -/
def State.find (s : State) (ino : Nat) (name : List UInt8) : Option Nat := do
  let d ← s.disk ino
  let e ← d.entries.find? fun e => e.2 ≠ 0 ∧ e.1 = name
  pure e.2

def sfsLookupOnce (ino : Nat) (name : List UInt8) : VfsM Node := do
  Proc.check .direntSearchName (name.length ≤ sfsMaxFnameLen)
  kmalloc
  transfer
  let s ← Proc.get
  match s.find ino name with
  | none   => Proc.fail (-eNoEnt)
  | some i => sfsLoadInode i

def sfsLookup (ino : Nat) (path : List UInt8) : VfsM Node := do
  Proc.check .lookupPath (path ≠ [] ∧ path.head? ≠ some slash)
  vopRefInc (.sfs ino)
  let s ← Proc.get
  if s.isDir (.sfs ino) = false then do
    vopRefDec (.sfs ino)
    Proc.fail (-eNotDir)
  else do
    let r ← Proc.attempt (sfsLookupOnce ino path)
    vopRefDec (.sfs ino)
    match r with
    | .error e => Proc.fail e
    | .ok n    => pure n

/-- `sfs_truncfile(node, 0)`. Only blocks behind the indirect block need transfers. -/
def sfsTruncLoop (ino : Nat) : Nat → VfsM Unit
  | 0     => pure ()
  | b + 1 => do
    if 12 ≤ b then transfer else pure ()
    Proc.modify fun s =>
      { s with disk := Function.update s.disk ino ((s.disk ino).map fun d => { d with blocks := d.blocks.take b }) }
    sfsTruncLoop ino b

def sfsTruncfile (ino : Nat) : VfsM Unit := do
  let s ← Proc.get
  match s.disk ino with
  | none   => pure ()
  | some d =>
    if d.size = 0 then Proc.check .truncfileSame (d.blocks.length = 0)
    else do
      sfsTruncLoop ino d.blocks.length
      Proc.modify fun s =>
        { s with disk := Function.update s.disk ino ((s.disk ino).map fun d => { d with size := 0 }) }

/-! ## The operations of an inode -/

def vopLookup (n : Node) (path : List UInt8) : VfsM Node :=
  match n with
  | .dev i => do
    vop anyNode (.dev i)
    if path ≠ [] then Proc.fail (-eNoEnt)
    else do
      vopRefInc (.dev i)
      pure (.dev i)
  | .sfs ino => do
    vop State.isDir (.sfs ino)
    sfsLookup ino path

/-- `dev_open`, `sfs_opendir` and `sfs_openfile` -/
def vopOpen (n : Node) (flags : Nat) : VfsM Unit := do
  vop anyNode n
  let s ← Proc.get
  match n with
  | .dev i   =>
    if oCreat flags ∨ oTrunc flags ∨ oExcl flags ∨ oAppend flags then Proc.fail (-eInval)
    else
      match s.devs[i]? with
      | none   => pure ()
      | some v => if v.dOpen flags ≠ 0 then Proc.fail (v.dOpen flags) else pure ()
  | .sfs ino =>
    if s.isDir (.sfs ino) = true ∧ (oAccmode flags ≠ some (true, false) ∨ oAppend flags = true) then Proc.fail (-eIsDir) else pure ()

def vopTruncate (n : Node) : VfsM Unit := do
  vop State.isFile n
  match n with
  | .dev _   => pure ()
  | .sfs ino => sfsTruncfile ino

end Ucore.Vfs
