import Ucore.Fs.Vfs.Inode

/-!
# `Fs.Vfs.Path` — `vfslookup.c`, `vfspath.c`, `vfsfile.c` and `vfs.c`

Paths, from the string to the inode. A path is the content of its buffer up to the NUL; `get_device` puts a NUL in place of
the colon behind a device name, so that `vfs_lookup_parent` sees only the name when it is called on the same buffer.
-/

namespace Ucore.Vfs

/-- `while (*(++ path) == '/');` -/
def skipSlashes (path : List UInt8) : List UInt8 := path.dropWhile (· = slash)

/-- Where a path starts, with the rest of it. -/
inductive Start where
  | curdir (sub : List UInt8)                -- `path`
  | device (name sub : List UInt8)           -- `device:path`
  | bootfs (sub : List UInt8)                -- `/path`
  | curfs (sub : List UInt8)                 -- `:path`
deriving DecidableEq

/-- What comes before the first `':'` or `'/'`. -/
def devicePart (path : List UInt8) : List UInt8 := path.takeWhile fun c => c ≠ colon ∧ c ≠ slash

/-- `get_device`, as far as it looks at the string only. -/
def splitDevice (path : List UInt8) : Start :=
  match path.drop (devicePart path).length with
  | []        => .curdir path
  | c :: rest =>
    if c = slash then
      if devicePart path = [] then .bootfs (skipSlashes rest) else .curdir path
    else if devicePart path = [] then .curfs (skipSlashes rest)
    else .device (devicePart path) (skipSlashes rest)

/-- What `get_device` leaves in the buffer. -/
def cutPath (path : List UInt8) : List UInt8 :=
  match splitDevice path with
  | .device name _ => name
  | _              => path

/-! ## Where to start -/

/-- `cwd` is `current->filesp->pwd`. -/
def vfsGetCurdir (cwd : Option Node) : VfsM Node :=
  match cwd with
  | none   => Proc.fail (-eNoEnt)
  | some n => do
    vopRefInc n
    pure n

def vfsGetBootfs : VfsM Node := do
  let s ← Proc.get
  match s.bootfs with
  | none   => Proc.fail (-eNoEnt)
  | some n => do
    vopRefInc n
    pure n

/-- `sfs_get_root`, which stops when the root cannot be loaded. -/
def sfsGetRoot : VfsM Node := do
  let r ← Proc.attempt (sfsLoadInode sfsBlknRoot)
  match r with
  | .error _ => Proc.stop .loadRoot
  | .ok n    => pure n

def vfsGetRoot (devname : List UInt8) : VfsM Node := do
  let s ← Proc.get
  match s.devs.findIdx? fun v => v.devname = devname with
  | none   => Proc.fail (-eNoDev)
  | some i =>
    match s.devs[i]? with
    | none   => Proc.fail (-eNoDev)
    | some v =>
      if v.mounted = true then sfsGetRoot
      else if v.mountable = false then do
        vopRefInc (.dev i)
        pure (.dev i)
      else Proc.fail (-eNaDev)

/-- The node to start from, and the rest of the path. -/
def getDevice (cwd : Option Node) (path : List UInt8) : VfsM (Node × List UInt8) :=
  match splitDevice path with
  | .curdir sub      => do
    let n ← vfsGetCurdir cwd
    pure (n, sub)
  | .device name sub => do
    let n ← vfsGetRoot name
    pure (n, sub)
  | .bootfs sub      => do
    let n ← vfsGetBootfs
    pure (n, sub)
  | .curfs sub       => do
    let n ← vfsGetCurdir cwd
    let s ← Proc.get
    Proc.check .curdirFs (sfsNode s n = true)
    let root ← sfsGetRoot
    vopRefDec n
    pure (root, sub)

/-! ## `vfs_lookup` and `vfs_open` -/

def vfsLookup (cwd : Option Node) (path : List UInt8) : VfsM Node := do
  let (n, sub) ← getDevice cwd path
  if sub ≠ [] then do
    let r ← Proc.attempt (vopLookup n sub)
    vopRefDec n
    match r with
    | .error e => Proc.fail e
    | .ok n    => pure n
  else pure n

def vfsLookupParent (cwd : Option Node) (path : List UInt8) : VfsM (Node × List UInt8) := getDevice cwd path

/-- `vfs_open` of a node that is there. -/
def openNode (n : Node) (flags : Nat) : VfsM Node := do
  Proc.onErr (vopOpen n flags) (vopRefDec n)
  vopOpenInc n
  if oTrunc flags = true ∨ oCreat flags = true then do
    Proc.onErr (vopTruncate n) (do
      vopOpenDec n
      vopRefDec n)
    pure n
  else pure n

/-- No inode has a `vop_create`. With `O_EXCL` the reference to the node that is there is not given back. -/
def vfsOpen (cwd : Option Node) (path : List UInt8) (flags : Nat) : VfsM Node :=
  match oAccmode flags with
  | none               => Proc.fail (-eInval)
  | some (_, canWrite) =>
    if oTrunc flags = true ∧ canWrite = false then Proc.fail (-eInval)
    else do
      let r ← Proc.attempt (vfsLookup cwd path)
      match r with
      | .error e =>
        if e = -16 ∧ oCreat flags = true then do
          let _ ← vfsLookupParent cwd (cutPath path)
          Proc.stop .vopNull
        else Proc.fail e
      | .ok n    =>
        if oExcl flags = true ∧ oCreat flags = true then Proc.fail (-eExists)
        else openNode n flags

def vfsClose (n : Node) : VfsM Unit := do
  vopOpenDec n
  vopRefDec n

/-! ## The working directory -/

/-- `vfs_set_curdir`: the new `pwd` of a process whose `pwd` is `cwd`. -/
def vfsSetCurdir (cwd : Option Node) (dir : Node) : VfsM (Option Node) :=
  if cwd ≠ some dir then do
    vop anyNode dir          -- `vop_gettype`
    let s ← Proc.get
    if s.isDir dir = false then Proc.fail (-eNotDir)
    else do
      vopRefInc dir
      match cwd with
      | none   => pure (some dir)
      | some n => do
        vopRefDec n
        pure (some dir)
  else pure cwd

def vfsChdir (cwd : Option Node) (path : List UInt8) : VfsM (Option Node) := do
  let n ← vfsLookup cwd path
  let r ← Proc.attempt (vfsSetCurdir cwd n)
  vopRefDec n
  match r with
  | .error e => Proc.fail e
  | .ok pwd  => pure pwd

/-- `sfs_dirent_findino_nolock` -/
def State.findIno (s : State) (dir ino : Nat) : Option (List UInt8) := do
  let d ← s.disk dir
  let e ← d.entries.find? fun e => e.2 = ino
  pure e.1

/-- The loop of `sfs_namefile`: `acc` is what has been written from `ptr` on, and `resid` the room before it. Every turn
    takes at least one byte, so it ends after `resid` turns. -/
def sfsNamefileLoop : Nat → Nat → Nat → List UInt8 → VfsM (List UInt8)
  | 0, _, _, _                  => Proc.fail (-eNoMem)
  | fuel + 1, ino, resid, acc => do
    let r ← Proc.attempt (sfsLookupOnce ino [0x2e, 0x2e])
    match r with
    | .error e           => do
      vopRefDec (.sfs ino)
      Proc.fail e
    | .ok (.dev _)       => Proc.stop .namefileParent
    | .ok (.sfs parent)  => do
      vopRefDec (.sfs ino)
      if ino = parent then do
        vopRefDec (.sfs ino)
        pure acc
      else do
        let s ← Proc.get
        Proc.check .namefileParent (s.isDir (.sfs parent) = true)
        Proc.onErr transfer (vopRefDec (.sfs parent))
        match s.findIno parent ino with
        | none      => do
          vopRefDec (.sfs parent)
          Proc.fail (-eNoEnt)
        | some name =>
          if resid < name.length + 1 then do
            vopRefDec (.sfs parent)
            Proc.fail (-eNoMem)
          else sfsNamefileLoop fuel parent (resid - (name.length + 1)) (name ++ slash :: acc)

/-- `vop_namefile` into a buffer with `resid` bytes left: what it writes, up to the NUL. -/
def sfsNamefile (ino resid : Nat) : VfsM (List UInt8) := do
  vop State.isDir (.sfs ino)
  if resid ≤ 2 then Proc.fail (-eNoMem)
  else do
    kmalloc
    vopRefInc (.sfs ino)
    let names ← sfsNamefileLoop (resid - 1) ino (resid - 2) []
    pure (slash :: names)

/-- `vfs_getcwd` into a buffer of `len` bytes; `vfs_get_devname` finds the device that is mounted. -/
def vfsGetcwd (cwd : Option Node) (len : Nat) : VfsM (List UInt8) := do
  let n ← vfsGetCurdir cwd
  let s ← Proc.get
  match n, s.devs.find? fun v => v.mounted with
  | .sfs ino, some v =>
    if len < v.devname.length + 1 then do
      vopRefDec n
      Proc.fail (-eNoMem)
    else do
      let r ← Proc.attempt (sfsNamefile ino (len - (v.devname.length + 1)))
      vopRefDec n
      match r with
      | .error e => Proc.fail e
      | .ok path => pure (v.devname ++ colon :: path)
  | _, _             => Proc.stop .curdirFs

end Ucore.Vfs
