import Ucore.Fs.Iobuf
import Ucore.Fs.Vfs.Path

/-!
# `Fs.Vfs.Namefile` — `sfs_namefile` and the buffer it writes to

`Fs.Vfs.Path` has what `sfs_namefile` answers. Here it writes the path into the memory behind an `iobuf`: name by name from the
end of the buffer to its front, while it goes up the tree, and then all of it to the place where it belongs. The inodes are
those of `Fs.Vfs.Inode`. What `kmalloc` has returned, `entry`, holds one name at a time and is not modelled.
-/

namespace Ucore.Vfs.Namefile

structure NameState where
  vfs : State
  iob : Iobuf

inductive NamePanic where
  | vfs (p : VfsPanic)
  | iob (p : SfsPanic)
deriving DecidableEq

abbrev NameM (α : Type) := Proc NamePanic Int NameState α

/-- Run a function of the file system. -/
def inVfs {α : Type} (x : VfsM α) : NameM α := Proc.within NameState.vfs (fun v s => { s with vfs := v }) NamePanic.vfs x

def modMem (f : Bytes → Bytes) : NameM Unit :=
  Proc.modify fun s => { s with iob := { s.iob with ioBase := (f s.iob.ioBase.1, s.iob.ioBase.2) } }

/-- `".."` -/
def dotdot : List UInt8 := [0x2e, 0x2e]

/-- `failed`: the reference to `node` is given back. -/
def failed {α : Type} (ino : Nat) (ret : Int) : NameM α := do
  inVfs (vopRefDec (.sfs ino))
  Proc.fail ret

/-- `memcpy(ptr, entry->name, alen - 1)`, and `ptr[alen - 1] = '/'` -/
def putName (ptr : Nat) (name : List UInt8) (mem : Bytes) : Bytes :=
  Function.update (memcpy mem ptr (fun i => name.getD i 0) 0 name.length) (ptr + name.length) slash

/-- `sfs_dirent_findino_nolock`; the result is the name in `entry`. -/
def sfsDirentFindino (dir ino : Nat) : VfsM (List UInt8) := do
  transfer
  let s ← Proc.get
  match s.findIno dir ino with
  | none      => Proc.fail (-eNoEnt)
  | some name => pure name

/-- The loop; it returns `ptr` and `resid`. Every turn takes at least one byte of the buffer, so there are no more turns than
    bytes. -/
def sfsNamefileLoop : Nat → Nat → Nat → Nat → NameM (Nat × Nat)
  | 0, _, _, _                   => Proc.stop (.vfs .loops)
  | turns + 1, ino, ptr, resid => do
    let r ← Proc.attempt (inVfs (sfsLookupOnce ino dotdot))
    match r with
    | .error ret        => failed ino ret
    | .ok (.dev _)      => Proc.stop (.vfs .namefileParent)
    | .ok (.sfs parent) => do
      inVfs (vopRefDec (.sfs ino))
      if ino = parent then do
        inVfs (vopRefDec (.sfs ino))
        pure (ptr, resid)
      else do
        let s ← Proc.get
        Proc.check (.vfs .namefileParent) (s.vfs.isDir (.sfs parent) = true)
        let r ← Proc.attempt (inVfs (sfsDirentFindino parent ino))
        match r with
        | .error ret => failed parent ret
        | .ok name   => do
          let alen := name.length + 1
          if alen > resid then failed parent (-eNoMem)
          else do
            modMem (putName (ptr - alen) name)
            sfsNamefileLoop turns parent (ptr - alen) (resid - alen)

/-- `memmove(iob->io_base + 1, ptr, alen)`, and the `'/'` and the NUL around it -/
def moveFront (base ptr alen : Nat) (mem : Bytes) : Bytes :=
  Function.update (Function.update (memcpy mem (base + 1) mem ptr alen) base slash) (base + 1 + alen) 0

/-- The end of `sfs_namefile`: `alen` bytes at `ptr` are moved to the front, and the buffer is advanced. -/
def sfsNamefileEnd (ptr alen : Nat) : NameM Unit := do
  let s ← Proc.get
  modMem (moveFront s.iob.ioBase.2 ptr alen)
  let s ← Proc.get
  let iob ← Proc.within id (fun _ s => s) NamePanic.iob (iobufSkip s.iob alen)
  Proc.modify fun s => { s with iob := iob }

def sfsNamefile (ino : Nat) : NameM Unit := do
  let s ← Proc.get
  if s.iob.ioResid ≤ 2 then Proc.fail (-eNoMem)
  else do
    inVfs kmalloc
    inVfs (vopRefInc (.sfs ino))
    let (ptr, resid) ←
      sfsNamefileLoop s.iob.ioResid ino (s.iob.ioBase.2 + s.iob.ioResid) (s.iob.ioResid - 2)
    sfsNamefileEnd ptr (s.iob.ioResid - resid - 2)

end Ucore.Vfs.Namefile
