import Ucore.Fs.Devs.Disk0
import Ucore.Fs.Sfs.SfsFs

/-!
# `Fs.Sfs.OnDisk0` — `kern/fs/sfs/sfs_io.c` over `disk0_io`

The block transfers of `SfsIo` once more, with `disk0_io` itself for `dop_io`: a block number becomes a byte offset, the offset
a block number of the device, and that a sector number. What the transfers do not use of `struct sfs_fs` is left out.
`Disk0.device` is the device that `SfsIo` and `SfsFs` see there.
-/

namespace Ucore

/-- The blocks of the disk. A transfer does not fail. -/
def Disk0.device (d : Disk0) : Device where
  dBlocks := d.dBlocks
  blk b i := if i < disk0Blksize then d.ide.image (disk0Blksize * b + i) else 0
  ioRet _ := 0
  ticks := 0

namespace OnDisk0

/-- `struct sfs_fs` -/
structure SfsFs where
  super : SfsSuper
  dev : Disk0
  sfsBuffer : Bytes

abbrev SfsM (α : Type) := Proc SfsPanic Int SfsFs α

def onDev {α : Type} (x : Disk0M α) : SfsM α := Proc.zoom SfsFs.dev (fun dev s => { s with dev := dev }) x

/-- The byte offset of a block is computed in `uint32_t`. -/
def sfsRwblockNolock (buf : Bytes) (d blkno : Nat) (write check : Bool) : SfsM Bytes := do
  let s ← Proc.get
  Proc.check .rwblock ((blkno ≠ 0 ∨ check = false) ∧ blkno < s.super.blocks)
  let (ret, iob) ← onDev (disk0Io (iobufInit (buf, d) sfsBlksize (blkno * sfsBlksize % 2 ^ 32 : Nat)) write)
  if ret ≠ 0 then Proc.fail ret else pure iob.ioBase.1

def sfsRwblock (buf : Bytes) (d blkno : Nat) (write : Bool) : Nat → SfsM Bytes
  | 0         => pure buf
  | nblks + 1 => do
    let buf ← sfsRwblockNolock buf d blkno write true
    sfsRwblock buf (d + sfsBlksize) (blkno + 1) write nblks

def sfsRblock (buf : Bytes) (d blkno nblks : Nat) : SfsM Bytes := sfsRwblock buf d blkno false nblks

def sfsWblock (buf : Bytes) (d blkno nblks : Nat) : SfsM Bytes := sfsRwblock buf d blkno true nblks

def setSfsBuffer (x : Bytes) : SfsM Unit := Proc.modify fun s => { s with sfsBuffer := x }

def sfsRbuf (buf : Bytes) (d len blkno offset : Nat) : SfsM Bytes := do
  Proc.check .rbuf (offset < sfsBlksize ∧ offset + len ≤ sfsBlksize)
  let s ← Proc.get
  let x ← sfsRwblockNolock s.sfsBuffer 0 blkno false true
  setSfsBuffer x
  pure (memcpy buf d x offset len)

def sfsWbuf (buf : Bytes) (d len blkno offset : Nat) : SfsM Unit := do
  Proc.check .wbuf (offset < sfsBlksize ∧ offset + len ≤ sfsBlksize)
  let s ← Proc.get
  let x ← sfsRwblockNolock s.sfsBuffer 0 blkno false true
  let x := memcpy x offset buf d len
  setSfsBuffer x
  let _ ← sfsRwblockNolock x 0 blkno true true

/-- The loop of `sfs_clear_block`. -/
def sfsClearBlockLoop (x : Bytes) (blkno : Nat) : Nat → SfsM Unit
  | 0         => pure ()
  | nblks + 1 => do
    let _ ← sfsRwblockNolock x 0 blkno true true
    sfsClearBlockLoop x (blkno + 1) nblks

/-- Without blocks to clear, the code that it returns is not set. -/
def sfsClearBlock (blkno nblks : Nat) : SfsM Unit := do
  let s ← Proc.get
  let x := memzero s.sfsBuffer sfsBlksize
  setSfsBuffer x
  sfsClearBlockLoop x blkno nblks

end OnDisk0

end Ucore
