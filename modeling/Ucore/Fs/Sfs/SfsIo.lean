import Ucore.Fs.Sfs.Bitmap

/-!
# `Fs.Sfs.SfsIo` — `kern/fs/sfs/sfs_io.c`, block transfers

The device holds the disk content. Whether a transfer succeeds is up to the device: `ioRet k` is what the
`k`-th call of `dop_io` returns when its block exists (0 is success), and a failed transfer leaves both
the disk and the buffer as they were. A buffer argument is a memory and a position in it; a read returns
the memory afterwards.

`io_sem` makes each of these functions one step, so the lock itself is not modelled.
-/

namespace Ucore

/-- `struct device`, with the content of its blocks and the outcome of its transfers. -/
structure Device where
  dBlocks : Nat
  blk : Nat → Bytes
  ioRet : Nat → Int
  ticks : Nat

/-- `struct sfs_fs` -/
structure SfsFs where
  super : SfsSuper
  dev : Device
  freemap : Bitmap
  superDirty : Bool
  sfsBuffer : Bytes

abbrev DevM (α : Type) := Proc SfsPanic Int Device α

abbrev SfsM (α : Type) := Proc SfsPanic Int SfsFs α

/-- `dop_io` of one block at byte `offset` of the device (`disk0_io`). -/
def dopIo (buf : Bytes) (d offset : Nat) (write : Bool) : DevM Bytes := do
  let dev ← Proc.get
  let blkno := offset / sfsBlksize
  Proc.modify fun dev => { dev with ticks := dev.ticks + 1 }
  if dev.dBlocks < blkno + 1 then Proc.fail (-eInval)
  else if dev.ioRet dev.ticks ≠ 0 then Proc.fail (dev.ioRet dev.ticks)
  else if write then do
    Proc.modify fun dev =>
      { dev with blk := Function.update dev.blk blkno (memcpy (dev.blk blkno) 0 buf d sfsBlksize) }
    pure buf
  else pure (memcpy buf d (dev.blk blkno) 0 sfsBlksize)

def onDev {α : Type} (x : DevM α) : SfsM α := Proc.zoom SfsFs.dev (fun dev s => { s with dev := dev }) x

def onFreemap {α : Type} (x : BitmapM α) : SfsM α :=
  Proc.zoom SfsFs.freemap (fun b s => { s with freemap := b }) x

/-- The byte offset of a block is computed in `uint32_t`. -/
def sfsRwblockNolock (buf : Bytes) (d blkno : Nat) (write check : Bool) : SfsM Bytes := do
  let s ← Proc.get
  Proc.check .rwblock ((blkno ≠ 0 ∨ check = false) ∧ blkno < s.super.blocks)
  onDev (dopIo buf d (blkno * sfsBlksize % 2 ^ 32) write)

def sfsRwblock (buf : Bytes) (d blkno : Nat) (write : Bool) : Nat → SfsM Bytes
  | 0         => pure buf
  | nblks + 1 => do
    let buf ← sfsRwblockNolock buf d blkno write true
    sfsRwblock buf (d + sfsBlksize) (blkno + 1) write nblks

def sfsRblock (buf : Bytes) (d blkno nblks : Nat) : SfsM Bytes := sfsRwblock buf d blkno false nblks

def sfsWblock (buf : Bytes) (d blkno nblks : Nat) : SfsM Bytes := sfsRwblock buf d blkno true nblks

def setSfsBuffer (x : Bytes) : SfsM Unit := Proc.modify fun s => { s with sfsBuffer := x }

def sfsRbuf (buf : Bytes) (d len blkno offset : Nat) : SfsM Bytes := do
  Proc.check .rbuf (offset < sfsBlksize ∧ offset + len ≤ sfsBlksize)
  let s ← Proc.get
  let x ← sfsRwblockNolock s.sfsBuffer 0 blkno false true
  setSfsBuffer x
  pure (memcpy buf d x offset len)

def sfsWbuf (buf : Bytes) (d len blkno offset : Nat) : SfsM Unit := do
  Proc.check .wbuf (offset < sfsBlksize ∧ offset + len ≤ sfsBlksize)
  let s ← Proc.get
  let x ← sfsRwblockNolock s.sfsBuffer 0 blkno false true
  let x := memcpy x offset buf d len
  setSfsBuffer x
  let _ ← sfsRwblockNolock x 0 blkno true true

def sfsSyncSuper : SfsM Unit := do
  let s ← Proc.get
  let x := s.super.store (memzero s.sfsBuffer sfsBlksize)
  setSfsBuffer x
  let _ ← sfsRwblockNolock x 0 sfsBlknSuper true false

/-- `sfs_freemap_blocks` -/
def sfsFreemapBlocks (super : SfsSuper) : Nat := roundupDiv super.blocks sfsBlkbits

def sfsSyncFreemap : SfsM Unit := do
  let s ← Proc.get
  let _ ← sfsWblock (bitmapGetdata s.freemap) 0 sfsBlknFreemap (sfsFreemapBlocks s.super)

/-- The loop of `sfs_clear_block`. -/
def sfsClearBlockLoop (x : Bytes) (blkno : Nat) : Nat → SfsM Unit
  | 0         => pure ()
  | nblks + 1 => do
    let _ ← sfsRwblockNolock x 0 blkno true true
    sfsClearBlockLoop x (blkno + 1) nblks

def sfsClearBlock (blkno nblks : Nat) : SfsM Unit := do
  let s ← Proc.get
  let x := memzero s.sfsBuffer sfsBlksize
  setSfsBuffer x
  sfsClearBlockLoop x blkno nblks

end Ucore
