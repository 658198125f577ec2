import Ucore.Fs.Sfs.SfsInode

/-!
# `Fs.Sfs.SfsFs` — `kern/fs/sfs/sfs_fs.c`, mounting

`sfs_do_mount` reads the superblock and the free map straight from the device and counts the free blocks
once more. Its allocations are numbered in the order of the code; `kmalloc i` says whether the `i`-th one
succeeds. On a failure the memory is given back and the code returned.
-/

namespace Ucore

/-- `sfs_freemap_bits`, a `uint32_t` -/
def sfsFreemapBits (super : SfsSuper) : Nat := roundupDiv super.blocks sfsBlkbits * sfsBlkbits % 2 ^ 32

/-- The words that the bytes of `bitmap_getdata` make. -/
def Bitmap.setdata (b : Bitmap) (data : Bytes) : Bitmap :=
  { b with map := fun i => BitVec.ofNat 32 (getLe data (4 * i) 4) }

def sfsInitRead (blkno : Nat) (buf : Bytes) (d : Nat) : DevM Bytes := dopIo buf d (blkno * sfsBlksize % 2 ^ 32) false

/-- The loop of `sfs_init_freemap`. -/
def sfsInitFreemapLoop (data : Bytes) (d blkno : Nat) : Nat → DevM Bytes
  | 0         => pure data
  | nblks + 1 => do
    let data ← sfsInitRead blkno data d
    sfsInitFreemapLoop data (d + sfsBlksize) (blkno + 1) nblks

def sfsInitFreemap (freemap : Bitmap) (blkno nblks : Nat) : DevM Bitmap := do
  Proc.check .initFreemap (4 * freemap.nwords = nblks * sfsBlksize)
  let data ← sfsInitFreemapLoop (bitmapGetdata freemap) 0 blkno nblks
  pure (freemap.setdata data)

/-- `for (i = 0; i < n; i ++) if (bitmap_test(freemap, i)) unused_blocks ++;` -/
def mountUnused (freemap : Bitmap) : Nat → Nat
  | 0     => 0
  | i + 1 =>
    let unused := mountUnused freemap i
    if freemap.map (i / 32) &&& Bitmap.mask (i % 32) ≠ 0#32 then unused + 1 else unused

/-- The checks and the free map, once the superblock is in `sfs_buffer`. -/
def mountFreemap (kmalloc : Nat → Bool) (sfsBuffer : Bytes) : DevM SfsFs := do
  let super := SfsSuper.load sfsBuffer
  let dev ← Proc.get
  if super.magic ≠ sfsMagic then Proc.fail (-eInval)
  else if dev.dBlocks < super.blocks then Proc.fail (-eInval)
  else if kmalloc 2 = false then Proc.fail (-eNoMem)
  else do
    let super := { super with info := Function.update super.info 31 0 }
    let nbits := sfsFreemapBits super
    Proc.check .bitmapCreate (nbits ≠ 0)
    if kmalloc 3 = false then Proc.fail (-eNoMem)
    else do
      let freemap ← sfsInitFreemap (bitmapCreate nbits) sfsBlknFreemap (sfsFreemapBlocks super)
      Proc.check .mountUnused (mountUnused freemap nbits = super.unusedBlocks)
      let dev ← Proc.get
      pure { super := super, dev := dev, freemap := freemap, superDirty := false, sfsBuffer := sfsBuffer }

/-- `buffer` is what `kmalloc` returns for `sfs_buffer`. -/
def sfsDoMount (kmalloc : Nat → Bool) (buffer : Bytes) : DevM SfsFs :=
  if kmalloc 0 = false ∨ kmalloc 1 = false then Proc.fail (-eNoMem)
  else do
    let sfsBuffer ← sfsInitRead sfsBlknSuper buffer 0
    mountFreemap kmalloc sfsBuffer

end Ucore
