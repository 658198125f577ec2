import Ucore.Fs.Iobuf

/-!
# `Fs.Devs.Disk0` — `kern/fs/devs/dev_disk0.c` over `kern/driver/ide.c` and `kern/driver/ramdisk.c`

`disk0` moves whole blocks between an `iobuf` and the sectors of a ramdisk, through the buffer `disk0_buffer`. The offsets have
64 bits, the numbers of blocks and sectors 32. `disk0_sem` makes `disk0_io` one step, so the lock itself is not modelled.
-/

namespace Ucore

/-- `SECTSIZE` -/
def sectsize : Nat := 512
/-- `MAX_NSECS` -/
def maxNsecs : Nat := 128
/-- `MAX_DISK_NSECS` -/
def maxDiskNsecs : Nat := 0x10000000

/-- `DISK0_BLKSIZE` -/
def disk0Blksize : Nat := 4096
/-- `DISK0_BUFSIZE` -/
def disk0Bufsize : Nat := 4 * disk0Blksize
/-- `DISK0_BLK_NSECT` -/
def disk0BlkNsect : Nat := disk0Blksize / sectsize

/-- `struct ide_device`, a ramdisk: its sectors, an `unsigned int`, and the memory from `iobase` on. -/
structure IdeDevice where
  size : Nat
  image : Bytes
  size_lt : size < 2 ^ 32

/-- `ide_devices[DISK0_DEV_NO]` and `disk0_buffer` -/
structure Disk0 where
  ide : IdeDevice
  disk0Buffer : Bytes

/-- `d_blocks`, as `disk0_device_init` sets it -/
def Disk0.dBlocks (d : Disk0) : Nat := d.ide.size / disk0BlkNsect

abbrev Disk0M (α : Type) := Proc SfsPanic Int Disk0 α

/-- The conversion to `uint32_t`. -/
def toUint32 (x : Int) : Nat := (x % 2 ^ 32).toNat

/-! ## `ramdisk.c` and `ide.c` -/

/-- `MIN(nsecs, dev->size - secno)`, in `size_t` -/
def ramdiskNsecs (dev : IdeDevice) (secno nsecs : Nat) : Nat := min nsecs ((dev.size + 2 ^ 64 - secno) % 2 ^ 64)

def ramdiskRead (dev : IdeDevice) (secno : Nat) (dst : Bytes) (nsecs : Nat) : Bytes :=
  memcpy dst 0 dev.image (secno * sectsize) (ramdiskNsecs dev secno nsecs * sectsize)

def ramdiskWrite (dev : IdeDevice) (secno : Nat) (src : Bytes) (nsecs : Nat) : IdeDevice :=
  { dev with image := memcpy dev.image (secno * sectsize) src 0 (ramdiskNsecs dev secno nsecs * sectsize) }

def ideReadSecs (secno : Nat) (dst : Bytes) (nsecs : Nat) : Disk0M Bytes := do
  Proc.check .ideSecs (nsecs ≤ maxNsecs)
  Proc.check .ideSecs (secno < maxDiskNsecs ∧ secno + nsecs ≤ maxDiskNsecs)
  let d ← Proc.get
  pure (ramdiskRead d.ide secno dst nsecs)

def ideWriteSecs (secno : Nat) (src : Bytes) (nsecs : Nat) : Disk0M Unit := do
  Proc.check .ideSecs (nsecs ≤ maxNsecs)
  Proc.check .ideSecs (secno < maxDiskNsecs ∧ secno + nsecs ≤ maxDiskNsecs)
  Proc.modify fun d => { d with ide := ramdiskWrite d.ide secno src nsecs }

/-! ## `dev_disk0.c` -/

def setDisk0Buffer (x : Bytes) : Disk0M Unit := Proc.modify fun d => { d with disk0Buffer := x }

/-- The reads and writes of a ramdisk return 0, so there is no panic. -/
def disk0ReadBlksNolock (blkno nblks : Nat) : Disk0M Unit := do
  let d ← Proc.get
  let x ← ideReadSecs (blkno * disk0BlkNsect % 2 ^ 32) d.disk0Buffer (nblks * disk0BlkNsect % 2 ^ 32)
  setDisk0Buffer x

def disk0WriteBlksNolock (blkno nblks : Nat) : Disk0M Unit := do
  let d ← Proc.get
  ideWriteSecs (blkno * disk0BlkNsect % 2 ^ 32) d.disk0Buffer (nblks * disk0BlkNsect % 2 ^ 32)

/-- One round of the loop of `disk0_io`, which returns the `iobuf` and `copied`. -/
def disk0IoRound (write : Bool) (blkno : Nat) (iob : Iobuf) (resid : Nat) : Disk0M (Iobuf × Nat) := do
  if write = true then do
    let d ← Proc.get
    let (_, iob, x, copied) ← iobufMove iob d.disk0Buffer 0 disk0Bufsize false
    setDisk0Buffer x
    Proc.check .disk0Copied (copied ≠ 0 ∧ copied ≤ resid ∧ copied % disk0Blksize = 0)
    disk0WriteBlksNolock blkno (toUint32 (copied / disk0Blksize : Nat))
    pure (iob, copied)
  else do
    let alen := min disk0Bufsize resid
    disk0ReadBlksNolock blkno (toUint32 (alen / disk0Blksize : Nat))
    let d ← Proc.get
    let (_, iob, x, copied) ← iobufMove iob d.disk0Buffer 0 alen true
    setDisk0Buffer x
    Proc.check .disk0Copied (copied = alen ∧ copied % disk0Blksize = 0)
    pure (iob, copied)

/-- The loop of `disk0_io`, for as many rounds as there can be. -/
def disk0IoLoop (write : Bool) : Nat → Nat → Iobuf → Nat → Disk0M Iobuf
  | 0, _, iob, resid              => if resid = 0 then pure iob else Proc.stop .loops
  | rounds + 1, blkno, iob, resid =>
    if resid = 0 then pure iob
    else do
      let (iob, copied) ← disk0IoRound write blkno iob resid
      disk0IoLoop write rounds ((blkno + toUint32 (copied / disk0Blksize : Nat)) % 2 ^ 32) iob (resid - copied)

/-- Returns its code, and the `iobuf` afterwards. -/
def disk0Io (iob : Iobuf) (write : Bool) : Disk0M (Int × Iobuf) := do
  let d ← Proc.get
  let blkno := toUint32 (iob.ioOffset.tdiv disk0Blksize)
  let nblks := toUint32 (iob.ioResid / disk0Blksize : Nat)
  if iob.ioOffset.tmod disk0Blksize ≠ 0 ∨ iob.ioResid % disk0Blksize ≠ 0 then pure (-eInval, iob)
  else if d.dBlocks < (blkno + nblks) % 2 ^ 32 then pure (-eInval, iob)
  else if nblks = 0 then pure (0, iob)
  else do
    let iob ← disk0IoLoop write (iob.ioResid / disk0Blksize) blkno iob iob.ioResid
    pure (0, iob)

end Ucore
