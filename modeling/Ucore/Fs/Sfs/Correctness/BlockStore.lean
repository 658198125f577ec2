import Ucore.Fs.Devs.Correctness.Disk0Io
import Ucore.Fs.Sfs.Correctness.Mount
import Ucore.Fs.Sfs.OnDisk0

/-!
# `Fs.Sfs.Correctness.BlockStore` — the block transfers as an array of blocks

`BlockCall.apply` says what a call is for: the file system is an array of blocks, and a call reads some of them or changes
some of them. The transfers over `disk0_io` refine this as long as the byte offset of every block fits into 32 bits; from
block `2 ^ 20` on the offsets begin again at 0.
-/

namespace Ucore.OnDisk0

/-! ## The array -/

abbrev Blocks := Nat → Bytes

namespace Blocks

/-- `n` blocks from `blkno` on, copied to the position `d` of `buf` -/
def read (A : Blocks) (buf : Bytes) (d blkno n : Nat) : Bytes := fun i =>
  if d ≤ i ∧ i < d + sfsBlksize * n then A (blkno + (i - d) / sfsBlksize) ((i - d) % sfsBlksize) else buf i

/-- `n` blocks from `blkno` on become what is at the position `d` of `buf` -/
def write (A : Blocks) (buf : Bytes) (d blkno n : Nat) : Blocks := fun b =>
  if blkno ≤ b ∧ b < blkno + n then memcpy (A b) 0 buf (d + sfsBlksize * (b - blkno)) sfsBlksize else A b

/-- `n` blocks from `blkno` on become zero -/
def clear (A : Blocks) (blkno n : Nat) : Blocks := fun b => if blkno ≤ b ∧ b < blkno + n then memzero (A b) sfsBlksize else A b

end Blocks

/-- A call, with the memory of the caller and a position in it. -/
inductive BlockCall where
  | rblock (buf : Bytes) (d blkno nblks : Nat)
  | wblock (buf : Bytes) (d blkno nblks : Nat)
  | rbuf (buf : Bytes) (d len blkno offset : Nat)
  | wbuf (buf : Bytes) (d len blkno offset : Nat)
  | clearBlock (blkno nblks : Nat)

namespace BlockCall

/-- The block numbers are above 0 and below `blocks`, and the range is inside the block. -/
def InRange (blocks : Nat) : BlockCall → Prop
  | .rblock _ _ blkno nblks        => 0 < blkno ∧ blkno + nblks ≤ blocks
  | .wblock _ _ blkno nblks        => 0 < blkno ∧ blkno + nblks ≤ blocks
  | .rbuf _ _ len blkno offset     => 0 < blkno ∧ blkno < blocks ∧ offset < sfsBlksize ∧ offset + len ≤ sfsBlksize
  | .wbuf _ _ len blkno offset     => 0 < blkno ∧ blkno < blocks ∧ offset < sfsBlksize ∧ offset + len ≤ sfsBlksize
  | .clearBlock blkno nblks        => 0 < blkno ∧ blkno + nblks ≤ blocks

/-- What the call returns to its caller, for a read, and what it makes of the array. -/
def apply (A : Blocks) : BlockCall → Option Bytes × Blocks
  | .rblock buf d blkno nblks      => (some (A.read buf d blkno nblks), A)
  | .wblock buf d blkno nblks      => (none, A.write buf d blkno nblks)
  | .rbuf buf d len blkno offset   => (some (memcpy buf d (A blkno) offset len), A)
  | .wbuf buf d len blkno offset   => (none, Function.update A blkno (memcpy (A blkno) offset buf d len))
  | .clearBlock blkno nblks        => (none, A.clear blkno nblks)

def run : BlockCall → SfsM (Option Bytes)
  | .rblock buf d blkno nblks      => do
    let x ← sfsRblock buf d blkno nblks
    pure (some x)
  | .wblock buf d blkno nblks      => do
    let _ ← sfsWblock buf d blkno nblks
    pure none
  | .rbuf buf d len blkno offset   => do
    let x ← sfsRbuf buf d len blkno offset
    pure (some x)
  | .wbuf buf d len blkno offset   => do
    sfsWbuf buf d len blkno offset
    pure none
  | .clearBlock blkno nblks        => do
    sfsClearBlock blkno nblks
    pure none

end BlockCall

def applyCalls (A : Blocks) : List BlockCall → List (Option Bytes) × Blocks
  | []         => ([], A)
  | c :: calls =>
    let (out, A) := c.apply A
    let (outs, A) := applyCalls A calls
    (out :: outs, A)

def runCalls : List BlockCall → SfsM (List (Option Bytes))
  | []         => pure []
  | c :: calls => do
    let out ← c.run
    let outs ← runCalls calls
    pure (out :: outs)

/-- The blocks on the disk. -/
def SfsFs.blocks (s : SfsFs) : Blocks := s.dev.device.blk

/-- **The refinement**: every sequence of calls in range returns what it returns on the array, and leaves the blocks of the
file system as they then are in the array. -/
def SfsFs.Refines (s : SfsFs) : Prop :=
  ∀ calls : List BlockCall, (∀ c ∈ calls, c.InRange s.super.blocks) →
    ∃ s', runCalls calls s = .ok (applyCalls s.blocks calls).1 s' ∧
      ∀ b < s.super.blocks, s'.blocks b = (applyCalls s.blocks calls).2 b

/-- `sfs_do_mount` accepts the disk. -/
def SfsFs.Mounted (s : SfsFs) : Prop :=
  ∃ kmalloc buffer fs dev, sfsDoMount kmalloc buffer s.dev.device = .ok fs dev ∧ s.super = fs.super

/-! ## One block -/

variable {s s' : SfsFs} {A : Blocks} {buf : Bytes} {d blkno n : Nat} {write check : Bool}

/-- The byte offsets of the blocks fit into 32 bits, and the blocks into the disk. -/
structure SfsFs.Fits (s : SfsFs) : Prop where
  small : s.super.blocks ≤ 2 ^ 20
  inside : s.super.blocks ≤ s.dev.dBlocks

/-- What a transfer leaves alone. -/
structure SameFs (s s' : SfsFs) : Prop where
  super : s'.super = s.super
  size : s'.dev.ide.size = s.dev.ide.size

theorem SameFs.refl (s : SfsFs) : SameFs s s := ⟨rfl, rfl⟩

theorem SameFs.trans {s₁ s₂ s₃ : SfsFs} (h : SameFs s₁ s₂) (h' : SameFs s₂ s₃) : SameFs s₁ s₃ :=
  ⟨h'.super.trans h.super, h'.size.trans h.size⟩

theorem SameFs.fits (h : SameFs s s') (hf : s.Fits) : s'.Fits := by
  have hblocks : s'.dev.dBlocks = s.dev.dBlocks := by
    rw [Disk0.dBlocks, h.size]
    rfl
  refine ⟨?_, ?_⟩
  · rw [h.super]
    exact hf.small
  · rw [h.super, hblocks]
    exact hf.inside

/-- Copying a block to the disk changes that block of the array. -/
theorem blk_memcpy {dev dev' : Disk0}
    (himage : dev'.ide.image = memcpy dev.ide.image (disk0Blksize * blkno) buf d disk0Blksize) :
    dev'.device.blk = Function.update dev.device.blk blkno (memcpy (dev.device.blk blkno) 0 buf d disk0Blksize) := by
  funext b i
  have himage' : ∀ j, dev'.ide.image j = memcpy dev.ide.image (4096 * blkno) buf d 4096 j := fun j => congrFun himage j
  show (if i < 4096 then dev'.ide.image (4096 * b + i) else 0) = _
  by_cases hb : b = blkno
  · subst hb
    rw [Function.update_self]
    show _ = memcpy (fun i => if i < 4096 then dev.ide.image (4096 * b + i) else 0) 0 buf d 4096 i
    by_cases hi : i < 4096
    · rw [if_pos hi, himage', memcpy_in (by omega), memcpy_in (by omega)]
      congr 1
      omega
    · rw [if_neg hi, memcpy_out (by omega), if_neg hi]
  · rw [Function.update_of_ne hb]
    show _ = if i < 4096 then dev.ide.image (4096 * b + i) else 0
    by_cases hi : i < 4096
    · rw [if_pos hi, if_pos hi, himage', memcpy_out (by omega)]
    · rw [if_neg hi, if_neg hi]

/-- Copying a block from the disk is copying it from the array. -/
theorem memcpy_blk (dev : Disk0) : memcpy buf d dev.ide.image (disk0Blksize * blkno) disk0Blksize =
    memcpy buf d (dev.device.blk blkno) 0 disk0Blksize := by
  funext i
  by_cases hi : d ≤ i ∧ i < d + disk0Blksize
  · have hlt : 0 + (i - d) < disk0Blksize := by omega
    rw [memcpy_in hi, memcpy_in hi]
    show _ = if 0 + (i - d) < disk0Blksize then _ else _
    rw [if_pos hlt, Nat.zero_add]
  · rw [memcpy_out hi, memcpy_out hi]

/-- **`disk0_io` of one block.** -/
theorem disk0Io_block (write : Bool) (buf : Bytes) (d : Nat) {dev : Disk0} (hdev : blkno < dev.dBlocks) (hlim : blkno < ideBlocks) :
    ∃ iob dev', disk0Io (iobufInit (buf, d) sfsBlksize (disk0Blksize * blkno : Nat)) write dev = .ok (0, iob) dev' ∧
      dev'.ide.size = dev.ide.size ∧
      iob.ioBase.1 = (if write = true then buf else memcpy buf d (dev.device.blk blkno) 0 sfsBlksize) ∧
      dev'.device.blk = if write = true then
        Function.update dev.device.blk blkno (memcpy (dev.device.blk blkno) 0 buf d sfsBlksize) else dev.device.blk := by
  have hal : (iobufInit (buf, d) sfsBlksize (disk0Blksize * blkno : Nat)).Aligned := by
    have hresid : sfsBlksize % disk0Blksize = 0 := by decide
    refine ⟨?_, hresid⟩
    show ((4096 * blkno : Nat) : Int) % 4096 = 0
    omega
  have hin : dev.Inside (iobufInit (buf, d) sfsBlksize (disk0Blksize * blkno : Nat)) := by
    refine ⟨Int.natCast_nonneg _, ?_⟩
    show ((4096 * blkno : Nat) : Int) + (4096 : Nat) ≤ (4096 * dev.dBlocks : Nat)
    omega
  have hend : ((disk0Blksize * blkno : Nat) : Int) + (sfsBlksize : Nat) ≤ (sectsize * maxDiskNsecs : Nat) := by
    have hlim' : blkno < 0x10000000 / 8 := hlim
    show ((4096 * blkno : Nat) : Int) + (4096 : Nat) ≤ (512 * 0x10000000 : Nat)
    omega
  obtain ⟨iob, dev', hrun, hmoved⟩ := disk0Io_inside write hal hin (.inr hend)
  refine ⟨iob, dev', hrun, hmoved.size, ?_, ?_⟩
  · rw [hmoved.base]
    cases write with
    | true => rfl
    | false => exact memcpy_blk dev
  · cases write with
    | true => exact blk_memcpy hmoved.image
    | false =>
      have himage : dev'.ide.image = dev.ide.image := hmoved.image
      rw [Disk0.device, himage]
      rfl

/-- `disk0_io` is the `dop_io` of `SfsIo` on the blocks of the disk. -/
theorem dopIo_disk0 {dev : Disk0} (hdev : blkno < dev.dBlocks) (hlim : blkno < ideBlocks) :
    ∃ iob dev', disk0Io (iobufInit (buf, d) sfsBlksize (disk0Blksize * blkno : Nat)) write dev = .ok (0, iob) dev' ∧
      dopIo buf d (disk0Blksize * blkno) write dev.device = .ok iob.ioBase.1 (dev'.device.tick 1) := by
  obtain ⟨iob, dev', hrun, hsize, hbase, hblk⟩ := disk0Io_block write buf d hdev hlim
  have hdiv : disk0Blksize * blkno / sfsBlksize = blkno := Nat.mul_div_cancel_left _ (by decide)
  have hblocks : dev'.dBlocks = dev.dBlocks := by
    rw [Disk0.dBlocks, hsize]
    rfl
  have hdevice : dev'.device = { dev.device with blk := dev'.device.blk } := by
    rw [Disk0.device, hblocks]
    rfl
  refine ⟨iob, dev', hrun, ?_⟩
  have hin : ¬ dev.device.dBlocks < blkno + 1 := Nat.not_lt.mpr hdev
  have hret : ¬ dev.device.ioRet dev.device.ticks ≠ 0 := not_not_intro rfl
  rw [dopIo, Proc.get_bind, hdiv, Proc.modify_bind, if_neg hin, if_neg hret, hdevice, hblk, hbase]
  cases write with
  | true => rfl
  | false => rfl

/-- **`sfs_rwblock_nolock`** reads or writes one block of the array. -/
theorem sfsRwblockNolock_run (buf : Bytes) (d : Nat) (write : Bool) (hf : s.Fits)
    (hblk : blkno ≠ 0 ∨ check = false) (hlt : blkno < s.super.blocks) :
    ∃ s', sfsRwblockNolock buf d blkno write check s =
        .ok (if write = true then buf else memcpy buf d (s.blocks blkno) 0 sfsBlksize) s' ∧ SameFs s s' ∧
      s'.sfsBuffer = s.sfsBuffer ∧ s'.blocks = if write = true then
        Function.update s.blocks blkno (memcpy (s.blocks blkno) 0 buf d sfsBlksize) else s.blocks := by
  have hsmall := hf.small
  have hinside := hf.inside
  -- here `2 ^ 20` comes in: the offset is computed in 32 bits
  have hoff : blkno * sfsBlksize % 2 ^ 32 = disk0Blksize * blkno := by
    show blkno * 4096 % 2 ^ 32 = 4096 * blkno
    omega
  have hlim : blkno < ideBlocks := by
    show blkno < 0x10000000 / 8
    omega
  obtain ⟨iob, dev', hrun, hsize, hbase, hblks⟩ :=
    disk0Io_block write buf d (Nat.lt_of_lt_of_le hlt hinside) hlim
  have hzoom : onDev (disk0Io (iobufInit (buf, d) sfsBlksize (disk0Blksize * blkno : Nat)) write) s =
      .ok (0, iob) { s with dev := dev' } := by
    rw [onDev, Proc.zoom, hrun]
  refine ⟨{ s with dev := dev' }, ?_, ⟨rfl, hsize⟩, rfl, hblks⟩
  rw [sfsRwblockNolock, Proc.get_bind, Proc.check_bind_pos ⟨hblk, hlt⟩, hoff, Proc.bind_ok hzoom]
  simp only [ne_eq, not_true_eq_false, if_false]
  rw [hbase]
  rfl

/-! ## Several blocks -/

namespace Blocks

theorem read_zero : A.read buf d blkno 0 = buf := by
  funext i
  exact if_neg (by omega)

theorem write_zero : A.write buf d blkno 0 = A := by
  funext b
  exact if_neg (by omega)

theorem clear_zero : A.clear blkno 0 = A := by
  funext b
  exact if_neg (by omega)

/-- The first block, and those behind it. -/
theorem read_succ : A.read buf d blkno (n + 1) =
    A.read (memcpy buf d (A blkno) 0 sfsBlksize) (d + sfsBlksize) (blkno + 1) n := by
  have hsize : sfsBlksize = 4096 := rfl
  funext i
  simp only [read, hsize, Nat.mul_add_one]
  by_cases hfirst : d ≤ i ∧ i < d + 4096
  · have hin : d ≤ i ∧ i < d + (4096 * n + 4096) := ⟨by omega, by omega⟩
    have hblk : blkno + (i - d) / 4096 = blkno := by omega
    have hpos : (i - d) % 4096 = 0 + (i - d) := by omega
    rw [if_pos hin, if_neg (by omega), memcpy_in hfirst, hblk, hpos]
  · rw [memcpy_out hfirst]
    by_cases hrest : d + 4096 ≤ i ∧ i < d + 4096 + 4096 * n
    · have hin : d ≤ i ∧ i < d + (4096 * n + 4096) := ⟨by omega, by omega⟩
      have hblk : blkno + (i - d) / 4096 = blkno + 1 + (i - (d + 4096)) / 4096 := by omega
      have hpos : (i - d) % 4096 = (i - (d + 4096)) % 4096 := by omega
      rw [if_pos hrest, if_pos hin, hblk, hpos]
    · have hout : ¬ (d ≤ i ∧ i < d + (4096 * n + 4096)) := by
        rintro ⟨h1, h2⟩
        omega
      rw [if_neg hrest, if_neg hout]

theorem write_succ : A.write buf d blkno (n + 1) =
    Blocks.write (Function.update A blkno (memcpy (A blkno) 0 buf d sfsBlksize)) buf (d + sfsBlksize) (blkno + 1) n := by
  funext b
  unfold Blocks.write
  by_cases hb : b = blkno
  · subst hb
    rw [if_pos (by omega), if_neg (by omega), Function.update_self, Nat.sub_self]
    rfl
  · rw [Function.update_of_ne hb]
    by_cases hrest : blkno + 1 ≤ b ∧ b < blkno + 1 + n
    · have hpos : d + sfsBlksize * (b - blkno) = d + sfsBlksize + sfsBlksize * (b - (blkno + 1)) := by
        show d + 4096 * (b - blkno) = d + 4096 + 4096 * (b - (blkno + 1))
        omega
      rw [if_pos hrest, if_pos (by omega), hpos]
    · rw [if_neg hrest, if_neg (by omega)]

theorem clear_succ : A.clear blkno (n + 1) =
    Blocks.clear (Function.update A blkno (memzero (A blkno) sfsBlksize)) (blkno + 1) n := by
  funext b
  unfold clear
  by_cases hb : b = blkno
  · subst hb
    rw [if_pos (by omega), if_neg (by omega), Function.update_self]
  · rw [Function.update_of_ne hb]
    by_cases hrest : blkno + 1 ≤ b ∧ b < blkno + 1 + n
    · rw [if_pos hrest, if_pos (by omega)]
    · rw [if_neg hrest, if_neg (by omega)]

end Blocks

/-- The loop of `sfs_rwblock`, reading. -/
theorem sfsRblock_run (buf : Bytes) (d : Nat) (hf : s.Fits) (hpos : 0 < blkno) (hn : blkno + n ≤ s.super.blocks) :
    ∃ s', sfsRblock buf d blkno n s = .ok (s.blocks.read buf d blkno n) s' ∧ SameFs s s' ∧ s'.blocks = s.blocks := by
  unfold sfsRblock
  induction n generalizing buf d blkno s with
  | zero =>
    rw [Blocks.read_zero]
    exact ⟨s, rfl, .refl s, rfl⟩
  | succ n ih =>
    obtain ⟨s₁, hrun, hsame, -, hblocks⟩ :=
      sfsRwblockNolock_run buf d false hf (.inl (Nat.pos_iff_ne_zero.mp hpos)) (by omega)
    obtain ⟨s', hrun', hsame', hblocks'⟩ := @ih s₁ (blkno + 1)
      (memcpy buf d (s.blocks blkno) 0 sfsBlksize) (d + sfsBlksize) (hsame.fits hf) (by omega) (by rw [hsame.super]; omega)
    have hblocks₁ : s₁.blocks = s.blocks := hblocks
    refine ⟨s', ?_, hsame.trans hsame', hblocks'.trans hblocks₁⟩
    rw [sfsRwblock, Proc.bind_ok hrun, Blocks.read_succ, ← hblocks₁]
    rw [← hblocks₁] at hrun'
    exact hrun'

/-- The loop of `sfs_rwblock`, writing. -/
theorem sfsWblock_run (buf : Bytes) (d : Nat) (hf : s.Fits) (hpos : 0 < blkno) (hn : blkno + n ≤ s.super.blocks) :
    ∃ s', sfsWblock buf d blkno n s = .ok buf s' ∧ SameFs s s' ∧ s'.blocks = s.blocks.write buf d blkno n := by
  unfold sfsWblock
  induction n generalizing d blkno s with
  | zero =>
    rw [Blocks.write_zero]
    exact ⟨s, rfl, .refl s, rfl⟩
  | succ n ih =>
    obtain ⟨s₁, hrun, hsame, -, hblocks⟩ :=
      sfsRwblockNolock_run buf d true hf (.inl (Nat.pos_iff_ne_zero.mp hpos)) (by omega)
    obtain ⟨s', hrun', hsame', hblocks'⟩ := @ih s₁ (blkno + 1) (d + sfsBlksize) (hsame.fits hf) (by omega)
      (by rw [hsame.super]; omega)
    refine ⟨s', ?_, hsame.trans hsame', ?_⟩
    · rw [sfsRwblock, Proc.bind_ok hrun]
      exact hrun'
    · rw [hblocks', hblocks, Blocks.write_succ]
      rfl

/-- The loop of `sfs_clear_block`, with a buffer of zeros. -/
theorem sfsClearBlockLoop_run {x : Bytes} (hx : ∀ i < sfsBlksize, x i = 0) (hf : s.Fits) (hpos : 0 < blkno)
    (hn : blkno + n ≤ s.super.blocks) :
    ∃ s', sfsClearBlockLoop x blkno n s = .ok () s' ∧ SameFs s s' ∧ s'.blocks = s.blocks.clear blkno n := by
  induction n generalizing blkno s with
  | zero =>
    rw [Blocks.clear_zero]
    exact ⟨s, rfl, .refl s, rfl⟩
  | succ n ih =>
    obtain ⟨s₁, hrun, hsame, -, hblocks⟩ :=
      sfsRwblockNolock_run x 0 true hf (.inl (Nat.pos_iff_ne_zero.mp hpos)) (by omega)
    obtain ⟨s', hrun', hsame', hblocks'⟩ := @ih s₁ (blkno + 1) (hsame.fits hf) (by omega)
      (by rw [hsame.super]; omega)
    -- of the buffer only its first block matters, and that is zero
    have hzero : memcpy (s.blocks blkno) 0 x 0 sfsBlksize = memzero (s.blocks blkno) sfsBlksize := by
      funext i
      by_cases hi : 0 ≤ i ∧ i < 0 + sfsBlksize
      · rw [memcpy_in hi, memzero_lt (by omega)]
        exact hx _ (by omega)
      · rw [memcpy_out hi, memzero, memcpy_out hi]
    refine ⟨s', ?_, hsame.trans hsame', ?_⟩
    · rw [sfsClearBlockLoop, Proc.bind_ok hrun]
      exact hrun'
    · rw [hblocks', hblocks, Blocks.clear_succ, ← hzero]
      rfl

/-! ## A part of a block -/

theorem sfsRbuf_run (buf : Bytes) (d : Nat) {len offset : Nat} (hf : s.Fits) (hpos : 0 < blkno)
    (hlt : blkno < s.super.blocks) (hoff : offset < sfsBlksize) (hlen : offset + len ≤ sfsBlksize) :
    ∃ s', sfsRbuf buf d len blkno offset s = .ok (memcpy buf d (s.blocks blkno) offset len) s' ∧ SameFs s s' ∧
      s'.blocks = s.blocks := by
  obtain ⟨s₁, hrun, hsame, -, hblocks⟩ := sfsRwblockNolock_run s.sfsBuffer 0 false hf
    (.inl (Nat.pos_iff_ne_zero.mp hpos)) hlt
  refine ⟨{ s₁ with sfsBuffer := memcpy s.sfsBuffer 0 (s.blocks blkno) 0 sfsBlksize }, ?_, ⟨hsame.super, hsame.size⟩, hblocks⟩
  rw [sfsRbuf, Proc.check_bind_pos ⟨hoff, hlen⟩, Proc.get_bind, Proc.bind_ok hrun]
  simp only [Bool.false_eq_true, if_false, setSfsBuffer, Proc.modify_bind, Proc.pure_run]
  rw [memcpy_from_read hlen]

theorem sfsWbuf_run (buf : Bytes) (d : Nat) {len offset : Nat} (hf : s.Fits) (hpos : 0 < blkno)
    (hlt : blkno < s.super.blocks) (hoff : offset < sfsBlksize) (hlen : offset + len ≤ sfsBlksize) :
    ∃ s', sfsWbuf buf d len blkno offset s = .ok () s' ∧ SameFs s s' ∧
      s'.blocks = Function.update s.blocks blkno (memcpy (s.blocks blkno) offset buf d len) := by
  obtain ⟨s₁, hrun, hsame, -, hblocks⟩ := sfsRwblockNolock_run s.sfsBuffer 0 false hf
    (.inl (Nat.pos_iff_ne_zero.mp hpos)) hlt
  -- the block with the new part in it, which is what is written back
  let x := memcpy (memcpy s.sfsBuffer 0 (s.blocks blkno) 0 sfsBlksize) offset buf d len
  have hsame₁ : SameFs s { s₁ with sfsBuffer := x } := ⟨hsame.super, hsame.size⟩
  obtain ⟨s', hrun', hsame', -, hblocks'⟩ := sfsRwblockNolock_run x 0 true (hsame₁.fits hf)
    (.inl (Nat.pos_iff_ne_zero.mp hpos)) (hsame₁.super ▸ hlt)
  refine ⟨s', ?_, hsame₁.trans hsame', ?_⟩
  · rw [sfsWbuf, Proc.check_bind_pos ⟨hoff, hlen⟩, Proc.get_bind, Proc.bind_ok hrun]
    simp only [Bool.false_eq_true, if_false, setSfsBuffer, Proc.modify_bind]
    exact Proc.bind_ok hrun'
  · have hblocks₁ : SfsFs.blocks { s₁ with sfsBuffer := x } = s.blocks := hblocks
    rw [hblocks', hblocks₁, if_pos rfl, memcpy_readModifyWrite hlen]

theorem sfsClearBlock_run (hf : s.Fits) (hpos : 0 < blkno) (hn : blkno + n ≤ s.super.blocks) :
    ∃ s', sfsClearBlock blkno n s = .ok () s' ∧ SameFs s s' ∧ s'.blocks = s.blocks.clear blkno n := by
  let x := memzero s.sfsBuffer sfsBlksize
  have hsame : SameFs s { s with sfsBuffer := x } := ⟨rfl, rfl⟩
  obtain ⟨s', hrun, hsame', hblocks⟩ := sfsClearBlockLoop_run (s := { s with sfsBuffer := x }) (x := x)
    (fun i hi => memzero_lt hi) (hsame.fits hf) hpos hn
  refine ⟨s', ?_, hsame.trans hsame', hblocks⟩
  rw [sfsClearBlock, Proc.get_bind]
  simp only [setSfsBuffer, Proc.modify_bind]
  exact hrun

/-! ## Every sequence of calls -/

/-- **One call.** -/
theorem BlockCall.run_apply {c : BlockCall} (hf : s.Fits) (hc : c.InRange s.super.blocks) :
    ∃ s', c.run s = .ok (c.apply s.blocks).1 s' ∧ SameFs s s' ∧ s'.blocks = (c.apply s.blocks).2 := by
  cases c with
  | rblock buf d blkno nblks =>
    obtain ⟨s', hrun, hsame, hblocks⟩ := sfsRblock_run buf d hf hc.1 hc.2
    exact ⟨s', Proc.bind_ok hrun, hsame, hblocks⟩
  | wblock buf d blkno nblks =>
    obtain ⟨s', hrun, hsame, hblocks⟩ := sfsWblock_run buf d hf hc.1 hc.2
    exact ⟨s', Proc.bind_ok hrun, hsame, hblocks⟩
  | rbuf buf d len blkno offset =>
    obtain ⟨hpos, hlt, hoff, hlen⟩ := hc
    obtain ⟨s', hrun, hsame, hblocks⟩ := sfsRbuf_run buf d hf hpos hlt hoff hlen
    exact ⟨s', Proc.bind_ok hrun, hsame, hblocks⟩
  | wbuf buf d len blkno offset =>
    obtain ⟨hpos, hlt, hoff, hlen⟩ := hc
    obtain ⟨s', hrun, hsame, hblocks⟩ := sfsWbuf_run buf d hf hpos hlt hoff hlen
    exact ⟨s', Proc.bind_ok hrun, hsame, hblocks⟩
  | clearBlock blkno nblks =>
    obtain ⟨s', hrun, hsame, hblocks⟩ := sfsClearBlock_run hf hc.1 hc.2
    exact ⟨s', Proc.bind_ok hrun, hsame, hblocks⟩

/-- **All calls**, by induction on the sequence. -/
theorem runCalls_apply {calls : List BlockCall} (hf : s.Fits) (hin : ∀ c ∈ calls, c.InRange s.super.blocks) :
    ∃ s', runCalls calls s = .ok (applyCalls s.blocks calls).1 s' ∧ s'.blocks = (applyCalls s.blocks calls).2 := by
  induction calls generalizing s with
  | nil => exact ⟨s, rfl, rfl⟩
  | cons c calls ih =>
    obtain ⟨s₁, hrun, hsame, hblocks⟩ := BlockCall.run_apply hf (hin c List.mem_cons_self)
    have hin₁ : ∀ c ∈ calls, c.InRange s₁.super.blocks := by
      intro c hc
      rw [hsame.super]
      exact hin c (List.mem_cons_of_mem _ hc)
    obtain ⟨s', hrun', hblocks'⟩ := ih (hsame.fits hf) hin₁
    rw [hblocks] at hrun' hblocks'
    refine ⟨s', ?_, hblocks'⟩
    rw [runCalls, Proc.bind_ok hrun, Proc.bind_ok hrun']
    rfl

theorem SfsFs.Fits.refines (hf : s.Fits) : s.Refines := by
  intro calls hin
  obtain ⟨s', hrun, hblocks⟩ := runCalls_apply hf hin
  exact ⟨s', hrun, fun b _ => by rw [hblocks]⟩

/-! ## What mounting accepts -/

theorem dopIo_dBlocks {dev dev' : Device} {off : Nat} {x : Bytes} (h : dopIo buf d off write dev = .ok x dev') :
    dev'.dBlocks = dev.dBlocks := by
  rw [dopIo, Proc.get_bind, Proc.modify_bind] at h
  split at h
  · cases h
  · split at h
    · cases h
    · split at h
      · cases h
        rfl
      · cases h
        rfl

theorem mountFreemap_blocks {dev dev' : Device} {kmalloc : Nat → Bool} {x : Bytes} {fs : Ucore.SfsFs}
    (h : mountFreemap kmalloc x dev = .ok fs dev') : fs.super.blocks ≤ dev.dBlocks := by
  unfold mountFreemap at h
  dsimp only at h
  rw [Proc.get_bind] at h
  split at h
  · cases h
  · split at h
    · cases h
    · rename_i hblocks
      split at h
      · cases h
      · obtain ⟨_, _, -, h⟩ := Proc.bind_eq_ok.mp h
        split at h
        · cases h
        · obtain ⟨_, _, -, h⟩ := Proc.bind_eq_ok.mp h
          obtain ⟨_, _, -, h⟩ := Proc.bind_eq_ok.mp h
          cases h
          exact Nat.not_lt.mp hblocks

/-- The file system is not larger than the disk. -/
theorem SfsFs.Mounted.blocks_le (h : s.Mounted) : s.super.blocks ≤ s.dev.dBlocks := by
  obtain ⟨kmalloc, buffer, fs, dev', hrun, hsuper⟩ := h
  rw [hsuper]
  unfold sfsDoMount at hrun
  split at hrun
  · cases hrun
  · obtain ⟨x, dev₁, hread, hmount⟩ := Proc.bind_eq_ok.mp hrun
    have hle := mountFreemap_blocks hmount
    rw [dopIo_dBlocks hread] at hle
    exact hle

/-! ## Blocks from `2 ^ 20` on -/

/-- Writing block `2 ^ 20` changes block 0. -/
theorem not_refines (hlarge : 2 ^ 20 < s.super.blocks) (hinside : s.super.blocks ≤ s.dev.dBlocks) : ¬ s.Refines := by
  intro h
  -- bytes that block 0 does not have
  let buf : Bytes := fun _ => s.blocks 0 0 + 1
  obtain ⟨iob, dev', hrun, hsize, hbase, hblks⟩ := disk0Io_block true buf 0
    (by omega : 0 < s.dev.dBlocks) (by decide)
  have hoff : 2 ^ 20 * sfsBlksize % 2 ^ 32 = disk0Blksize * 0 := rfl
  have hzoom : onDev (disk0Io (iobufInit (buf, 0) sfsBlksize (disk0Blksize * 0 : Nat)) true) s =
      .ok (0, iob) { s with dev := dev' } := by
    rw [onDev, Proc.zoom, hrun]
  have hblock : sfsRwblockNolock buf 0 (2 ^ 20) true true s = .ok iob.ioBase.1 { s with dev := dev' } := by
    rw [sfsRwblockNolock, Proc.get_bind, Proc.check_bind_pos ⟨.inl (by decide), hlarge⟩, hoff, Proc.bind_ok hzoom]
    rfl
  have hcall : runCalls [.wblock buf 0 (2 ^ 20) 1] s = .ok [none] { s with dev := dev' } := by
    refine Proc.bind_ok (Proc.bind_ok (a := iob.ioBase.1) ?_)
    exact Proc.bind_ok hblock
  obtain ⟨s', hcalls, hall⟩ := h [.wblock buf 0 (2 ^ 20) 1] fun c hc => by
    rw [List.mem_singleton.mp hc]
    exact ⟨by decide, hlarge⟩
  rw [hcall] at hcalls
  injection hcalls with _ hs
  have hsame := congrFun (hall 0 (by omega)) 0
  have hnew : s'.blocks 0 0 = s.blocks 0 0 + 1 := by
    rw [← hs]
    show dev'.device.blk 0 0 = _
    rw [hblks, if_pos rfl, Function.update_self]
    rfl
  have hold : (applyCalls s.blocks [.wblock buf 0 (2 ^ 20) 1]).2 0 0 = s.blocks 0 0 := rfl
  rw [hnew, hold] at hsame
  simp at hsame

/-- **The block transfers refine an array of blocks** exactly if the file system has at most `2 ^ 20` blocks. -/
theorem block_store (hmount : s.Mounted) : s.Refines ↔ s.super.blocks ≤ 2 ^ 20 := by
  constructor
  · intro h
    by_contra hlarge
    exact not_refines (Nat.lt_of_not_le hlarge) hmount.blocks_le h
  · exact fun hsmall => SfsFs.Fits.refines ⟨hsmall, hmount.blocks_le⟩

/-! ## Disks without a free block -/

def fullSuper (blocks : Nat) : SfsSuper := { magic := sfsMagic, blocks := blocks, unusedBlocks := 0, info := fun _ => 0 }

/-- A disk of `blocks` blocks, all of them zero but for the superblock. -/
def fullDisk (blocks : Nat) (h : blocks < 2 ^ 29) : Disk0 where
  ide :=
    { size := 8 * blocks
      image := (fullSuper blocks).store fun _ => 0
      size_lt := by omega }
  disk0Buffer _ := 0

variable {blocks : Nat} {h : blocks < 2 ^ 29}

theorem fullDisk_dBlocks : (fullDisk blocks h).dBlocks = blocks := Nat.mul_div_cancel_left _ (by decide)

theorem fullDisk_super : SfsSuper.load ((fullDisk blocks h).device.blk 0) = fullSuper blocks := by
  have hmagic : sfsMagic < 2 ^ 32 := by decide
  have hfits : (fullSuper blocks).Fits := ⟨hmagic, Nat.lt_trans h (by decide), Nat.two_pow_pos 32⟩
  rw [← SfsSuper.load_store hfits fun _ => 0]
  refine SfsSuper.load_congr fun i hi => ?_
  show (if i < 4096 then (fullSuper blocks).store (fun _ => 0) (4096 * 0 + i) else 0) = _
  rw [if_pos (by omega), Nat.mul_zero, Nat.zero_add]

/-- No bit of the free map is set. -/
theorem fullDisk_bit (i : Nat) : diskBit (fullDisk blocks h).device.blk i = false := by
  have hzero : ∀ j, 44 ≤ j → (fullSuper blocks).store (fun _ => 0) j = 0 := by
    intro j hj
    have hout : ¬ (12 ≤ j ∧ j < 44) := by omega
    simp only [SfsSuper.store, dif_neg hout]
    rw [putLe_out (by omega), putLe_out (by omega), putLe_out (by omega)]
  have hbyte : (fullDisk blocks h).device.blk (2 + i / 32768) (i % 32768 / 8) = 0 := by
    show (if i % 32768 / 8 < 4096 then (fullSuper blocks).store (fun _ => 0) (4096 * (2 + i / 32768) + i % 32768 / 8) else 0) = 0
    rw [if_pos (by omega), hzero _ (by omega)]
  rw [diskBit, hbyte]
  exact Nat.zero_testBit _

/-- A transfer of this device does not fail. -/
theorem fullDisk_ioRet (k : Nat) : (fullDisk blocks h).device.ioRet k = 0 := rfl

theorem fullDisk_read (hpos : 0 < blocks) : sfsInitRead 0 (fun _ => 0) 0 (fullDisk blocks h).device =
    .ok (memcpy (fun _ => 0) 0 ((fullDisk blocks h).device.blk 0) 0 4096) ((fullDisk blocks h).device.tick 1) := by
  have hin : 0 < (fullDisk blocks h).device.dBlocks := hpos.trans_eq fullDisk_dBlocks.symm
  rcases @sfsInitRead_cases (fullDisk blocks h).device (fun _ => 0) 0 0 hin (by decide) with hread | ⟨hne, -⟩
  · exact hread
  · exact absurd (fullDisk_ioRet _) hne

/-- Its free map is read, and counts no free block. -/
theorem fullDisk_freemap (hmap : 2 + mapSize blocks ≤ 2 ^ 20) (hle : 2 + mapSize blocks ≤ blocks) :
    ∃ freemap, sfsInitFreemap (bitmapCreate (32768 * mapSize blocks)) sfsBlknFreemap (mapSize blocks)
        ((fullDisk blocks h).device.tick 1) = .ok freemap (((fullDisk blocks h).device.tick 1).tick (mapSize blocks)) ∧
      mountUnused freemap (32768 * mapSize blocks) = (fullSuper blocks).unusedBlocks := by
  have hwords : (bitmapCreate (32768 * mapSize blocks)).nwords = 1024 * mapSize blocks := by
    show (32768 * mapSize blocks + 32 - 1) / 32 = _
    omega
  have hin : 2 + mapSize blocks ≤ ((fullDisk blocks h).device.tick 1).dBlocks := by
    have htick : ((fullDisk blocks h).device.tick 1).dBlocks = blocks := fullDisk_dBlocks
    rw [htick]
    exact hle
  rcases sfsInitFreemap_cases _ hwords hin hmap with ⟨freemap, hrun, -, -, hbit⟩ | ⟨⟨k, hne⟩, -⟩
  · refine ⟨freemap, hrun, ?_⟩
    rw [Bitmap.mountUnused_eq]
    refine Finset.card_eq_zero.mpr (Finset.filter_eq_empty_iff.mpr fun i hi => ?_)
    have hclear : freemap.bit i = false := (hbit i (Finset.mem_range.mp hi)).trans (fullDisk_bit i)
    rw [hclear]
    exact Bool.false_ne_true
  · exact absurd (fullDisk_ioRet (h := h) k) hne

theorem fullSuper_freemapBlocks (blocks : Nat) (info : Fin 32 → UInt8) :
    sfsFreemapBlocks { fullSuper blocks with info := info } = mapSize blocks := by
  have hms : mapSize blocks = (blocks + 32767) / 32768 := rfl
  show (blocks + 32768 - 1) / 32768 = _
  omega

theorem fullSuper_freemapBits (hlt : blocks < 2 ^ 29) (info : Fin 32 → UInt8) :
    sfsFreemapBits { fullSuper blocks with info := info } = 32768 * mapSize blocks := by
  have hms : mapSize blocks = (blocks + 32767) / 32768 := rfl
  show (blocks + 32768 - 1) / 32768 * 32768 % 2 ^ 32 = _
  omega

/-- What follows the superblock accepts such a disk. -/
theorem fullDisk_mountFreemap {sfsBuffer : Bytes} (hmap : 2 + mapSize blocks ≤ 2 ^ 20) (hle : 2 + mapSize blocks ≤ blocks)
    (hload : SfsSuper.load sfsBuffer = fullSuper blocks) : ∃ fs dev',
      mountFreemap (fun _ => true) sfsBuffer ((fullDisk blocks h).device.tick 1) = .ok fs dev' ∧ fs.super.blocks = blocks := by
  obtain ⟨freemap, hrun, hunused⟩ := fullDisk_freemap (h := h) hmap hle
  have hms : mapSize blocks = (blocks + 32767) / 32768 := rfl
  have hin : ¬ ((fullDisk blocks h).device.tick 1).dBlocks < (fullSuper blocks).blocks :=
    Nat.not_lt.mpr (Nat.le_of_eq fullDisk_dBlocks.symm)
  have hmagic : ¬ (fullSuper blocks).magic ≠ sfsMagic := not_not_intro rfl
  let fs : Ucore.SfsFs :=
    { super := { fullSuper blocks with info := Function.update (fullSuper blocks).info 31 0 }
      dev := ((fullDisk blocks h).device.tick 1).tick (mapSize blocks), freemap := freemap, superDirty := false
      sfsBuffer := sfsBuffer }
  refine ⟨fs, ((fullDisk blocks h).device.tick 1).tick (mapSize blocks), ?_, rfl⟩
  unfold mountFreemap
  rw [hload]
  dsimp only
  rw [Proc.get_bind, if_neg hmagic, if_neg hin, if_neg (by decide), fullSuper_freemapBits h, fullSuper_freemapBlocks,
    Proc.check_bind_pos (by omega), if_neg (by decide), Proc.bind_ok hrun, Proc.check_bind_pos hunused]
  rfl

/-- Such a disk is accepted. -/
theorem fullDisk_mounted (hblocks : 3 ≤ blocks) (hmap : 2 + mapSize blocks ≤ 2 ^ 20) (hle : 2 + mapSize blocks ≤ blocks) :
    ∃ s : SfsFs, s.Mounted ∧ s.super.blocks = blocks ∧ s.dev = fullDisk blocks h := by
  have hload : SfsSuper.load (memcpy (fun _ => 0) 0 ((fullDisk blocks h).device.blk 0) 0 4096) = fullSuper blocks := by
    rw [load_read]
    exact fullDisk_super
  obtain ⟨fs, dev', hmount, hsuper⟩ := fullDisk_mountFreemap (h := h) hmap hle hload
  have hrun : sfsDoMount (fun _ => true) (fun _ => 0) (fullDisk blocks h).device = .ok fs dev' := by
    rw [sfsDoMount, if_neg (by decide)]
    exact (Proc.bind_ok (fullDisk_read (by omega))).trans hmount
  exact ⟨{ super := fs.super, dev := fullDisk blocks h, sfsBuffer := fun _ => 0 },
    ⟨fun _ => true, fun _ => 0, fs, dev', hrun, rfl⟩, hsuper, rfl⟩

/-- With `2 ^ 20 + 1` blocks it is no array of blocks. -/
theorem block_store_alias : ∃ s : SfsFs, s.Mounted ∧ s.super.blocks = 2 ^ 20 + 1 ∧ ¬ s.Refines := by
  obtain ⟨s, hmount, hblocks, hdev⟩ := @fullDisk_mounted (2 ^ 20 + 1) (by decide) (by decide) (by decide) (by decide)
  exact ⟨s, hmount, hblocks, not_refines (by omega) hmount.blocks_le⟩

/-- With three blocks it is one. -/
theorem block_store_three : ∃ s : SfsFs, s.super.blocks = 3 ∧ s.Refines := by
  obtain ⟨s, hmount, hblocks, -⟩ := @fullDisk_mounted 3 (by decide) (by decide) (by decide) (by decide)
  exact ⟨s, hblocks, (block_store hmount).mpr (by omega)⟩

end Ucore.OnDisk0
