import Ucore.Fs.Sfs.Correctness.Blocks
import Ucore.Fs.Sfs.SfsFs

/-!
# `Fs.Sfs.Correctness.Mount` — what mounting makes of a disk

The bits of the free map are found on the disk through `diskBit`. Mounting a disk whose superblock counts
its free blocks correctly (`Consistent`) fails only for want of memory or because of the device, never with
an assertion; the file system it returns has the superblock and the free map of the disk.
-/

namespace Ucore

/-! ## Bits and bytes -/

theorem testBit_getLe (m : Bytes) (n : Nat) : ∀ a k, k < 8 * n →
    (getLe m a n).testBit k = (m (a + k / 8)).toNat.testBit (k % 8) := by
  induction n with
  | zero =>
    intro a k hk
    omega
  | succ n ih =>
    intro a k hk
    have hbyte : (m a).toNat < 2 ^ 8 := (m a).toNat_lt
    have hsum : getLe m a (n + 1) = 2 ^ 8 * getLe m (a + 1) n + (m a).toNat := Nat.add_comm ..
    rw [hsum, Nat.testBit_two_pow_mul_add _ hbyte]
    by_cases hlt : k < 8
    · rw [if_pos hlt, show k / 8 = 0 by omega, show k % 8 = k by omega, Nat.add_zero]
    · rw [if_neg hlt, ih (a + 1) (k - 8) (by omega), show a + 1 + (k - 8) / 8 = a + k / 8 by omega,
        show (k - 8) % 8 = k % 8 by omega]

namespace Bitmap

variable {b : Bitmap}

/-- A byte of the map holds eight bits of it. -/
theorem testBit_getdata (b : Bitmap) (i : Nat) : (bitmapGetdata b (i / 8)).toNat.testBit (i % 8) = b.bit i := by
  have hpow : 256 ^ (i / 8 % 4) = 2 ^ (8 * (i / 8 % 4)) := by rw [Nat.pow_mul]
  have hword : i / 8 / 4 = i / 32 := by omega
  have hbit : i % 8 + 8 * (i / 8 % 4) = i % 32 := by omega
  have hlt : i % 8 < 8 := by omega
  unfold bitmapGetdata bit
  rw [UInt8.toNat_ofNat', Nat.testBit_mod_two_pow, hpow, Nat.testBit_div_two_pow, hword, hbit, BitVec.testBit_toNat,
    decide_eq_true hlt, Bool.true_and]

theorem bit_setdata (b : Bitmap) (data : Bytes) (i : Nat) : (b.setdata data).bit i = (data (i / 8)).toNat.testBit (i % 8) := by
  have hlt : i % 32 < 32 := by omega
  show (BitVec.ofNat 32 (getLe data (4 * (i / 32)) 4)).getLsbD (i % 32) = _
  rw [BitVec.getLsbD_ofNat, decide_eq_true hlt, Bool.true_and, testBit_getLe data 4 _ _ hlt,
    show 4 * (i / 32) + i % 32 / 8 = i / 8 by omega, show i % 32 % 8 = i % 8 by omega]

theorem mountUnused_eq (b : Bitmap) (n : Nat) : mountUnused b n = ((Finset.range n).filter fun i => b.bit i).card := by
  induction n with
  | zero => rfl
  | succ n ih =>
    have hmask := @and_mask_ne_zero (b.map (n / 32)) (n % 32) (by omega)
    unfold mountUnused
    rw [Finset.range_add_one, Finset.filter_insert]
    by_cases hbit : b.bit n = true
    · have hnot : n ∉ (Finset.range n).filter fun i => b.bit i := fun hm =>
        Nat.lt_irrefl n (Finset.mem_range.mp (Finset.mem_filter.mp hm).1)
      rw [if_pos hbit, Finset.card_insert_of_notMem hnot, ← ih]
      exact if_pos (hmask.mpr hbit)
    · rw [if_neg hbit, ← ih]
      exact if_neg fun hc => hbit (hmask.mp hc)

end Bitmap

/-- Bit `i` of the free map on a disk. -/
def diskBit (disk : Nat → Bytes) (i : Nat) : Bool := (disk (2 + i / 32768) (i % 32768 / 8)).toNat.testBit (i % 8)

/-! ## Reading -/

variable {dev dev' : Device} {buf data : Bytes} {d blkno n : Nat}

/-- The device after `k` more transfers. -/
def Device.tick (dev : Device) (k : Nat) : Device := { dev with ticks := dev.ticks + k }

theorem sfsInitRead_cases (hb : blkno < dev.dBlocks) (hsmall : blkno < 2 ^ 20) :
    sfsInitRead blkno buf d dev = .ok (memcpy buf d (dev.blk blkno) 0 4096) (dev.tick 1) ∨
    dev.ioRet dev.ticks ≠ 0 ∧ sfsInitRead blkno buf d dev = .err (dev.ioRet dev.ticks) (dev.tick 1) := by
  have hoff : blkno * 4096 % 2 ^ 32 / 4096 = blkno := by omega
  unfold sfsInitRead dopIo
  rw [Proc.get_bind, Proc.modify_bind]
  have hin : ¬ dev.dBlocks < blkno * sfsBlksize % 2 ^ 32 / sfsBlksize + 1 := by
    show ¬ dev.dBlocks < blkno * 4096 % 2 ^ 32 / 4096 + 1
    omega
  rw [if_neg hin]
  by_cases hf : dev.ioRet dev.ticks ≠ 0
  · rw [if_pos hf]
    exact Or.inr ⟨hf, rfl⟩
  · rw [if_neg hf, if_neg Bool.false_ne_true]
    refine Or.inl ?_
    show Outcome.ok (memcpy buf d (dev.blk (blkno * 4096 % 2 ^ 32 / 4096)) 0 4096) _ = _
    rw [hoff]
    rfl

/-- `n` blocks, one after the other. -/
theorem sfsInitFreemapLoop_cases (n : Nat) : ∀ (data : Bytes) (d blkno : Nat) (dev : Device),
    blkno + n ≤ dev.dBlocks → blkno + n ≤ 2 ^ 20 →
    (∃ data', sfsInitFreemapLoop data d blkno n dev = .ok data' (dev.tick n) ∧
      (∀ k r, k < n → r < 4096 → data' (d + 4096 * k + r) = dev.blk (blkno + k) r) ∧ ∀ i, i < d → data' i = data i) ∨
    (∃ k, dev.ioRet k ≠ 0) ∧ ∃ e dev', sfsInitFreemapLoop data d blkno n dev = .err e dev' := by
  induction n with
  | zero => exact fun data d blkno dev _ _ => Or.inl ⟨data, rfl, fun k r hk => absurd hk (Nat.not_lt_zero k), fun _ _ => rfl⟩
  | succ n ih =>
    intro data d blkno dev hb hsmall
    unfold sfsInitFreemapLoop
    rcases @sfsInitRead_cases dev data d blkno (by omega) (by omega) with hread | ⟨hf, hread⟩
    · rcases ih (memcpy data d (dev.blk blkno) 0 4096) (d + 4096) (blkno + 1) (dev.tick 1)
        (show blkno + 1 + n ≤ dev.dBlocks by omega) (by omega) with ⟨data', hrun, hin, hlow⟩ | ⟨hf, e, dev', hrun⟩
      · refine Or.inl ⟨data', ?_, fun k r hk hr => ?_, fun i hi => ?_⟩
        · rw [Proc.bind_ok hread]
          refine hrun.trans ?_
          rw [Device.tick, Device.tick, Device.tick, Nat.add_assoc, Nat.add_comm 1]
        · cases k with
          | zero =>
            have hr' : d ≤ d + 4096 * 0 + r ∧ d + 4096 * 0 + r < d + 4096 := by omega
            rw [hlow _ (by omega), memcpy_in hr']
            congr 1
            omega
          | succ k =>
            have heq : d + 4096 * (k + 1) + r = d + 4096 + 4096 * k + r := by omega
            rw [heq, hin k r (by omega) hr, show blkno + 1 + k = blkno + (k + 1) by omega]
            rfl
        · rw [hlow i (by omega), memcpy_out (by omega)]
      · refine Or.inr ⟨hf, e, dev', ?_⟩
        rw [Proc.bind_ok hread]
        exact hrun
    · exact Or.inr ⟨⟨_, hf⟩, _, _, Proc.bind_err hread⟩

/-- The map read from the disk has the bits that are there. -/
theorem sfsInitFreemap_cases (freemap : Bitmap) (hwords : freemap.nwords = 1024 * n) (hb : 2 + n ≤ dev.dBlocks)
    (hsmall : 2 + n ≤ 2 ^ 20) :
    (∃ freemap', sfsInitFreemap freemap 2 n dev = .ok freemap' (dev.tick n) ∧ freemap'.nbits = freemap.nbits ∧
      freemap'.nwords = freemap.nwords ∧ ∀ i, i < 32768 * n → freemap'.bit i = diskBit dev.blk i) ∨
    (∃ k, dev.ioRet k ≠ 0) ∧ ∃ e dev', sfsInitFreemap freemap 2 n dev = .err e dev' := by
  have hcheck : 4 * freemap.nwords = n * sfsBlksize := by
    show 4 * freemap.nwords = n * 4096
    omega
  unfold sfsInitFreemap
  rw [Proc.check_bind_pos hcheck]
  rcases sfsInitFreemapLoop_cases n (bitmapGetdata freemap) 0 2 dev hb hsmall with ⟨data', hrun, hin, -⟩ |
    ⟨hf, e, dev', hrun⟩
  · refine Or.inl ⟨freemap.setdata data', ?_, rfl, rfl, fun i hi => ?_⟩
    · rw [Proc.bind_ok hrun]
      rfl
    · have hbyte := hin (i / 32768) (i % 32768 / 8) (by omega) (by omega)
      rw [show 0 + 4096 * (i / 32768) + i % 32768 / 8 = i / 8 by omega] at hbyte
      rw [Bitmap.bit_setdata, hbyte]
      rfl
  · exact Or.inr ⟨hf, e, dev', Proc.bind_err hrun⟩

/-! ## Mounting -/

/-- The number of blocks, and of bits, of the free map. -/
def mapSize (blocks : Nat) : Nat := (blocks + 32767) / 32768

/-- A disk that holds a file system: the free map covers it and marks nothing beyond, and the free blocks
    are counted in the superblock. -/
structure Consistent (dev : Device) : Prop where
  magic : (SfsSuper.load (dev.blk 0)).magic = sfsMagic
  pos : 0 < (SfsSuper.load (dev.blk 0)).blocks
  blocks_le : (SfsSuper.load (dev.blk 0)).blocks ≤ dev.dBlocks
  small : (SfsSuper.load (dev.blk 0)).blocks ≤ 2 ^ 20
  map_le : 2 + mapSize (SfsSuper.load (dev.blk 0)).blocks ≤ (SfsSuper.load (dev.blk 0)).blocks
  zero : diskBit dev.blk 0 = false
  pad : ∀ i, (SfsSuper.load (dev.blk 0)).blocks ≤ i → i < 32768 * mapSize (SfsSuper.load (dev.blk 0)).blocks →
    diskBit dev.blk i = false
  count : (SfsSuper.load (dev.blk 0)).unusedBlocks =
    ((Finset.range (32768 * mapSize (SfsSuper.load (dev.blk 0)).blocks)).filter fun i => diskBit dev.blk i).card

/-- The file system that mounting makes of the disk. -/
structure Mounted (dev : Device) (s : SfsFs) : Prop where
  super : s.super = { SfsSuper.load (dev.blk 0) with info := Function.update (SfsSuper.load (dev.blk 0)).info 31 0 }
  nbits : s.freemap.nbits = 32768 * mapSize (SfsSuper.load (dev.blk 0)).blocks
  bit : ∀ i, i < s.freemap.nbits → s.freemap.bit i = diskBit dev.blk i
  blk : s.dev.blk = dev.blk
  ioRet : s.dev.ioRet = dev.ioRet
  superDirty : s.superDirty = false
  ready : s.Ready

theorem SfsSuper.load_congr {m m' : Bytes} (h : ∀ i, i < 44 → m i = m' i) : load m = load m' := by
  have hget : ∀ a, a + 4 ≤ 44 → getLe m a 4 = getLe m' a 4 := fun a ha => getLe_congr fun i _ hi => h i (by omega)
  refine SfsSuper.ext (hget 0 (by decide)) (hget 4 (by decide)) (hget 8 (by decide)) (funext fun i => ?_)
  exact h (12 + i) (by have := i.isLt; omega)

theorem load_read (buf : Bytes) (blk : Bytes) : SfsSuper.load (memcpy buf 0 blk 0 4096) = SfsSuper.load blk :=
  SfsSuper.load_congr fun i hi => by
    rw [memcpy_in ⟨Nat.zero_le i, by omega⟩, Nat.zero_add, Nat.sub_zero]

/-- The second half: the superblock has been read. -/
theorem mountFreemap_cases {kmalloc : Nat → Bool} {sfsBuffer : Bytes} (hdev : dev' = dev.tick 1) (h : Consistent dev)
    (hbuf : SfsSuper.load sfsBuffer = SfsSuper.load (dev.blk 0)) :
    (∃ s dev'', mountFreemap kmalloc sfsBuffer dev' = .ok s dev'' ∧ Mounted dev s) ∨
    ((∃ i, kmalloc i = false) ∨ ∃ k, dev.ioRet k ≠ 0) ∧ ∃ e dev'', mountFreemap kmalloc sfsBuffer dev' = .err e dev'' := by
  obtain ⟨hmagic, hpos, hblocks, hsmall, hmap, hzero, hpad, hcount⟩ := h
  have hsize : dev'.dBlocks = dev.dBlocks ∧ dev'.blk = dev.blk ∧ dev'.ioRet = dev.ioRet := by
    rw [hdev]
    exact ⟨rfl, rfl, rfl⟩
  unfold mountFreemap
  rw [hbuf]
  generalize hsup : SfsSuper.load (dev.blk 0) = super at *
  have hms : mapSize super.blocks = (super.blocks + 32767) / 32768 := rfl
  have hnblks : ∀ info, sfsFreemapBlocks { super with info := info } = mapSize super.blocks := fun info => by
    show (super.blocks + 32768 - 1) / 32768 = _
    omega
  have hnbits : ∀ info, sfsFreemapBits { super with info := info } = 32768 * mapSize super.blocks := fun info => by
    show (super.blocks + 32768 - 1) / 32768 * 32768 % 2 ^ 32 = _
    omega
  dsimp only
  rw [Proc.get_bind, if_neg (not_not_intro hmagic), if_neg (by rw [hsize.1]; exact Nat.not_lt.mpr hblocks)]
  by_cases hmem2 : kmalloc 2 = false
  · rw [if_pos hmem2]
    exact Or.inr ⟨Or.inl ⟨2, hmem2⟩, _, _, rfl⟩
  rw [if_neg hmem2, hnbits, hnblks, Proc.check_bind_pos (by omega)]
  by_cases hmem3 : kmalloc 3 = false
  · rw [if_pos hmem3]
    exact Or.inr ⟨Or.inl ⟨3, hmem3⟩, _, _, rfl⟩
  rw [if_neg hmem3]
  have hwords : (bitmapCreate (32768 * mapSize super.blocks)).nwords = 1024 * mapSize super.blocks := by
    show (32768 * mapSize super.blocks + 32 - 1) / 32 = _
    omega
  rcases @sfsInitFreemap_cases dev' _ (bitmapCreate (32768 * mapSize super.blocks)) hwords (by omega) (by omega) with
    ⟨freemap, hrun, hfbits, hfwords, hbit⟩ | ⟨⟨k, hf⟩, e, dev'', hrun⟩
  case inr =>
    refine Or.inr ⟨Or.inr ⟨k, hsize.2.2 ▸ hf⟩, e, dev'', ?_⟩
    exact Proc.bind_err hrun
  rw [hsize.2.1] at hbit
  have hfbits' : freemap.nbits = 32768 * mapSize super.blocks := hfbits
  -- the recount
  have hsame : ((Finset.range (32768 * mapSize super.blocks)).filter fun i => freemap.bit i) =
      (Finset.range (32768 * mapSize super.blocks)).filter fun i => diskBit dev.blk i :=
    Finset.filter_congr fun i hi => by rw [hbit i (Finset.mem_range.mp hi)]
  have hunused : mountUnused freemap (32768 * mapSize super.blocks) = super.unusedBlocks := by
    rw [Bitmap.mountUnused_eq, hsame, hcount]
  have hrun' : sfsInitFreemap (bitmapCreate (32768 * mapSize super.blocks)) sfsBlknFreemap (mapSize super.blocks) dev' =
    .ok freemap (dev'.tick (mapSize super.blocks)) := hrun
  refine Or.inl ⟨{ super := { super with info := Function.update super.info 31 0 }, dev := dev'.tick (mapSize super.blocks)
                   freemap := freemap, superDirty := false, sfsBuffer := sfsBuffer },
    dev'.tick (mapSize super.blocks), ?_, ?_⟩
  · rw [Proc.bind_ok hrun', Proc.check_bind_pos hunused]
    rfl
  · have hready : 32 * freemap.nwords = 32768 * mapSize super.blocks := by
      rw [hfwords, hwords]
      omega
    refine ⟨by rw [hsup], by rw [hsup]; exact hfbits', fun i hi => hbit i (hfbits'.symm ▸ hi), hsize.2.1, hsize.2.2, rfl,
      ⟨?_, hsmall, ?_, ?_, ?_, fun i h1 h2 => ?_, ?_⟩⟩
    · show super.blocks ≤ dev'.dBlocks
      omega
    · show super.blocks ≤ freemap.nbits
      omega
    · show 32 * freemap.nwords = freemap.nbits
      omega
    · show freemap.bit 0 = false
      rw [hbit 0 (by omega), hzero]
    · have h2' : i < 32768 * mapSize super.blocks := hfbits' ▸ h2
      show freemap.bit i = false
      rw [hbit i h2']
      exact hpad i h1 h2'
    · show super.unusedBlocks = freemap.setBits
      rw [Bitmap.setBits, hready, hsame, hcount]

/-- **Mounting.** -/
theorem sfsDoMount_cases (kmalloc : Nat → Bool) (buffer : Bytes) (h : Consistent dev) :
    (∃ s dev', sfsDoMount kmalloc buffer dev = .ok s dev' ∧ Mounted dev s) ∨
    ((∃ i, kmalloc i = false) ∨ ∃ k, dev.ioRet k ≠ 0) ∧ ∃ e dev', sfsDoMount kmalloc buffer dev = .err e dev' := by
  unfold sfsDoMount
  by_cases hmem : kmalloc 0 = false ∨ kmalloc 1 = false
  · rw [if_pos hmem]
    refine Or.inr ⟨Or.inl ?_, _, _, rfl⟩
    rcases hmem with h0 | h1
    · exact ⟨0, h0⟩
    · exact ⟨1, h1⟩
  rw [if_neg hmem]
  have hdisk : 0 < dev.dBlocks := Nat.lt_of_lt_of_le h.pos h.blocks_le
  rcases @sfsInitRead_cases dev buffer 0 0 hdisk (by decide) with hread | ⟨hf, hread⟩
  · have hread' : sfsInitRead sfsBlknSuper buffer 0 dev = .ok (memcpy buffer 0 (dev.blk 0) 0 4096) (dev.tick 1) := hread
    rw [Proc.bind_ok hread']
    exact mountFreemap_cases rfl h (load_read _ _)
  · exact Or.inr ⟨Or.inr ⟨_, hf⟩, _, _, Proc.bind_err hread⟩

end Ucore
