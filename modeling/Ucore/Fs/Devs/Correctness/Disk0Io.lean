import Ucore.Fs.Devs.Disk0

/-!
# `Fs.Devs.Correctness.Disk0Io` — which requests `disk0_io` serves

A request for whole blocks inside the device is served, round by round, as one copy. The test against `d_blocks` is made on
numbers of 32 bits, so it lets in requests that are not inside the device; and a device may have more sectors than the
assertions of `ide.c` allow.
-/

namespace Ucore

variable {d d' : Disk0} {iob : Iobuf} {write : Bool} {blkno k n off : Nat}

/-! ## What a transfer does -/

/-- `n` bytes have been moved between the disk, from `off` on, and the buffer. -/
structure IoMoved (write : Bool) (off n : Nat) (d d' : Disk0) (iob iob' : Iobuf) : Prop where
  size : d'.ide.size = d.ide.size
  image : d'.ide.image =
    if write = true then memcpy d.ide.image off iob.ioBase.1 iob.ioBase.2 n else d.ide.image
  base : iob'.ioBase.1 =
    if write = true then iob.ioBase.1 else memcpy iob.ioBase.1 iob.ioBase.2 d.ide.image off n
  position : iob'.ioBase.2 = iob.ioBase.2 + n
  offset : iob'.ioOffset = iob.ioOffset + n
  len : iob'.ioLen = iob.ioLen
  resid : iob'.ioResid + n = iob.ioResid

namespace IoMoved

theorem refl (write : Bool) (off : Nat) (d : Disk0) (iob : Iobuf) : IoMoved write off 0 d d iob iob where
  size := rfl
  image := by
    rw [memcpy_zero, ite_self]
  base := by
    rw [memcpy_zero, ite_self]
  position := rfl
  offset := (Int.add_zero _).symm
  len := rfl
  resid := rfl

/-- Two transfers, one behind the other, are one transfer. -/
theorem trans {d₁ d₂ : Disk0} {iob₁ iob₂ : Iobuf} (h : IoMoved write off n d d₁ iob iob₁)
    (h' : IoMoved write (off + n) k d₁ d₂ iob₁ iob₂) : IoMoved write off (n + k) d d₂ iob iob₂ where
  size := h'.size.trans h.size
  image := by
    rw [h'.image, h.image, h.base, h.position]
    cases write with
    | true => exact memcpy_append
    | false => rfl
  base := by
    rw [h'.base, h.base, h.position, h.image]
    cases write with
    | true => rfl
    | false => exact memcpy_append
  position := by
    rw [h'.position, h.position]
    exact Nat.add_assoc ..
  offset := by
    rw [h'.offset, h.offset]
    omega
  len := h'.len.trans h.len
  resid := by
    have h1 := h.resid
    have h2 := h'.resid
    omega

end IoMoved

/-! ## The sectors -/

theorem toUint32_natCast (h : n < 2 ^ 32) : toUint32 n = n := by
  unfold toUint32
  omega

theorem Disk0.dBlocks_lt (d : Disk0) : d.dBlocks < 2 ^ 29 := by
  have hlt := d.ide.size_lt
  show d.ide.size / 8 < 2 ^ 29
  omega

/-- Inside the device nothing is cut off. -/
theorem ramdiskNsecs_inside (h : blkno + k ≤ d.dBlocks) : ramdiskNsecs d.ide (blkno * disk0BlkNsect) (k * disk0BlkNsect) =
    k * disk0BlkNsect := by
  have hlt := d.ide.size_lt
  have h' : blkno + k ≤ d.ide.size / 8 := h
  show min (k * 8) ((d.ide.size + 2 ^ 64 - blkno * 8) % 2 ^ 64) = k * 8
  omega

/-- The numbers of sectors in 32 bits. -/
theorem sectors_eq (h : blkno + k ≤ d.dBlocks) :
    blkno * disk0BlkNsect % 2 ^ 32 = blkno * disk0BlkNsect ∧ k * disk0BlkNsect % 2 ^ 32 = k * disk0BlkNsect := by
  have hlt := d.dBlocks_lt
  show blkno * 8 % 2 ^ 32 = blkno * 8 ∧ k * 8 % 2 ^ 32 = k * 8
  omega

/-- The blocks that the assertions of `ide.c` allow. -/
def ideBlocks : Nat := maxDiskNsecs / disk0BlkNsect

theorem sectors_allowed (hpos : 0 < k) (hlim : blkno + k ≤ ideBlocks) :
    blkno * disk0BlkNsect < maxDiskNsecs ∧ blkno * disk0BlkNsect + k * disk0BlkNsect ≤ maxDiskNsecs := by
  have hlim' : blkno + k ≤ 0x10000000 / 8 := hlim
  show blkno * 8 < 0x10000000 ∧ blkno * 8 + k * 8 ≤ 0x10000000
  omega

theorem sectors_few (hk : k ≤ 4) : k * disk0BlkNsect ≤ maxNsecs := by
  show k * 8 ≤ 128
  omega

theorem block_bytes (k : Nat) : k * disk0BlkNsect * sectsize = disk0Blksize * k := by
  show k * 8 * 512 = 4096 * k
  omega

theorem disk0ReadBlksNolock_run (hpos : 0 < k) (hk : k ≤ 4) (hlim : blkno + k ≤ ideBlocks) (hin : blkno + k ≤ d.dBlocks) :
    disk0ReadBlksNolock blkno k d = .ok () { d with
      disk0Buffer := memcpy d.disk0Buffer 0 d.ide.image (disk0Blksize * blkno) (disk0Blksize * k) } := by
  obtain ⟨hsect, hnsecs⟩ := sectors_eq hin
  rw [disk0ReadBlksNolock, Proc.get_bind, hsect, hnsecs, ideReadSecs, ← block_bytes, ← block_bytes]
  have hread := ramdiskNsecs_inside hin
  have hrun : (Proc.check SfsPanic.ideSecs (k * disk0BlkNsect ≤ maxNsecs) : Disk0M Unit) d = .ok () d :=
    Proc.check_run_pos (sectors_few hk) d
  have hrun' : (Proc.check SfsPanic.ideSecs (blkno * disk0BlkNsect < maxDiskNsecs ∧
      blkno * disk0BlkNsect + k * disk0BlkNsect ≤ maxDiskNsecs) : Disk0M Unit) d = .ok () d :=
    Proc.check_run_pos (sectors_allowed hpos hlim) d
  simp only [Proc.bind_run, hrun, hrun', Proc.get_run, Proc.pure_run, setDisk0Buffer, Proc.modify_run, ramdiskRead, hread]

theorem disk0WriteBlksNolock_run (hpos : 0 < k) (hk : k ≤ 4) (hlim : blkno + k ≤ ideBlocks) (hin : blkno + k ≤ d.dBlocks) :
    ∃ d', disk0WriteBlksNolock blkno k d = .ok () d' ∧ d'.ide.size = d.ide.size ∧
      d'.ide.image = memcpy d.ide.image (disk0Blksize * blkno) d.disk0Buffer 0 (disk0Blksize * k) := by
  obtain ⟨hsect, hnsecs⟩ := sectors_eq hin
  refine ⟨{ d with ide := ramdiskWrite d.ide (blkno * disk0BlkNsect) d.disk0Buffer (k * disk0BlkNsect) }, ?_, rfl, ?_⟩
  · rw [disk0WriteBlksNolock, Proc.get_bind, hsect, hnsecs, ideWriteSecs, Proc.check_bind_pos (sectors_few hk),
      Proc.check_bind_pos (sectors_allowed hpos hlim), Proc.modify_run]
  · show memcpy _ _ _ _ _ = _
    rw [ramdiskNsecs_inside hin, block_bytes, block_bytes]

/-! ## The rounds -/

/-- `iobuf_move` of what there is, at most the room in `data`. -/
theorem iobufMove_run {σ : Type} {len alen : Nat} (m2b : Bool) (data : Bytes) (hmin : min iob.ioResid len = alen)
    (hpos : 0 < alen) (s : σ) :
    ∃ code iob', iobufMove iob data 0 len m2b s = .ok (code, iob',
        if m2b = true then data else memcpy data 0 iob.ioBase.1 iob.ioBase.2 alen, alen) s ∧
      iob'.ioBase = (if m2b = true then memcpy iob.ioBase.1 iob.ioBase.2 data 0 alen else iob.ioBase.1, iob.ioBase.2 + alen) ∧
      iob'.ioOffset = iob.ioOffset + alen ∧ iob'.ioLen = iob.ioLen ∧ iob'.ioResid + alen = iob.ioResid := by
  have hle : alen ≤ iob.ioResid := hmin ▸ Nat.min_le_left _ _
  refine ⟨if len - alen = 0 then 0 else -eNoMem, { iob with
    ioBase := (if m2b = true then memcpy iob.ioBase.1 iob.ioBase.2 data 0 alen else iob.ioBase.1, iob.ioBase.2 + alen)
    ioOffset := iob.ioOffset + alen, ioResid := iob.ioResid - alen }, ?_, rfl, rfl, rfl, Nat.sub_add_cancel hle⟩
  rw [iobufMove]
  simp only [hmin, if_pos hpos, iobufSkip, Proc.bind_run, Proc.check_run_pos hle, Proc.pure_run]

/-- The blocks that one round moves. -/
theorem round_blocks (hpos : 0 < n) : ∃ k, 0 < k ∧ k ≤ 4 ∧ k ≤ n ∧ min (disk0Blksize * n) disk0Bufsize = disk0Blksize * k ∧
    toUint32 (disk0Blksize * k / disk0Blksize : Nat) = k := by
  refine ⟨min n 4, by omega, by omega, by omega, ?_, ?_⟩
  · show min (4096 * n) (4 * 4096) = 4096 * min n 4
    omega
  · rw [Nat.mul_div_cancel_left _ (by decide)]
    exact toUint32_natCast (by omega)

/-- A round that writes fills `disk0_buffer` first. -/
theorem disk0IoRound_write (hpos : 0 < k) (hkn : k ≤ n) (hresid : iob.ioResid = disk0Blksize * n)
    (hmin : min (disk0Blksize * n) disk0Bufsize = disk0Blksize * k)
    (hblks : toUint32 (disk0Blksize * k / disk0Blksize : Nat) = k) (blkno : Nat) (d : Disk0) :
    ∃ iob', disk0IoRound true blkno iob (disk0Blksize * n) d =
        (disk0WriteBlksNolock blkno k >>= fun _ => pure (iob', disk0Blksize * k) : Disk0M _)
          { d with disk0Buffer := memcpy d.disk0Buffer 0 iob.ioBase.1 iob.ioBase.2 (disk0Blksize * k) } ∧
      iob'.ioBase = (iob.ioBase.1, iob.ioBase.2 + disk0Blksize * k) ∧ iob'.ioOffset = iob.ioOffset + (disk0Blksize * k : Nat) ∧
      iob'.ioLen = iob.ioLen ∧ iob'.ioResid + disk0Blksize * k = iob.ioResid := by
  have hbytes : 0 < disk0Blksize * k := Nat.mul_pos (by decide) hpos
  have hmod : disk0Blksize * k % disk0Blksize = 0 := Nat.mul_mod_right _ _
  have hle : disk0Blksize * k ≤ disk0Blksize * n := Nat.mul_le_mul_left _ hkn
  obtain ⟨code, iob', hmove, hmoved⟩ := iobufMove_run false d.disk0Buffer (hresid ▸ hmin) hbytes d
  refine ⟨iob', ?_, hmoved⟩
  rw [disk0IoRound, if_pos rfl, Proc.get_bind, Proc.bind_ok hmove]
  simp only [Bool.false_eq_true, if_false, setDisk0Buffer, Proc.modify_bind]
  rw [Proc.check_bind_pos ⟨Nat.pos_iff_ne_zero.mp hbytes, hle, hmod⟩, hblks]

/-- **One round**, of `k` blocks. -/
theorem disk0IoRound_run (write : Bool) (hpos : 0 < k) (hk : k ≤ 4) (hkn : k ≤ n) (hresid : iob.ioResid = disk0Blksize * n)
    (hmin : min (disk0Blksize * n) disk0Bufsize = disk0Blksize * k)
    (hblks : toUint32 (disk0Blksize * k / disk0Blksize : Nat) = k) (hlim : blkno + k ≤ ideBlocks)
    (hin : blkno + k ≤ d.dBlocks) :
    ∃ iob' d', disk0IoRound write blkno iob (disk0Blksize * n) d = .ok (iob', disk0Blksize * k) d' ∧
      IoMoved write (disk0Blksize * blkno) (disk0Blksize * k) d d' iob iob' := by
  have hbytes : 0 < disk0Blksize * k := Nat.mul_pos (by decide) hpos
  have hmod : disk0Blksize * k % disk0Blksize = 0 := Nat.mul_mod_right _ _
  have hle : disk0Blksize * k ≤ disk0Blksize * n := Nat.mul_le_mul_left _ hkn
  cases write with
  | true =>
    -- out of the buffer, and then to the disk
    obtain ⟨iob', hround, hbase, hoffset, hlen, hrest⟩ := disk0IoRound_write hpos hkn hresid hmin hblks blkno d
    generalize hd₁ : ({ d with disk0Buffer := memcpy d.disk0Buffer 0 iob.ioBase.1 iob.ioBase.2 (disk0Blksize * k) } : Disk0) = d₁
      at hround
    have hin₁ : blkno + k ≤ d₁.dBlocks := by
      rw [← hd₁]
      exact hin
    obtain ⟨d', hwrite, hsize, himage⟩ := disk0WriteBlksNolock_run hpos hk hlim hin₁
    refine ⟨iob', d', ?_, ⟨?_, ?_, ?_, ?_, hoffset, hlen, hrest⟩⟩
    · rw [hround, Proc.bind_ok hwrite]
      rfl
    · rw [hsize, ← hd₁]
    · rw [himage, ← hd₁, if_pos rfl]
      exact memcpy_through
    · rw [hbase]
      rfl
    · rw [hbase]
  | false =>
    have hmin' : min disk0Bufsize (disk0Blksize * n) = disk0Blksize * k := by
      rw [Nat.min_comm]
      exact hmin
    have hread := disk0ReadBlksNolock_run hpos hk hlim hin
    generalize hd₁ : ({ d with
      disk0Buffer := memcpy d.disk0Buffer 0 d.ide.image (disk0Blksize * blkno) (disk0Blksize * k) } : Disk0) = d₁ at hread
    obtain ⟨code, iob', hmove, hbase, hoffset, hlen, hrest⟩ :=
      iobufMove_run true d₁.disk0Buffer (by rw [hresid]; exact Nat.min_eq_right hle) hbytes d₁
    refine ⟨iob', d₁, ?_, ⟨?_, ?_, ?_, ?_, hoffset, hlen, hrest⟩⟩
    · rw [disk0IoRound, if_neg (by decide)]
      simp only [hmin', hblks]
      rw [Proc.bind_ok hread, Proc.get_bind, Proc.bind_ok hmove]
      simp only [if_true, setDisk0Buffer, Proc.modify_bind]
      rw [Proc.check_bind_pos ⟨hmin'.symm, hmod⟩]
      rfl
    · rw [← hd₁]
    · rw [← hd₁]
      rfl
    · rw [hbase, ← hd₁]
      exact memcpy_through
    · rw [hbase]

/-- A round beyond the sectors that `ide.c` allows stops the machine. -/
theorem disk0IoRound_panic (hpos : 0 < k) (hk : k ≤ 4) (hkn : k ≤ n) (hresid : iob.ioResid = disk0Blksize * n)
    (hmin : min (disk0Blksize * n) disk0Bufsize = disk0Blksize * k)
    (hblks : toUint32 (disk0Blksize * k / disk0Blksize : Nat) = k) (hlim : ideBlocks < blkno + k)
    (hin : blkno + k ≤ d.dBlocks) : disk0IoRound write blkno iob (disk0Blksize * n) d = .panic .ideSecs := by
  have hbytes : 0 < disk0Blksize * k := Nat.mul_pos (by decide) hpos
  have hmod : disk0Blksize * k % disk0Blksize = 0 := Nat.mul_mod_right _ _
  have hle : disk0Blksize * k ≤ disk0Blksize * n := Nat.mul_le_mul_left _ hkn
  have hout : ¬ (blkno * disk0BlkNsect < maxDiskNsecs ∧ blkno * disk0BlkNsect + k * disk0BlkNsect ≤ maxDiskNsecs) := by
    have hlim' : 0x10000000 / 8 < blkno + k := hlim
    show ¬ (blkno * 8 < 0x10000000 ∧ blkno * 8 + k * 8 ≤ 0x10000000)
    omega
  cases write with
  | true =>
    obtain ⟨iob', hround, -⟩ := disk0IoRound_write hpos hkn hresid hmin hblks blkno d
    obtain ⟨hsect, hnsecs⟩ := sectors_eq hin
    rw [hround]
    refine Proc.bind_panic ?_
    rw [disk0WriteBlksNolock, Proc.get_bind, hsect, hnsecs, ideWriteSecs, Proc.check_bind_pos (sectors_few hk),
      Proc.check_bind_neg hout]
  | false =>
    have hmin' : min disk0Bufsize (disk0Blksize * n) = disk0Blksize * k := by
      rw [Nat.min_comm]
      exact hmin
    obtain ⟨hsect, hnsecs⟩ := sectors_eq hin
    rw [disk0IoRound, if_neg (by decide)]
    simp only [hmin', hblks]
    refine Proc.bind_panic ?_
    rw [disk0ReadBlksNolock, Proc.get_bind, hsect, hnsecs, ideReadSecs]
    exact Proc.bind_panic (by rw [Proc.check_bind_pos (sectors_few hk), Proc.check_bind_neg hout])

/-! ## The loop -/

theorem blocks_left (hkn : k ≤ n) (hin : blkno + n ≤ d.dBlocks)
    (hblks : toUint32 (disk0Blksize * k / disk0Blksize : Nat) = k) :
    (blkno + toUint32 (disk0Blksize * k / disk0Blksize : Nat)) % 2 ^ 32 = blkno + k ∧
      disk0Blksize * n - disk0Blksize * k = disk0Blksize * (n - k) := by
  have hlt := d.dBlocks_lt
  rw [hblks, Nat.mul_sub]
  exact ⟨Nat.mod_eq_of_lt (by omega), rfl⟩

/-- What a round of `k` blocks leaves of `n`. -/
theorem IoMoved.left {d₁ : Disk0} {iob₁ : Iobuf} {start : Nat} (h : IoMoved write start (disk0Blksize * k) d d₁ iob iob₁)
    (hresid : iob.ioResid = disk0Blksize * n) : iob₁.ioResid = disk0Blksize * (n - k) ∧ d₁.dBlocks = d.dBlocks := by
  constructor
  · have hrest := h.resid
    rw [Nat.mul_sub]
    omega
  · rw [Disk0.dBlocks, h.size]
    rfl

/-- **The loop**, by induction on the rounds; the `n` blocks that are left are inside the device. -/
theorem disk0IoLoop_run (write : Bool) (rounds : Nat) (hn : n ≤ rounds) (hresid : iob.ioResid = disk0Blksize * n)
    (hlim : blkno + n ≤ ideBlocks) (hin : blkno + n ≤ d.dBlocks) :
    ∃ iob' d', disk0IoLoop write rounds blkno iob (disk0Blksize * n) d = .ok iob' d' ∧
      IoMoved write (disk0Blksize * blkno) (disk0Blksize * n) d d' iob iob' := by
  induction rounds generalizing n blkno iob d with
  | zero =>
    obtain rfl : n = 0 := by omega
    exact ⟨iob, d, rfl, .refl ..⟩
  | succ rounds ih =>
    by_cases hz : n = 0
    · subst hz
      exact ⟨iob, d, rfl, .refl ..⟩
    · obtain ⟨k, hpos, hk, hkn, hmin, hblks⟩ := round_blocks (Nat.pos_iff_ne_zero.mpr hz)
      obtain ⟨iob₁, d₁, hround, hmoved⟩ :=
        disk0IoRound_run write hpos hk hkn hresid hmin hblks (d := d) (by omega : blkno + k ≤ ideBlocks) (by omega)
      obtain ⟨hresid₁, hblocks⟩ := hmoved.left hresid
      obtain ⟨iob', d', hrun, hmoved'⟩ :=
        ih (by omega) hresid₁ (by omega : blkno + k + (n - k) ≤ ideBlocks) (by rw [hblocks]; omega)
      obtain ⟨hnext, hleft⟩ := blocks_left hkn hin hblks
      refine ⟨iob', d', ?_, ?_⟩
      · rw [disk0IoLoop, if_neg (Nat.mul_ne_zero (by decide) hz), Proc.bind_ok hround]
        show disk0IoLoop write rounds _ iob₁ _ d₁ = _
        rw [hnext, hleft]
        exact hrun
      · -- the two ranges are next to each other
        rw [Nat.mul_add] at hmoved'
        have hall := hmoved.trans hmoved'
        rwa [← Nat.mul_add, Nat.add_sub_cancel' hkn] at hall

/-- The same for a request that ends beyond the sectors that `ide.c` allows. -/
theorem disk0IoLoop_panic (rounds : Nat) (hn : n ≤ rounds) (hpos : 0 < n) (hresid : iob.ioResid = disk0Blksize * n)
    (hlim : ideBlocks < blkno + n) (hin : blkno + n ≤ d.dBlocks) :
    disk0IoLoop write rounds blkno iob (disk0Blksize * n) d = .panic .ideSecs := by
  induction rounds generalizing n blkno iob d with
  | zero => omega
  | succ rounds ih =>
    obtain ⟨k, hk0, hk, hkn, hmin, hblks⟩ := round_blocks hpos
    have hne : disk0Blksize * n ≠ 0 := Nat.mul_ne_zero (by decide) (by omega)
    rw [disk0IoLoop, if_neg hne]
    by_cases hround : blkno + k ≤ ideBlocks
    · obtain ⟨iob₁, d₁, hrun, hmoved⟩ :=
        disk0IoRound_run write hk0 hk hkn hresid hmin hblks hround (d := d) (by omega)
      obtain ⟨hresid₁, hblocks⟩ := hmoved.left hresid
      obtain ⟨hnext, hleft⟩ := blocks_left hkn hin hblks
      rw [Proc.bind_ok hrun]
      show disk0IoLoop write rounds _ iob₁ _ d₁ = _
      rw [hnext, hleft]
      exact ih (by omega) (by omega) hresid₁ (by omega) (by rw [hblocks]; omega)
    · -- the first round that goes beyond the limit stops
      exact Proc.bind_panic (disk0IoRound_panic hk0 hk hkn hresid hmin hblks (by omega) (by omega))

/-! ## Every request -/

/-- Offset and length are multiples of the block size. -/
def Iobuf.Aligned (iob : Iobuf) : Prop := iob.ioOffset % disk0Blksize = 0 ∧ iob.ioResid % disk0Blksize = 0

/-- The range lies inside the device. -/
def Disk0.Inside (d : Disk0) (iob : Iobuf) : Prop := 0 ≤ iob.ioOffset ∧ iob.ioOffset + iob.ioResid ≤ (disk0Blksize * d.dBlocks : Nat)

/-- **What `disk0_io` is to do**: transfer the range, or refuse the request and change nothing. -/
def Disk0.Serves (d : Disk0) (iob : Iobuf) (write : Bool) : Prop :=
  (iob.Aligned ∧ d.Inside iob → ∃ iob' d', disk0Io iob write d = .ok (0, iob') d' ∧
    IoMoved write iob.ioOffset.toNat iob.ioResid d d' iob iob') ∧
  (¬ (iob.Aligned ∧ d.Inside iob) → disk0Io iob write d = .ok (-eInval, iob) d)

/-- `blkno + nblks`, in 32 bits -/
def Iobuf.endBlock (iob : Iobuf) : Nat :=
  (toUint32 (iob.ioOffset.tdiv disk0Blksize) + toUint32 (iob.ioResid / disk0Blksize : Nat)) % 2 ^ 32

/-- **The condition** on a request for whole blocks: inside the device it is empty or ends within the sectors that `ide.c`
allows; not inside, its end is beyond the device in 32 bits as well. -/
def Disk0.TestExact (d : Disk0) (iob : Iobuf) : Prop :=
  iob.Aligned → (d.Inside iob → iob.ioResid = 0 ∨ iob.ioOffset + iob.ioResid ≤ (sectsize * maxDiskNsecs : Nat)) ∧
    (¬ d.Inside iob → d.dBlocks < iob.endBlock)

theorem disk0Io_unaligned (h : ¬ iob.Aligned) : disk0Io iob write d = .ok (-eInval, iob) d := by
  have hcond : iob.ioOffset.tmod disk0Blksize ≠ 0 ∨ iob.ioResid % disk0Blksize ≠ 0 := by
    by_contra hc
    obtain ⟨hoff, hresid⟩ := not_or.mp hc
    exact h ⟨Int.emod_eq_zero_of_dvd (Int.dvd_of_tmod_eq_zero (not_not.mp hoff)), not_not.mp hresid⟩
  rw [disk0Io, Proc.get_bind]
  simp only [if_pos hcond]
  rfl

/-- Behind the test of the alignment. -/
theorem disk0Io_aligned (h : iob.Aligned) : disk0Io iob write d =
    (if d.dBlocks < iob.endBlock then pure (-eInval, iob)
    else if toUint32 (iob.ioResid / disk0Blksize : Nat) = 0 then pure (0, iob)
    else do
      let iob' ← disk0IoLoop write (iob.ioResid / disk0Blksize) (toUint32 (iob.ioOffset.tdiv disk0Blksize)) iob iob.ioResid
      pure (0, iob') : Disk0M (Int × Iobuf)) d := by
  have hcond : ¬ (iob.ioOffset.tmod disk0Blksize ≠ 0 ∨ iob.ioResid % disk0Blksize ≠ 0) := by
    rintro (hc | hc)
    · exact hc (Int.tmod_eq_zero_of_dvd (Int.dvd_of_emod_eq_zero h.1))
    · exact hc h.2
  rw [disk0Io, Proc.get_bind]
  simp only [if_neg hcond, Iobuf.endBlock]
  rfl

/-- Behind the test against `d_blocks` the code is 0. -/
theorem disk0Io_passed {code : Int} {iob' : Iobuf} (h : iob.Aligned) (hpass : ¬ d.dBlocks < iob.endBlock)
    (hrun : disk0Io iob write d = .ok (code, iob') d') : code = 0 := by
  rw [disk0Io_aligned h, if_neg hpass] at hrun
  by_cases hz : toUint32 (iob.ioResid / disk0Blksize : Nat) = 0
  · rw [if_pos hz] at hrun
    cases hrun
    rfl
  · rw [if_neg hz] at hrun
    obtain ⟨iob₁, d₁, -, hend⟩ := Proc.bind_eq_ok.mp hrun
    cases hend
    rfl

/-- A request for whole blocks inside the device, in numbers of blocks. -/
theorem inside_blocks (h : iob.Aligned) (hin : d.Inside iob) : ∃ blkno n : Nat, iob.ioOffset = (disk0Blksize * blkno : Nat) ∧
    iob.ioResid = disk0Blksize * n ∧ blkno + n ≤ d.dBlocks ∧ toUint32 (iob.ioOffset.tdiv disk0Blksize) = blkno ∧
    toUint32 (iob.ioResid / disk0Blksize : Nat) = n ∧ iob.endBlock = blkno + n := by
  have hlt := d.dBlocks_lt
  obtain ⟨o, ho⟩ := Int.dvd_of_emod_eq_zero h.1
  obtain ⟨n, hn⟩ := Nat.dvd_of_mod_eq_zero h.2
  obtain ⟨h0, hle⟩ := hin
  have ho' : iob.ioOffset = 4096 * o := ho
  have hn' : iob.ioResid = 4096 * n := hn
  have hle' : iob.ioOffset + iob.ioResid ≤ (4096 * d.dBlocks : Nat) := hle
  have hblk : toUint32 (iob.ioOffset.tdiv disk0Blksize) = o.toNat := by
    rw [ho, Int.mul_tdiv_cancel_left _ (by decide)]
    unfold toUint32
    omega
  have hnblks : toUint32 (iob.ioResid / disk0Blksize : Nat) = n := by
    rw [hn, Nat.mul_div_cancel_left _ (by decide)]
    exact toUint32_natCast (by omega)
  refine ⟨o.toNat, n, ?_, hn, by omega, hblk, hnblks, ?_⟩
  · show iob.ioOffset = (4096 * o.toNat : Nat)
    omega
  · rw [Iobuf.endBlock, hblk, hnblks]
    exact Nat.mod_eq_of_lt (by omega)

/-- **A request inside the device** is served. -/
theorem disk0Io_inside (write : Bool) (h : iob.Aligned) (hin : d.Inside iob)
    (hlim : iob.ioResid = 0 ∨ iob.ioOffset + iob.ioResid ≤ (sectsize * maxDiskNsecs : Nat)) :
    ∃ iob' d', disk0Io iob write d = .ok (0, iob') d' ∧ IoMoved write iob.ioOffset.toNat iob.ioResid d d' iob iob' := by
  obtain ⟨blkno, n, hoff, hresid, hle, hblk, hnblks, hend⟩ := inside_blocks h hin
  rw [disk0Io_aligned h, hend, if_neg (by omega), hnblks, hblk]
  by_cases hn : n = 0
  · rw [if_pos hn, hresid, hn]
    exact ⟨iob, d, rfl, .refl ..⟩
  · have hlim' : blkno + n ≤ ideBlocks := by
      have hres' : iob.ioResid = 4096 * n := hresid
      have hoff' : iob.ioOffset = (4096 * blkno : Nat) := hoff
      have hlim₀ : iob.ioOffset + iob.ioResid ≤ (512 * 0x10000000 : Nat) := by
        rcases hlim with hz | hlim
        · omega
        · exact hlim
      show blkno + n ≤ 0x10000000 / 8
      omega
    obtain ⟨iob', d', hrun, hmoved⟩ := disk0IoLoop_run write n (Nat.le_refl n) hresid hlim' hle
    rw [if_neg hn, hresid, Nat.mul_div_cancel_left _ (by decide), Proc.bind_ok hrun, hoff, Int.toNat_natCast]
    exact ⟨iob', d', rfl, hmoved⟩

/-- One that ends beyond the sectors that `ide.c` allows stops the machine. -/
theorem disk0Io_panic (h : iob.Aligned) (hin : d.Inside iob) (hpos : iob.ioResid ≠ 0)
    (hlim : ¬ iob.ioOffset + iob.ioResid ≤ (sectsize * maxDiskNsecs : Nat)) : disk0Io iob write d = .panic .ideSecs := by
  obtain ⟨blkno, n, hoff, hresid, hle, hblk, hnblks, hend⟩ := inside_blocks h hin
  have hn : n ≠ 0 := by
    rintro rfl
    exact hpos hresid
  have hlim' : ideBlocks < blkno + n := by
    have hres' : iob.ioResid = 4096 * n := hresid
    have hoff' : iob.ioOffset = (4096 * blkno : Nat) := hoff
    have hlim₀ : ¬ iob.ioOffset + iob.ioResid ≤ (512 * 0x10000000 : Nat) := hlim
    show 0x10000000 / 8 < blkno + n
    omega
  rw [disk0Io_aligned h, hend, if_neg (by omega), hnblks, hblk, if_neg hn, hresid, Nat.mul_div_cancel_left _ (by decide)]
  exact Proc.bind_panic (disk0IoLoop_panic n (Nat.le_refl n) (Nat.pos_iff_ne_zero.mpr hn) hresid hlim' hle)

/-- **`disk0_io`** does what it is to do exactly for the requests on which its test is exact. -/
theorem disk0_io_serves (d : Disk0) (iob : Iobuf) (write : Bool) : d.Serves iob write ↔ d.TestExact iob := by
  by_cases hal : iob.Aligned
  · by_cases hin : d.Inside iob
    · -- inside the device
      constructor
      · rintro ⟨hserve, -⟩
        refine fun _ => ⟨fun _ => ?_, fun hout => absurd hin hout⟩
        by_contra hc
        obtain ⟨hpos, hlim⟩ := not_or.mp hc
        obtain ⟨iob', d', hrun, -⟩ := hserve ⟨hal, hin⟩
        rw [disk0Io_panic hal hin hpos hlim] at hrun
        cases hrun
      · intro htest
        exact ⟨fun _ => disk0Io_inside write hal hin ((htest hal).1 hin), fun hout => absurd ⟨hal, hin⟩ hout⟩
    · -- not inside: refused or not
      constructor
      · rintro ⟨-, hrefuse⟩
        refine fun _ => ⟨fun h => absurd h hin, fun _ => ?_⟩
        by_contra hpass
        have hcode := disk0Io_passed hal hpass (hrefuse fun h => hin h.2)
        exact absurd hcode (by decide)
      · intro htest
        refine ⟨fun h => absurd h.2 hin, fun _ => ?_⟩
        rw [disk0Io_aligned hal, if_pos ((htest hal).2 hin)]
        rfl
  · refine iff_of_true ⟨fun h => absurd h.1 hal, fun _ => disk0Io_unaligned hal⟩ fun h => absurd h hal

/-- A disk of one block. -/
def oneBlock : Disk0 := { ide := { size := 8, image := fun _ => 0, size_lt := by decide }, disk0Buffer := fun _ => 0 }

/-- A request for the block at `2 ^ 44`, which is block `2 ^ 32`: it gets block 0. -/
theorem disk0_io_far : ∃ iob : Iobuf, iob.ioOffset = 2 ^ 44 ∧ iob.ioResid = 4096 ∧ ¬ oneBlock.Inside iob ∧
    (∃ iob' d', disk0Io iob false oneBlock = .ok (0, iob') d') ∧ ¬ oneBlock.Serves iob false := by
  let iob : Iobuf := iobufInit (fun _ => 0, 0) 4096 (2 ^ 44)
  have hal : iob.Aligned := ⟨by decide, by decide⟩
  have hpass : ¬ oneBlock.dBlocks < iob.endBlock := by decide
  have hout : ¬ oneBlock.Inside iob := fun hin => absurd hin.2 (by decide)
  have hrun : (disk0Io iob false oneBlock).test (fun r _ => decide (r.1 = 0)) = true := by decide +kernel
  obtain ⟨⟨code, iob'⟩, d', hrun, hcode⟩ := Outcome.exists_of_test hrun
  obtain rfl : code = 0 := of_decide_eq_true hcode
  refine ⟨iob, rfl, rfl, hout, ⟨iob', d', hrun⟩, fun hserve => ?_⟩
  have hcode := disk0Io_passed hal hpass (hserve.2 fun h => hout h.2)
  exact absurd hcode (by decide)

end Ucore
