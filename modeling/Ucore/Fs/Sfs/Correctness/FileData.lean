import Ucore.Fs.Sfs.Correctness.SizeBlocks

/-!
# `Fs.Sfs.Correctness.FileData` — the bytes of a file

A file is the concatenation of the disk blocks that `sfs_bmap_get_nolock` gives for its indices
(`SfsCtx.data`). A read copies a range of these bytes into the buffer and changes no block (`ReadTo`); a
write replaces the range by the buffer, and leaves every other byte of the file and every block that
neither belongs to the file nor is free as it was (`WrittenTo`). Both are shown round by round.
-/

namespace Ucore

open SfsFs SfsCtx

variable {c c' c'' : SfsCtx} {R : Set Nat} {i a start endpos p : Nat} {buf buf' : Bytes}

namespace SfsCtx

/-- The block that `sfs_bmap_get_nolock` gives for the index `i`. -/
def blockAt (c : SfsCtx) (i : Nat) : Nat :=
  match sfsBmapGetNolock i false c with
  | .ok b _  => b
  | .err _ _ => 0
  | .panic _ => 0

/-- Byte `p` of the file. -/
def data (c : SfsCtx) (p : Nat) : UInt8 := c.fs.dev.blk (c.blockAt (p / 4096)) (p % 4096)

theorem blockAt_eq (h : FileInv c R) (hh : c.fs.Healthy) (hi : i < 1036) : c.blockAt i = c.lookup i := by
  obtain ⟨k, x, hrun | ⟨-, hf, -⟩⟩ := sfsBmapGetNolock_find false h hi (Or.inr rfl)
  · unfold blockAt
    rw [hrun]
  · exact absurd (hh.fault 0) hf

/-- The same byte, found without the device. -/
def byteAt (c : SfsCtx) (p : Nat) : UInt8 := c.fs.dev.blk (c.lookup (p / 4096)) (p % 4096)

theorem data_eq (h : FileInv c R) (hh : c.fs.Healthy) (hp : p / 4096 < c.sin.din.blocks) : c.data p = c.byteAt p := by
  unfold data byteAt
  rw [blockAt_eq h hh (Nat.lt_of_lt_of_le hp h.blocks_le)]

end SfsCtx

/-! ## One round -/

/-- Loading an index changes no byte the file had. -/
theorem Loaded.byteAt {b : Nat} (h : FileInv c R) (hl : Loaded R i b c c') (hi : i ≤ c.sin.din.blocks)
    (hp : p / 4096 < c.sin.din.blocks) : c'.byteAt p = c.byteAt p := by
  have hlt : p / 4096 < 1036 := Nat.lt_of_lt_of_le hp h.blocks_le
  have hne : c.lookup (p / 4096) ≠ 0 := (h.dense _ hlt).mpr hp
  unfold SfsCtx.byteAt
  rcases Nat.lt_or_eq_of_le hi with hold | hnew
  · obtain ⟨-, hblk, hsin⟩ := hl.old hold
    have hlook := @lookup_congr c c' (by rw [hsin]) (by rw [hsin]) (fun _ => by rw [hblk]) (p / 4096)
    rw [hlook, hblk]
  · rw [hl.other _ hlt (by omega), hl.grows.disk _ (h.lookup_inUse hlt hne)]
    rintro ⟨-, -, he⟩
    exact h.lookup_ne_indirect hlt hne he

/-- Writing the block at index `i` changes the bytes of that block only. -/
theorem byteAt_setData (h : FileInv c R) (hi : i < c.sin.din.blocks) (hp : p / 4096 < c.sin.din.blocks) (x : Bytes) :
    (c.setData i x).byteAt p = if p / 4096 = i then x (p % 4096) else c.byteAt p := by
  have hi' := Nat.lt_of_lt_of_le hi h.blocks_le
  have hp' := Nat.lt_of_lt_of_le hp h.blocks_le
  have hz : c.lookup i ≠ 0 := (h.dense i hi').mpr hi
  unfold SfsCtx.byteAt
  rw [h.lookup_setData hi' hz x]
  by_cases he : p / 4096 = i
  · subst he
    rw [if_pos rfl]
    exact congrFun (Function.update_self ..) _
  · rw [if_neg he]
    apply congrFun
    apply blk_setBlk_of_ne
    exact fun hlook => he (h.lookup_inj hp' hi' hlook ((h.dense _ hp').mpr hp))

/-! ## Reading -/

/-- The first `a` bytes have been read. -/
structure ReadTo (start : Nat) (buf : Bytes) (c : SfsCtx) (a : Nat) (buf' : Bytes) (c' : SfsCtx) : Prop where
  sin : c'.sin = c.sin
  blk : c'.fs.dev.blk = c.fs.dev.blk
  buf : ∀ k, buf' k = if k < a then c.byteAt (start + k) else buf k

theorem ReadTo.lookup (h : ReadTo start buf c a buf' c') (i : Nat) : c'.lookup i = c.lookup i :=
  @lookup_congr c c' (by rw [h.sin]) (by rw [h.sin]) (fun _ => by rw [h.blk]) i

/-- The rounds of a read within the file. -/
theorem IoDone.readTo (h : FileInv c R) (hd : IoDone false start endpos buf c a buf' c')
    (hend : (endpos + 4095) / 4096 ≤ c.sin.din.blocks) : ReadTo start buf c a buf' c' := by
  induction hd with
  | start => exact ⟨rfl, rfl, fun k => (if_neg (Nat.not_lt_zero k)).symm⟩
  | @next a buf' buf'' c' c'' hd hlt hp ih =>
    obtain ⟨b, c₁, k, x, hib, hi', hl, rfl, rfl⟩ := ioPiece_done (hd.grown h).inv hlt hp
    have hidx : (start + a) / 4096 < c'.sin.din.blocks := by
      rw [ih.sin]
      omega
    obtain ⟨-, hblk, hsin⟩ := hl.old hidx
    have hround : roundState false start endpos a buf' ((start + a) / 4096) c₁ = c₁ := if_neg Bool.false_ne_true
    rw [hround]
    refine ⟨hsin.trans ih.sin, hblk.trans ih.blk, fun j => ?_⟩
    have hlook : c₁.lookup ((start + a) / 4096) = c.lookup ((start + a) / 4096) := by
      rw [← ih.lookup]
      exact @lookup_congr c' c₁ (by rw [hsin]) (by rw [hsin]) (fun _ => by rw [hblk]) _
    unfold roundBuf
    rw [if_neg Bool.false_ne_true, hlook, hblk, ih.blk]
    by_cases hj : a ≤ j ∧ j < a + pieceSize start endpos a
    · -- a byte of this round
      have hsize : pieceSize start endpos a ≤ 4096 - (start + a) % 4096 := Nat.min_le_left ..
      have hdiv : (start + j) / 4096 = (start + a) / 4096 := by omega
      have hmod : (start + a) % 4096 + (j - a) = (start + j) % 4096 := by omega
      rw [memcpy_in hj, if_pos hj.2, hmod]
      unfold SfsCtx.byteAt
      rw [hdiv]
    · rw [memcpy_out hj, ih.buf]
      by_cases hja : j < a
      · rw [if_pos hja, if_pos (by omega)]
      · rw [if_neg hja, if_neg (by omega)]

/-! ## Writing -/

/-- The first `a` bytes have been written. -/
structure WrittenTo (start : Nat) (buf : Bytes) (c : SfsCtx) (a : Nat) (buf' : Bytes) (c' : SfsCtx) : Prop where
  same : buf' = buf
  inside : ∀ k, k < a → c'.byteAt (start + k) = buf k
  outside : ∀ p, p / 4096 < c.sin.din.blocks → ¬ (start ≤ p ∧ p < start + a) → c'.byteAt p = c.byteAt p

/-- The rounds of a write. -/
theorem IoDone.writtenTo (h : FileInv c R) (hd : IoDone true start endpos buf c a buf' c') :
    WrittenTo start buf c a buf' c' := by
  induction hd with
  | start => exact ⟨rfl, fun k hk => absurd hk (Nat.not_lt_zero k), fun _ _ _ => rfl⟩
  | @next a buf' buf'' c' c'' hd hlt hp ih =>
    have hg := hd.grown h
    obtain ⟨b, c₁, k, x, hib, hi', hl, hbuf, rfl⟩ := ioPiece_done hg.inv hlt hp
    have hblocks := hl.blocks
    have hsize : pieceSize start endpos a ≤ 4096 - (start + a) % 4096 := Nat.min_le_left ..
    have hlt₁ : (start + a) / 4096 < c₁.sin.din.blocks := by omega
    -- what this round makes of a byte of the loaded file
    have hbyte : ∀ p, p / 4096 < c₁.sin.din.blocks →
        ((roundState true start endpos a buf' ((start + a) / 4096) c₁).scratch k x).byteAt p =
          if start + a ≤ p ∧ p < start + (a + pieceSize start endpos a) then buf' (p - start) else c₁.byteAt p := by
      intro p hp
      have hround := byteAt_setData hl.inv hlt₁ hp (memcpy (c₁.fs.dev.blk (c₁.lookup ((start + a) / 4096)))
        ((start + a) % 4096) buf' a (pieceSize start endpos a))
      refine Eq.trans ?_ (hround.trans ?_)
      · unfold roundState
        rw [if_pos rfl]
        rfl
      · by_cases hin : start + a ≤ p ∧ p < start + (a + pieceSize start endpos a)
        · have hmod : p % 4096 = (start + a) % 4096 + (p - (start + a)) := by omega
          rw [if_pos (by omega), if_pos hin, memcpy_in (by omega), hmod]
          congr 1
          omega
        · rw [if_neg hin]
          split
          · next he =>
            rw [memcpy_out (by omega)]
            unfold SfsCtx.byteAt
            rw [he]
          · rfl
    have hold : ∀ p, p / 4096 < c'.sin.din.blocks → c₁.byteAt p = c'.byteAt p := fun p hp =>
      hl.byteAt hg.inv hib hp
    refine ⟨(hbuf.trans (if_pos rfl)).trans ih.same, fun j hj => ?_, fun p hp hout => ?_⟩
    · by_cases hja : j < a
      · -- a byte of an earlier round, in a block the file had before this one
        have hidx : (start + j) / 4096 < c'.sin.din.blocks := by
          have := hd.aligned hlt
          rw [hd.blocks h]
          split <;> omega
        rw [hbyte _ (by omega), if_neg (by omega), hold _ hidx]
        exact ih.inside j hja
      · rw [hbyte _ (by omega), if_pos (by omega), ih.same, Nat.add_sub_cancel_left]
    · have hidx : p / 4096 < c'.sin.din.blocks := Nat.lt_of_lt_of_le hp hg.blocks_le
      rw [hbyte _ (by omega), if_neg (by omega), hold _ hidx]
      exact ih.outside p hp (by omega)

/-! ## The whole call -/

section Call

variable {write : Bool} {offset len : Nat}

/-- A call past its checks that has nothing to transfer. -/
theorem sfsIoNolock_nothing (buf : Bytes) (htype : c.sin.din.type ≠ sfsTypeDir) (hmax : offset < sfsMaxFileSize)
    (hlen : offset + len < 2 ^ 63) (h : ioLimit c offset len write ≤ offset) :
    sfsIoNolock buf offset len write c = .ok ⟨0, 0, buf⟩ c := by
  have ht : ¬ IoTransfers c offset len write := fun ht => Nat.not_lt.mpr h ht.2.2.2
  have heq : ioEndpos offset len = (offset : Int) + len := ioEndpos_eq (Int.natCast_nonneg offset) (by omega)
  have hmax' : (offset : Int) < sfsMaxFileSize := Int.ofNat_lt.mpr hmax
  unfold sfsIoNolock
  rw [Proc.get_bind, Proc.check_bind_pos htype, heq]
  simp only [if_neg (show ¬ ((offset : Int) < 0 ∨ (sfsMaxFileSize : Int) ≤ offset ∨ (offset : Int) + len < offset) by omega)]
  by_cases hz : (offset : Int) = offset + len
  · rw [if_pos hz]
    rfl
  · have hread : write = false ∧ c.sin.din.size ≤ (offset : Int).toNat := by
      unfold ioLimit at h
      cases write with
      | false =>
        rw [if_pos rfl] at h
        exact ⟨rfl, by omega⟩
      | true =>
        rw [if_neg (by decide)] at h
        omega
    rw [if_neg hz, if_pos hread]
    rfl

/-- With the free blocks it takes, on a working device, all rounds go through. -/
theorem sfsIoNolock_done (buf : Bytes) (h : FileInv c R) (hh : c.fs.Healthy) (htype : c.sin.din.type ≠ sfsTypeDir)
    (ht : IoTransfers c offset len write) (hs : offset / 4096 ≤ c.sin.din.blocks)
    (hend : ioLimit c offset len write = endpos) (hmap : endpos ≤ 1036 * 4096)
    (hroom : c.needAll (blocksFor endpos) ≤ c.fs.freemap.setBits) :
    ∃ b c', IoDone write offset endpos buf c (endpos - offset) b c' ∧ sfsIoNolock buf offset len write c
      = .ok ⟨0, endpos - offset, b⟩ (c'.reach (endpos + ioStepped offset endpos)) := by
  rcases sfsIoNolock_cases buf htype ht (Int.toNat_natCast offset) hend with hdone |
    ⟨a, b, c₁, c₂, e, hd, hl, hp, -, -⟩ | ⟨a, b, c₁, p, hd, hl, hp, -⟩
  · exact hdone
  · have hidx : (offset + a) / 4096 < blocksFor endpos := by
      rw [blocksFor_eq]
      omega
    exact absurd hp (hd.not_err h hl hs hh (fun _ => hidx) hroom)
  · exact absurd hp (ioPiece_ne_panic (hd.grown h).inv hl (hd.index_le h hl hs) (by omega))

theorem byteAt_reach (c : SfsCtx) (n p : Nat) : (c.reach n).byteAt p = c.byteAt p := by
  unfold SfsCtx.reach
  split <;> rfl

theorem fs_reach (c : SfsCtx) (n : Nat) : (c.reach n).fs = c.fs := by
  unfold SfsCtx.reach
  split <;> rfl

/-- **Reading.** -/
theorem sfsIoNolock_read (buf : Bytes) (h : FileInv c R) (hh : c.fs.Healthy) (htype : c.sin.din.type ≠ sfsTypeDir)
    (hfit : c.sin.din.blocks = blocksFor c.sin.din.size) (hoff : offset ≤ c.sin.din.size)
    (hlen : offset + len < 2 ^ 63) : ∃ r c', sfsIoNolock buf offset len false c = .ok r c' ∧ r.ret = 0 ∧
      r.alen = min len (c.sin.din.size - offset) ∧
      (∀ k, r.buf k = if k < r.alen then c.data (offset + k) else buf k) ∧ c'.fs.dev.blk = c.fs.dev.blk := by
  have hsize : c.sin.din.size ≤ 1036 * 4096 := by
    have := h.blocks_le
    rw [blocksFor_eq] at hfit
    omega
  have hmax : offset < sfsMaxFileSize := by
    unfold sfsMaxFileSize
    omega
  have hlim : ioLimit c offset len false = min (offset + len) c.sin.din.size := by
    unfold ioLimit sfsMaxFileSize
    rw [if_pos rfl]
    omega
  by_cases ht : IoTransfers c offset len false
  · have hlt : offset < ioLimit c offset len false := ht.2.2.2
    have hfits : blocksFor (min (offset + len) c.sin.din.size) ≤ c.sin.din.blocks := by
      rw [hfit]
      exact blocksFor_mono (Nat.min_le_right ..)
    have hroom : c.needAll (blocksFor (min (offset + len) c.sin.din.size)) ≤ c.fs.freemap.setBits := by
      unfold SfsCtx.needAll
      rw [if_neg (by omega)]
      omega
    have hs : offset / 4096 ≤ c.sin.din.blocks := by
      rw [hfit, blocksFor_eq]
      omega
    rw [blocksFor_eq] at hfits
    obtain ⟨b, c', hd, hrun⟩ := sfsIoNolock_done buf h hh htype ht hs hlim (by omega) hroom
    have hr := hd.readTo h hfits
    refine ⟨_, _, hrun, rfl, ?_, fun k => ?_, ?_⟩
    · show min (offset + len) c.sin.din.size - offset = _
      omega
    · show b k = if k < min (offset + len) c.sin.din.size - offset then _ else _
      rw [hr.buf]
      split
      · have hidx : (offset + k) / 4096 < c.sin.din.blocks := by
          rw [hfit, blocksFor_eq]
          omega
        exact (data_eq h hh hidx).symm
      · rfl
    · rw [fs_reach]
      exact hr.blk
  · have hle : ioLimit c offset len false ≤ offset := by
      refine Nat.le_of_not_lt fun hlt => ht ⟨Int.natCast_nonneg _, Int.ofNat_lt.mpr hmax, by omega, hlt⟩
    refine ⟨_, _, sfsIoNolock_nothing buf htype hmax hlen hle, rfl, ?_, fun k => (if_neg (Nat.not_lt_zero k)).symm,
      rfl⟩
    rw [hlim] at hle
    show 0 = _
    omega

/-- **Writing.** -/
theorem sfsIoNolock_write (buf : Bytes) (h : FileInv c R) (hh : c.fs.Healthy) (htype : c.sin.din.type ≠ sfsTypeDir)
    (hfit : c.sin.din.blocks = blocksFor c.sin.din.size) (hoff : offset ≤ c.sin.din.size)
    (hmap : offset + len ≤ 1036 * 4096) (hroom : c.needAll (blocksFor (offset + len)) ≤ c.fs.freemap.setBits) :
    ∃ r c', sfsIoNolock buf offset len true c = .ok r c' ∧ r.ret = 0 ∧ r.alen = len ∧
      (∀ k, k < len → c'.data (offset + k) = buf k) ∧
      (∀ p, p / 4096 < c.sin.din.blocks → ¬ (offset ≤ p ∧ p < offset + len) → c'.data p = c.data p) ∧
      (∀ b, ¬ c.fs.Free b → b ∉ c.owned → c'.fs.dev.blk b = c.fs.dev.blk b) := by
  have hmax : offset < sfsMaxFileSize := by
    unfold sfsMaxFileSize
    omega
  have hlim : ioLimit c offset len true = offset + len := by
    unfold ioLimit sfsMaxFileSize
    rw [if_neg (by decide)]
    omega
  by_cases ht : IoTransfers c offset len true
  · have hs : offset / 4096 ≤ c.sin.din.blocks := by
      rw [hfit, blocksFor_eq]
      omega
    have hlt : offset < offset + len := hlim ▸ ht.2.2.2
    obtain ⟨b, c', hd, hrun⟩ := sfsIoNolock_done buf h hh htype ht hs hlim hmap hroom
    have hw := hd.writtenTo h
    have hg := hd.grown h
    have hb := hd.blocks_end h hlt
    have hinv := hg.inv.reach (offset + len + ioStepped offset (offset + len))
    have hh' : (c'.reach (offset + len + ioStepped offset (offset + len))).fs.Healthy := by
      rw [fs_reach]
      exact hg.grows.static.healthy hh
    have hdata : ∀ p, p / 4096 < c'.sin.din.blocks →
        (c'.reach (offset + len + ioStepped offset (offset + len))).data p = c'.byteAt p := by
      intro p hp
      rw [data_eq hinv hh' (by rwa [blocks_reach]), byteAt_reach]
    rw [Nat.add_sub_cancel_left] at hw hrun
    refine ⟨_, _, hrun, rfl, rfl, fun k hk => ?_, fun p hp hout => ?_, fun b hfree hown => ?_⟩
    · rw [hdata _ (by rw [hb, blocksFor_eq]; omega)]
      exact hw.inside k hk
    · rw [hdata _ (by omega), data_eq h hh hp]
      exact hw.outside p hp hout
    · rw [fs_reach]
      exact hg.grows.keep b hfree hown
  · have hle : ioLimit c offset len true ≤ offset := by
      refine Nat.le_of_not_lt fun hlt => ht ⟨Int.natCast_nonneg _, Int.ofNat_lt.mpr hmax, by omega, hlt⟩
    refine ⟨_, _, sfsIoNolock_nothing buf htype hmax (by omega) hle, rfl, ?_, fun k hk => ?_, fun _ _ _ => rfl,
      fun _ _ _ => rfl⟩
    · show 0 = len
      omega
    · omega

/-- **The file data law.** -/
theorem sfs_file_data (buf : Bytes) (h : FileInv c R) (hh : c.fs.Healthy) (htype : c.sin.din.type ≠ sfsTypeDir)
    (hfit : c.sin.din.blocks = blocksFor c.sin.din.size) (hoff : offset ≤ c.sin.din.size) :
    (offset + len < 2 ^ 63 → ∃ r c', sfsIoNolock buf offset len false c = .ok r c' ∧ r.ret = 0 ∧
      r.alen = min len (c.sin.din.size - offset) ∧
      (∀ k, r.buf k = if k < r.alen then c.data (offset + k) else buf k) ∧ c'.fs.dev.blk = c.fs.dev.blk) ∧
    (offset + len ≤ 1036 * 4096 → c.needAll (blocksFor (offset + len)) ≤ c.fs.freemap.setBits →
      ∃ r c', sfsIoNolock buf offset len true c = .ok r c' ∧ r.ret = 0 ∧ r.alen = len ∧
        (∀ k, k < len → c'.data (offset + k) = buf k) ∧
        (∀ p, p / 4096 < c.sin.din.blocks → ¬ (offset ≤ p ∧ p < offset + len) → c'.data p = c.data p) ∧
        (∀ b, ¬ c.fs.Free b → b ∉ c.owned → c'.fs.dev.blk b = c.fs.dev.blk b)) :=
  ⟨sfsIoNolock_read buf h hh htype hfit hoff, sfsIoNolock_write buf h hh htype hfit hoff⟩

/-- Ten bytes written to the empty file. -/
theorem sfs_file_data_tenBytes : ∃ r c', sfsIoNolock (fun _ => 7) (0 : Nat) 10 true emptyFile = .ok r c' ∧
    r.alen = 10 ∧ ∀ k, k < 10 → c'.data (0 + k) = 7 := by
  have hroom : emptyFile.needAll (blocksFor (0 + 10)) ≤ emptyFile.fs.freemap.setBits := by decide
  obtain ⟨r, c', hrun, -, halen, hin, -⟩ := (sfs_file_data (fun _ => 7) emptyFile_inv (fun _ => rfl) (by decide)
    (by decide) (Nat.le_refl 0)).2 (by decide) hroom
  exact ⟨r, c', hrun, halen, hin⟩

end Call

end Ucore
