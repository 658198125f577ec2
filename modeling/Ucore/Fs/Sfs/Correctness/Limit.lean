import Ucore.Fs.Sfs.Correctness.SizeBlocks

/-!
# `Fs.Sfs.Correctness.Limit` — the size limit and the block map

The three entry points let everything through up to `SFS_MAX_FILE_SIZE`, that is 128M. The block map ends
after 12 direct and 1024 indirect blocks, a little above 4M. A call that asks for more than that loads one
block after the other until `sfs_bmap_get_nolock` stops the machine with `index out of range`.
-/

namespace Ucore

open SfsFs SfsCtx

variable {c c' : SfsCtx} {R : Set Nat} {offset : Int} {len : Nat} {write : Bool} {buf : Bytes}

namespace FileOp

/-- The call gets past its checks, with bytes to transfer or a size to change. -/
def Accepted (c : SfsCtx) : FileOp → Prop
  | .read _ offset len  => IoTransfers c offset len false
  | .write _ offset len => IoTransfers c offset len true
  | .tryseek pos        => 0 ≤ pos ∧ pos < sfsMaxFileSize ∧ c.sin.din.size < pos
  | .truncfile len      => 0 ≤ len ∧ len ≤ sfsMaxFileSize ∧ c.sin.din.size ≠ len.toNat
  | .other _            => False

/-- The offset at which the call ends. -/
def endpos (c : SfsCtx) : FileOp → Nat
  | .read _ offset len  => ioLimit c offset.toNat len false
  | .write _ offset len => ioLimit c offset.toNat len true
  | .tryseek pos        => pos.toNat
  | .truncfile len      => len.toNat
  | .other _            => 0

/-- The block at which the call starts, as far as it does not start at the end of the file. -/
def first : FileOp → Nat
  | .read _ offset _  => offset.toNat / 4096
  | .write _ offset _ => offset.toNat / 4096
  | .tryseek _        => 0
  | .truncfile _      => 0
  | .other _          => 0

/-- The checks accept the call, but it goes past the last block of the block map. -/
def PastMap (c : SfsCtx) (op : FileOp) : Prop := op.Accepted c ∧ 1036 * 4096 < op.endpos c

end FileOp

/-! ## Transfers -/

/-- A transfer that runs out of the block map, in any state. -/
theorem sfsIoNolock_outOfRange (hlen : len < 2 ^ 64) (h : sfsIoNolock buf offset len write c = .panic .indexOutOfRange) :
    IoTransfers c offset len write ∧ 1036 * 4096 < ioLimit c offset.toNat len write := by
  have htype : c.sin.din.type ≠ sfsTypeDir := by
    intro ht
    unfold sfsIoNolock at h
    rw [Proc.get_bind, Proc.check_bind_neg (not_not_intro ht)] at h
    cases h
  by_cases ht : IoTransfers c offset len write
  · refine ⟨ht, ?_⟩
    rcases sfsIoNolock_cases buf htype ht rfl rfl with ⟨b, c₁, -, hrun⟩ | ⟨a, b, c₁, c₂, e, -, -, -, -, hrun⟩ |
      ⟨a, b, c₁, p, -, hl, hp, hrun⟩ <;> rw [h] at hrun <;> cases hrun
    have hidx := (ioPiece_fails _ _ _ _ _).panic hp rfl
    omega
  · obtain ⟨ret, hrun, -⟩ := sfsIoNolock_idle buf htype hlen ht
    rw [h] at hrun
    cases hrun

section Sound

variable {start endpos a : Nat} {b : Bytes} {c₁ : SfsCtx} {p : SfsPanic}

/-- A round of a sound file stops the machine at an index past the end of the file, or past the map. -/
theorem ioPiece_panic (h : FileInv c R) (hlt : start + a < endpos)
    (hp : ioPiece write start endpos a buf c = .panic p) :
    p = .bmapLoadIndex ∧ c.sin.din.blocks < (start + a) / 4096 ∨
      p = .indexOutOfRange ∧ (start + a) / 4096 ≤ c.sin.din.blocks ∧ 1036 ≤ (start + a) / 4096 := by
  by_cases hib : (start + a) / 4096 ≤ c.sin.din.blocks
  · by_cases hi : (start + a) / 4096 < 1036
    · exact absurd hp (ioPiece_ne_panic h hlt hib hi)
    · have hout := sfsBmapLoadNolock_outOfRange hib (Nat.le_of_not_lt hi)
      unfold ioPiece at hp
      rw [Proc.bind_panic hout] at hp
      cases hp
      exact Or.inr ⟨rfl, hib, Nat.le_of_not_lt hi⟩
  · have hbeyond := sfsBmapLoadNolock_beyond (Nat.lt_of_not_le hib)
    unfold ioPiece at hp
    rw [Proc.bind_panic hbeyond] at hp
    cases hp
    exact Or.inl ⟨rfl, Nat.lt_of_not_le hib⟩

/-- The file that a run of rounds has filled the map of took all the free blocks that were missing. -/
theorem Grown.needAll_le (hg : Grown R c c') (hfull : 1036 ≤ c'.sin.din.blocks) :
    c.needAll 1036 ≤ c.fs.freemap.setBits := by
  have hle := hg.inv.blocks_le
  have hroom := hg.room 1036 hle
  have h0 : c'.needAll 1036 = 0 := by
    unfold SfsCtx.needAll
    rw [if_neg (by omega)]
    omega
  omega

/-- The two assertions a transfer of a sound file can run into. -/
theorem sfsIoNolock_panic (h : FileInv c R) (htype : c.sin.din.type ≠ sfsTypeDir) (hlen : len < 2 ^ 64)
    (hp : sfsIoNolock buf offset len write c = .panic p) : IoTransfers c offset len write ∧
      (p = .bmapLoadIndex ∧ c.sin.din.blocks < offset.toNat / 4096 ∨
        p = .indexOutOfRange ∧ 1036 * 4096 < ioLimit c offset.toNat len write ∧
          offset.toNat / 4096 ≤ c.sin.din.blocks ∧ c.needAll 1036 ≤ c.fs.freemap.setBits) := by
  by_cases ht : IoTransfers c offset len write
  · refine ⟨ht, ?_⟩
    rcases sfsIoNolock_cases buf htype ht rfl rfl with ⟨b, c₁, -, hrun⟩ | ⟨a, b, c₁, c₂, e, -, -, -, -, hrun⟩ |
      ⟨a, b, c₁, p, hd, hl, hpp, hrun⟩ <;> rw [hp] at hrun <;> cases hrun
    have hg := hd.grown h
    by_cases hs : offset.toNat / 4096 ≤ c.sin.din.blocks
    · -- the rounds start within the file, so their indices stay there
      have hidx := hd.index_le h hl hs
      rcases ioPiece_panic hg.inv hl hpp with ⟨-, hgt⟩ | ⟨rfl, -, hi⟩
      · omega
      · exact Or.inr ⟨rfl, by omega, hs, hg.needAll_le (Nat.le_trans hi hidx)⟩
    · refine Or.inl ⟨?_, Nat.lt_of_not_le hs⟩
      have hbeyond := sfsBmapLoadNolock_beyond (Nat.lt_of_not_le hs)
      rcases hd.first with ⟨rfl, rfl, rfl⟩ | ⟨-, ino, c₂, hload⟩
      · rcases ioPiece_panic h hl hpp with ⟨rfl, -⟩ | ⟨-, hib, -⟩
        · rfl
        · exact absurd hib hs
      · rw [hbeyond] at hload
        cases hload
  · obtain ⟨ret, hrun, -⟩ := sfsIoNolock_idle buf htype hlen ht
    rw [hp] at hrun
    cases hrun

/-- A transfer that starts behind the last block stops the machine at once. -/
theorem sfsIoNolock_behind (htype : c.sin.din.type ≠ sfsTypeDir) (ht : IoTransfers c offset len write)
    (hgt : c.sin.din.blocks < offset.toNat / 4096) :
    sfsIoNolock buf offset len write c = .panic .bmapLoadIndex := by
  have hbeyond := sfsBmapLoadNolock_beyond hgt
  have hfirst : ∀ {a b c₁}, IoDone write offset.toNat (ioLimit c offset.toNat len write) buf c a b c₁ →
      a = 0 ∧ b = buf ∧ c₁ = c := by
    intro a b c₁ hd
    rcases hd.first with h0 | ⟨-, ino, c₂, hload⟩
    · exact h0
    · rw [hbeyond] at hload
      cases hload
  have hpiece : ∀ {endpos}, ioPiece write offset.toNat endpos 0 buf c = .panic .bmapLoadIndex := fun {_} =>
    Proc.bind_panic hbeyond
  rcases sfsIoNolock_cases buf htype ht rfl rfl with ⟨b, c₁, hd, -⟩ | ⟨a, b, c₁, c₂, e, hd, -, hp, -, -⟩ |
    ⟨a, b, c₁, p, hd, -, hp, hrun⟩
  · have hlt := ht.2.2.2
    have := (hfirst hd).1
    omega
  · obtain ⟨rfl, rfl, rfl⟩ := hfirst hd
    rw [hpiece] at hp
    cases hp
  · obtain ⟨rfl, rfl, rfl⟩ := hfirst hd
    rw [hpiece] at hp
    cases hp
    exact hrun

/-- **A transfer of a sound file** on a working device runs out of the map exactly if there are the blocks
    to get that far. -/
theorem sfsIoNolock_outOfRange_iff (h : FileInv c R) (htype : c.sin.din.type ≠ sfsTypeDir) (hh : c.fs.Healthy)
    (hlen : len < 2 ^ 64) : sfsIoNolock buf offset len write c = .panic .indexOutOfRange ↔
      (IoTransfers c offset len write ∧ 1036 * 4096 < ioLimit c offset.toNat len write) ∧
        offset.toNat / 4096 ≤ c.sin.din.blocks ∧ c.needAll 1036 ≤ c.fs.freemap.setBits := by
  constructor
  · intro hp
    obtain ⟨ht, ⟨hne, -⟩ | ⟨-, hend, hs, hroom⟩⟩ := sfsIoNolock_panic h htype hlen hp
    · cases hne
    · exact ⟨⟨ht, hend⟩, hs, hroom⟩
  · rintro ⟨⟨ht, hend⟩, hs, hroom⟩
    have hlt := ht.2.2.2
    rcases sfsIoNolock_cases buf htype ht rfl rfl with ⟨b, c₁, hd, -⟩ | ⟨a, b, c₁, c₂, e, hd, hl, hp, -, -⟩ |
      ⟨a, b, c₁, p, hd, hl, hp, hrun⟩
    · -- it cannot go through: the file would have too many blocks
      have hb := hd.blocks_end h hlt
      have hle := (hd.grown h).inv.blocks_le
      rw [blocksFor_eq] at hb
      omega
    · exact absurd hp (hd.not_err h hl hs hh id hroom)
    · rcases ioPiece_panic (hd.grown h).inv hl hp with ⟨-, hgt⟩ | ⟨rfl, -, -⟩
      · have := hd.index_le h hl hs
        omega
      · exact hrun

/-- Within the map, and not behind the end of the file, a transfer of a sound file returns. -/
theorem sfsIoNolock_returns (buf : Bytes) (offset : Int) (h : FileInv c R) (htype : c.sin.din.type ≠ sfsTypeDir) (hlen : len < 2 ^ 64)
    (hs : IoTransfers c offset len write → offset.toNat / 4096 ≤ c.sin.din.blocks)
    (hno : IoTransfers c offset len write → 1036 * 4096 < ioLimit c offset.toNat len write →
      c.fs.freemap.setBits < c.needAll 1036) : ∃ r c', sfsIoNolock buf offset len write c = .ok r c' := by
  cases hrun : sfsIoNolock buf offset len write c with
  | ok r c' => exact ⟨r, c', rfl⟩
  | err e c' => exact absurd hrun (sfsIoNolock_ne_err htype hlen)
  | panic p =>
    obtain ⟨ht, ⟨-, hgt⟩ | ⟨-, hend, -, hroom⟩⟩ := sfsIoNolock_panic h htype hlen hrun
    · exact absurd (hs ht) (Nat.not_le.mpr hgt)
    · exact absurd (hno ht hend) (Nat.not_lt.mpr hroom)

end Sound

/-! ## Truncation -/

theorem blocksFor_gt {n : Nat} : 1036 < blocksFor n ↔ 1036 * 4096 < n := by
  rw [blocksFor_eq]
  omega

theorem sfsTruncfile_outOfRange {len : Int} (h : sfsTruncfile len c = .panic .indexOutOfRange) :
    (0 ≤ len ∧ len ≤ sfsMaxFileSize ∧ c.sin.din.size ≠ len.toNat) ∧ 1036 * 4096 < len.toNat := by
  have hgt := (sfsTruncfile_fails len).panic h rfl
  by_cases hbad : len < 0 ∨ (sfsMaxFileSize : Int) < len
  · rw [sfsTruncfile_invalid hbad] at h
    cases h
  · refine ⟨⟨by omega, by omega, fun hs => ?_⟩, blocksFor_gt.mp hgt⟩
    rw [sfsTruncfile_same hbad hs] at h
    split at h <;> cases h

/-- A growing loop on a working device with the blocks for a full map does not fail. -/
theorem GrowFailed.absurd_full {t : Nat} {e : Int} (h : GrowFailed R c t e c') (hh : c.fs.Healthy)
    (hroom : c.needAll 1036 ≤ c.fs.freemap.setBits) : False := by
  obtain ⟨c₁, s', hg, -, hf, rfl, hload, -⟩ := h
  have hle := hg.inv.blocks_le
  by_cases hb : c₁.sin.din.blocks < 1036
  · have heq := hg.room 1036 hle
    exact hf.absurd (hg.grows.static.healthy hh) hb (by omega)
  · rw [sfsBmapLoadNolock_outOfRange (Nat.le_refl _) (Nat.le_of_not_lt hb)] at hload
    cases hload

theorem sfsTruncfile_outOfRange_iff {len : Int} (h : FileInv c R) (hh : c.fs.Healthy) :
    sfsTruncfile len c = .panic .indexOutOfRange ↔
      ((0 ≤ len ∧ len ≤ sfsMaxFileSize ∧ c.sin.din.size ≠ len.toNat) ∧ 1036 * 4096 < len.toNat) ∧
        c.needAll 1036 ≤ c.fs.freemap.setBits := by
  have hle := h.blocks_le
  have hcases : (0 ≤ len ∧ len ≤ sfsMaxFileSize ∧ c.sin.din.size ≠ len.toNat) ∧ 1036 * 4096 < len.toNat →
      (∃ c', Grown R c c' ∧ c'.sin.din.blocks = blocksFor len.toNat ∧
        sfsTruncfile len c = .ok () (c'.setSize len.toNat)) ∨
      (∃ e c', GrowFailed R c (blocksFor len.toNat) e c' ∧ sfsTruncfile len c = .err e c') ∨
      1036 < blocksFor len.toNat ∧ c.needAll 1036 ≤ c.fs.freemap.setBits ∧
        sfsTruncfile len c = .panic .indexOutOfRange := by
    rintro ⟨⟨h0, hmax, hs⟩, hgt⟩
    have hlt : c.sin.din.blocks < blocksFor len.toNat := Nat.lt_of_le_of_lt hle (blocksFor_gt.mpr hgt)
    exact sfsTruncfile_grow h (by omega) hs hlt
  constructor
  · intro hp
    have hacc := sfsTruncfile_outOfRange hp
    refine ⟨hacc, ?_⟩
    rcases hcases hacc with ⟨c₁, -, -, hrun⟩ | ⟨e, c₁, -, hrun⟩ | ⟨-, hroom, -⟩
    · rw [hp] at hrun
      cases hrun
    · rw [hp] at hrun
      cases hrun
    · exact hroom
  · rintro ⟨hacc, hroom⟩
    have hgt := blocksFor_gt.mpr hacc.2
    rcases hcases hacc with ⟨c₁, hg, hb, -⟩ | ⟨e, c₁, hf, -⟩ | ⟨-, -, hrun⟩
    · have := hg.inv.blocks_le
      omega
    · exact absurd (hf.absurd_full hh hroom) id
    · exact hrun

/-- Within the map, a truncation of a file whose size and blocks agree returns. -/
theorem SizeFits.truncfile_returns {len : Int} (h : SizeFits c)
    (hno : ¬ ((0 ≤ len ∧ len ≤ sfsMaxFileSize ∧ c.sin.din.size ≠ len.toNat) ∧ 1036 * 4096 < len.toNat)) :
    ∃ c', sfsTruncfile len c = .ok () c' ∨ ∃ e, sfsTruncfile len c = .err e c' := by
  obtain ⟨R, hinv⟩ := h.inv
  cases hrun : sfsTruncfile len c with
  | ok u c' => exact ⟨c', Or.inl rfl⟩
  | err e c' => exact ⟨c', Or.inr ⟨e, rfl⟩⟩
  | panic p =>
    obtain ⟨⟨h0, hmax⟩, ⟨rfl, -⟩ | ⟨-, hs, hgt, -⟩⟩ := sfsTruncfile_panic hinv hrun
    · exact absurd hrun (h.truncfile_ne_panic len)
    · exact absurd ⟨⟨h0, hmax, hs⟩, blocksFor_gt.mp hgt⟩ hno

/-! ## All calls -/

theorem io_outOfRange :
    FileOp.io buf offset len write c = .panic .indexOutOfRange ↔
      sfsIoNolock buf offset len write c = .panic .indexOutOfRange := by
  unfold FileOp.io
  constructor
  · intro h
    rcases Proc.bind_eq_panic.mp h with h | ⟨r, c₁, -, h⟩
    · exact h
    · cases h
  · exact Proc.bind_panic

theorem SizeFits.io_returns (h : SizeFits c) (hlen : len < 2 ^ 64) (hs : offset.toNat / 4096 ≤ c.sin.din.blocks)
    (hno : ¬ (IoTransfers c offset len write ∧ 1036 * 4096 < ioLimit c offset.toNat len write)) :
    ∃ c', FileOp.io buf offset len write c = .ok () c' ∨ ∃ e, FileOp.io buf offset len write c = .err e c' := by
  obtain ⟨R, hinv⟩ := h.inv
  obtain ⟨r, c', hrun⟩ := sfsIoNolock_returns buf offset hinv h.type hlen (fun _ => hs) fun ht hend =>
    absurd ⟨ht, hend⟩ hno
  exact ⟨c', Or.inl (Proc.bind_ok hrun)⟩

/-- **The limit.** In any state, a call can run into `index out of range` only if it goes past the block
    map. For a sound file on a working device it does so exactly if it also starts no later than at the
    end of the file and there are free blocks to fill the map. Every other call on a file whose size and
    blocks agree returns, unless it starts behind the end of the file. -/
theorem sfs_file_limit {op : FileOp} (hg : op.Given c) :
    (op.run c = .panic .indexOutOfRange → op.PastMap c) ∧
    (∀ R, FileInv c R → c.sin.din.type ≠ sfsTypeDir → c.fs.Healthy →
      (op.run c = .panic .indexOutOfRange ↔
        op.PastMap c ∧ op.first ≤ c.sin.din.blocks ∧ c.needAll 1036 ≤ c.fs.freemap.setBits)) ∧
    (SizeFits c → op.first ≤ c.sin.din.blocks → ¬ op.PastMap c →
      ∃ c', op.run c = .ok () c' ∨ ∃ e, op.run c = .err e c') := by
  cases op with
  | read buf offset len =>
    refine ⟨fun h => sfsIoNolock_outOfRange hg (io_outOfRange.mp h), fun R h ht hh => ?_,
      fun h hs hno => h.io_returns hg hs hno⟩
    exact io_outOfRange.trans (sfsIoNolock_outOfRange_iff h ht hh hg)
  | write buf offset len =>
    refine ⟨fun h => sfsIoNolock_outOfRange hg (io_outOfRange.mp h), fun R h ht hh => ?_,
      fun h hs hno => h.io_returns hg hs hno⟩
    exact io_outOfRange.trans (sfsIoNolock_outOfRange_iff h ht hh hg)
  | tryseek pos =>
    have hrun : FileOp.run (.tryseek pos) c = sfsTryseek pos c := rfl
    by_cases hext : 0 ≤ pos ∧ pos < sfsMaxFileSize ∧ c.sin.din.size < pos
    · -- past the end of the file: a truncation
      have hacc : (0 ≤ pos ∧ pos ≤ sfsMaxFileSize ∧ c.sin.din.size ≠ pos.toNat) := by omega
      have hpast : FileOp.PastMap c (.tryseek pos) ↔
          (0 ≤ pos ∧ pos ≤ sfsMaxFileSize ∧ c.sin.din.size ≠ pos.toNat) ∧ 1036 * 4096 < pos.toNat :=
        ⟨fun hp => ⟨hacc, hp.2⟩, fun hp => ⟨hext, hp.2⟩⟩
      rw [hrun, sfsTryseek_run, if_pos hext, hpast]
      refine ⟨sfsTruncfile_outOfRange, fun R h ht hh => ?_, fun h hs hno => h.truncfile_returns hno⟩
      rw [sfsTruncfile_outOfRange_iff h hh]
      exact and_congr_right fun _ => (and_iff_right (Nat.zero_le _)).symm
    · have hno : ¬ FileOp.PastMap c (.tryseek pos) := fun hp => hext hp.1
      rw [hrun, sfsTryseek_run, if_neg hext]
      split
      · exact ⟨nofun, fun R h ht hh => iff_of_false nofun fun hp => hno hp.1, fun h hs _ => ⟨c, Or.inl rfl⟩⟩
      · exact ⟨nofun, fun R h ht hh => iff_of_false nofun fun hp => hno hp.1, fun h hs _ => ⟨c, Or.inr ⟨_, rfl⟩⟩⟩
  | truncfile len =>
    refine ⟨sfsTruncfile_outOfRange, fun R h ht hh => ?_, fun h hs hno => h.truncfile_returns hno⟩
    rw [show FileOp.run (.truncfile len) = sfsTruncfile len from rfl, sfsTruncfile_outOfRange_iff h hh]
    exact and_congr_right fun _ => (and_iff_right (Nat.zero_le _)).symm
  | other s =>
    exact ⟨nofun, fun R h ht hh => iff_of_false nofun fun hp => hp.1.1, fun h hs hno => ⟨_, Or.inl rfl⟩⟩

/-! ## A full file -/

/-- A file system of 1056 blocks with one file, inode 3, that has all the 1036 blocks there are places for:
    4 to 15 and 17 to 1040, with the entry block 16. -/
def fullFile : SfsCtx where
  fs := {
    super := { magic := sfsMagic, blocks := 1056, unusedBlocks := 15, info := fun _ => 0 }
    dev := {
      dBlocks := 1056
      blk := fun b => if b = 16 then putArray (fun _ => 0) 0 (fun j => 17 + j) 4 1024 else fun _ => 0
      ioRet := fun _ => 0
      ticks := 0 }
    freemap := { nbits := 1056, nwords := 33, map := fun ix => if ix = 32 then 0xfffe0000#32 else 0#32 }
    superDirty := false
    sfsBuffer := fun _ => 0 }
  sin := {
    din := {
      size := 1036 * 4096, type := sfsTypeFile, nlinks := 1, blocks := 1036, direct := fun i => 4 + i
      indirect := 16 }
    ino := 3, dirty := false, reclaimCount := 1, refCount := 1 }

theorem fullFile_lookup {i : Nat} (hi : i < 1036) : fullFile.lookup i = if i < 12 then 4 + i else 5 + i := by
  by_cases h : i < 12
  · rw [lookup_direct _ h, if_pos h]
    rfl
  · have hj : i - 12 < 1024 := by omega
    have hz : fullFile.sin.din.indirect ≠ 0 := by decide
    have hget := getLe_putArray (m := fun _ => 0) (a := 0) (k := 4) (f := fun j => 17 + j) hj
    rw [lookup_entry h hz, if_neg h]
    show getLe (putArray (fun _ => 0) 0 (fun j => 17 + j) 4 1024) ((i - 12) * 4) 4 = 5 + i
    rw [show (i - 12) * 4 = 0 + 4 * (i - 12) by omega, hget]
    omega

theorem fullFile_bit {i : Nat} (hi : i < 1056) : fullFile.fs.freemap.bit i = decide (1040 < i) := by
  have h : ∀ i, i < 1056 → fullFile.fs.freemap.bit i = decide (1040 < i) := by decide +kernel
  exact h i hi

theorem fullFile_inv : FileInv fullFile ∅ := by
  have hdata : ∀ {i : Nat} (hi : i < 1036), 4 ≤ fullFile.lookup i ∧ fullFile.lookup i < 1041 ∧
      fullFile.lookup i ≠ 16 := by
    intro i hi
    rw [fullFile_lookup hi]
    split <;> omega
  have huse : ∀ {b : Nat}, 4 ≤ b → b < 1041 → fullFile.fs.InUse b := by
    intro b h4 hlt
    refine ⟨by omega, show b < 1056 by omega, ?_⟩
    rw [fullFile_bit (by omega)]
    exact decide_eq_false (by omega)
  refine ⟨⟨by decide, by decide, by decide, rfl, ?_, ?_, ?_⟩, ?_, ?_, fun b hb => absurd hb (Set.notMem_empty b),
    fun t _ => Set.notMem_empty _, ?_, by decide⟩
  · exact fullFile_bit (by decide)
  · intro i h1 h2
    have h1' : 1056 ≤ i := h1
    have h2' : i < 1056 := h2
    omega
  · decide +kernel
  · rintro (j | _) -
    · exact huse (hdata j.isLt).1 (hdata j.isLt).2.1
    · exact huse (by decide) (by decide)
  · rintro (i | _) (j | _) he -
    · have hij : fullFile.lookup i = fullFile.lookup j := he
      rw [fullFile_lookup i.isLt, fullFile_lookup j.isLt] at hij
      have hv : i.val = j.val := by
        split at hij <;> split at hij <;> omega
      rw [Fin.ext hv]
    · exact absurd he (hdata i.isLt).2.2
    · exact absurd he.symm (hdata j.isLt).2.2
    · rfl
  · intro i hi
    have h4 := (hdata hi).1
    exact iff_of_true (by omega) hi

/-- Writing one more byte to it stops the machine. -/
theorem sfs_write_outOfRange :
    ¬ ∀ op : FileOp, op.Accepted fullFile → op.run fullFile ≠ .panic .indexOutOfRange := by
  intro h
  have hacc : FileOp.Accepted fullFile (.write (fun _ => 7) (1036 * 4096) 1) :=
    ⟨by decide, by decide, by decide, by decide⟩
  exact h _ hacc rfl

/-- The full file is sound, so the theorem says the same. -/
theorem sfs_file_limit_fullFile :
    FileOp.run (.write (fun _ => 7) (1036 * 4096) 1) fullFile = .panic .indexOutOfRange := by
  have hlen : 1 < 2 ^ 64 := by decide
  have hgiven : FileOp.Given fullFile (.write (fun _ => 7) (1036 * 4096) 1) := hlen
  have hacc : FileOp.Accepted fullFile (.write (fun _ => 7) (1036 * 4096) 1) :=
    ⟨by decide, by decide, by decide, by decide⟩
  have hend : 1036 * 4096 < FileOp.endpos fullFile (.write (fun _ => 7) (1036 * 4096) 1) := by decide
  exact ((sfs_file_limit hgiven).2.1 ∅ fullFile_inv (by decide) (fun _ => rfl)).mpr
    ⟨⟨hacc, hend⟩, by decide, by decide +kernel⟩

end Ucore
