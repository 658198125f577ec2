import Ucore.Fs.Sfs.SfsInode

/-!
# `Fs.Sfs.Correctness.Blocks` — what block transfers, allocation and release do to the file system

Each function of `sfs_io.c` and each block function of `sfs_inode.c` is described by the state it leaves,
written with four updates of the file system:

- `scratch k x`: `k` transfers went by and the bounce buffer holds `x`; nothing else changed,
- `setBlk b x`: block `b` of the disk holds `x`,
- `take b` / `give b`: block `b` is marked in use / free, and counted.

`Ready` is what these functions need of the file system, `fault k` the outcome of the `k`-th transfer
from now on. Callers cite the `_cases` lemmas and never unfold the functions.
-/

namespace Ucore

namespace SfsFs

def scratch (s : SfsFs) (k : Nat) (x : Bytes) : SfsFs :=
  { s with dev := { s.dev with ticks := s.dev.ticks + k }, sfsBuffer := x }

def setBlk (s : SfsFs) (b : Nat) (x : Bytes) : SfsFs :=
  { s with dev := { s.dev with blk := Function.update s.dev.blk b x } }

def take (s : SfsFs) (b : Nat) : SfsFs :=
  { s with
    freemap := s.freemap.flip b
    super := { s.super with unusedBlocks := s.super.unusedBlocks - 1 }
    superDirty := true }

def give (s : SfsFs) (b : Nat) : SfsFs :=
  { s with
    freemap := s.freemap.raise b
    super := { s.super with unusedBlocks := s.super.unusedBlocks + 1 }
    superDirty := true }

/-- A block taken and cleared. -/
def alloc (s : SfsFs) (b : Nat) : SfsFs := (s.take b).setBlk b (memzero (s.dev.blk b) 4096)

/-- The outcome of the `k`-th transfer from now on. -/
def fault (s : SfsFs) (k : Nat) : Int := s.dev.ioRet (s.dev.ticks + k)

/-- The device never fails. -/
def Healthy (s : SfsFs) : Prop := ∀ k, s.dev.ioRet k = 0

/-- A block of the file system, past the superblock, that is marked in use. -/
structure InUse (s : SfsFs) (b : Nat) : Prop where
  ne : b ≠ 0
  lt : b < s.super.blocks
  bit : s.freemap.bit b = false

/-- The file system fits its device and its map, and the count of free blocks is right. `mksfs` makes no
    file system of more than 2^19 blocks, so byte offsets stay below 2^32. -/
structure Ready (s : SfsFs) : Prop where
  blocks_le : s.super.blocks ≤ s.dev.dBlocks
  small : s.super.blocks ≤ 2 ^ 20
  blocks_le_nbits : s.super.blocks ≤ s.freemap.nbits
  nbits : 32 * s.freemap.nwords = s.freemap.nbits
  zero : s.freemap.bit 0 = false
  pad : ∀ i, s.super.blocks ≤ i → i < s.freemap.nbits → s.freemap.bit i = false
  count : s.super.unusedBlocks = s.freemap.setBits

/-! ## The four updates, field by field -/

section Fields

variable (s : SfsFs) (k b i : Nat) (x : Bytes)

@[simp] theorem super_scratch : (s.scratch k x).super = s.super := rfl
@[simp] theorem freemap_scratch : (s.scratch k x).freemap = s.freemap := rfl
@[simp] theorem blk_scratch : (s.scratch k x).dev.blk = s.dev.blk := rfl
@[simp] theorem dBlocks_scratch : (s.scratch k x).dev.dBlocks = s.dev.dBlocks := rfl
@[simp] theorem ioRet_scratch : (s.scratch k x).dev.ioRet = s.dev.ioRet := rfl
@[simp] theorem superDirty_scratch : (s.scratch k x).superDirty = s.superDirty := rfl
@[simp] theorem super_setBlk : (s.setBlk b x).super = s.super := rfl
@[simp] theorem freemap_setBlk : (s.setBlk b x).freemap = s.freemap := rfl
@[simp] theorem dBlocks_setBlk : (s.setBlk b x).dev.dBlocks = s.dev.dBlocks := rfl
@[simp] theorem ioRet_setBlk : (s.setBlk b x).dev.ioRet = s.dev.ioRet := rfl
@[simp] theorem superDirty_setBlk : (s.setBlk b x).superDirty = s.superDirty := rfl
@[simp] theorem dev_take : (s.take b).dev = s.dev := rfl
@[simp] theorem freemap_take : (s.take b).freemap = s.freemap.flip b := rfl
@[simp] theorem blocks_take : (s.take b).super.blocks = s.super.blocks := rfl
@[simp] theorem magic_take : (s.take b).super.magic = s.super.magic := rfl
@[simp] theorem info_take : (s.take b).super.info = s.super.info := rfl
@[simp] theorem unusedBlocks_take : (s.take b).super.unusedBlocks = s.super.unusedBlocks - 1 := rfl
@[simp] theorem superDirty_take : (s.take b).superDirty = true := rfl
@[simp] theorem dev_give : (s.give b).dev = s.dev := rfl
@[simp] theorem freemap_give : (s.give b).freemap = s.freemap.raise b := rfl
@[simp] theorem blocks_give : (s.give b).super.blocks = s.super.blocks := rfl
@[simp] theorem magic_give : (s.give b).super.magic = s.super.magic := rfl
@[simp] theorem info_give : (s.give b).super.info = s.super.info := rfl
@[simp] theorem unusedBlocks_give : (s.give b).super.unusedBlocks = s.super.unusedBlocks + 1 := rfl
@[simp] theorem superDirty_give : (s.give b).superDirty = true := rfl
@[simp] theorem super_alloc : (s.alloc b).super = (s.take b).super := rfl
@[simp] theorem freemap_alloc : (s.alloc b).freemap = s.freemap.flip b := rfl
@[simp] theorem dBlocks_alloc : (s.alloc b).dev.dBlocks = s.dev.dBlocks := rfl
@[simp] theorem ioRet_alloc : (s.alloc b).dev.ioRet = s.dev.ioRet := rfl
@[simp] theorem superDirty_alloc : (s.alloc b).superDirty = true := rfl

@[simp] theorem blk_setBlk_self : (s.setBlk b x).dev.blk b = x := Function.update_self ..

theorem blk_setBlk_of_ne {b i : Nat} (h : i ≠ b) : (s.setBlk b x).dev.blk i = s.dev.blk i :=
  Function.update_of_ne h ..

@[simp] theorem blk_alloc_self : (s.alloc b).dev.blk b = memzero (s.dev.blk b) 4096 := blk_setBlk_self ..

theorem blk_alloc_of_ne {b i : Nat} (h : i ≠ b) : (s.alloc b).dev.blk i = s.dev.blk i :=
  blk_setBlk_of_ne _ _ h

@[simp] theorem fault_scratch : (s.scratch k x).fault i = s.fault (k + i) := by
  simp only [fault, scratch, Nat.add_assoc]

@[simp] theorem fault_setBlk : (s.setBlk b x).fault i = s.fault i := rfl
@[simp] theorem fault_take : (s.take b).fault i = s.fault i := rfl
@[simp] theorem fault_give : (s.give b).fault i = s.fault i := rfl
@[simp] theorem fault_alloc : (s.alloc b).fault i = s.fault i := rfl

/-- Scratch work moves outwards and adds up. -/
@[simp] theorem scratch_scratch (j : Nat) (y : Bytes) :
    (s.scratch k x).scratch j y = s.scratch (k + j) y := by
  simp only [scratch, Nat.add_assoc]

@[simp] theorem scratch_setBlk (y : Bytes) :
    (s.scratch k x).setBlk b y = (s.setBlk b y).scratch k x := rfl
@[simp] theorem scratch_take : (s.scratch k x).take b = (s.take b).scratch k x := rfl
@[simp] theorem scratch_give : (s.scratch k x).give b = (s.give b).scratch k x := rfl
@[simp] theorem scratch_alloc : (s.scratch k x).alloc b = (s.alloc b).scratch k x := rfl

end Fields

variable {s : SfsFs} {b i k : Nat} {x : Bytes}

/-! ## `InUse` and `Ready` under the updates -/

theorem InUse.scratch (h : s.InUse i) : (s.scratch k x).InUse i := ⟨h.ne, h.lt, h.bit⟩

theorem InUse.setBlk (h : s.InUse i) : (s.setBlk b x).InUse i := ⟨h.ne, h.lt, h.bit⟩

/-- A block in use is not the one an allocation takes. -/
theorem InUse.ne_of_free (h : s.InUse i) (hb : s.freemap.bit b = true) : i ≠ b := by
  rintro rfl
  exact Bool.noConfusion (h.bit.symm.trans hb)

theorem InUse.take (h : s.InUse i) (hb : s.freemap.bit b = true) : (s.take b).InUse i := by
  refine ⟨h.ne, h.lt, ?_⟩
  rw [freemap_take, Bitmap.bit_flip, if_neg (h.ne_of_free hb)]
  exact h.bit

theorem InUse.alloc (h : s.InUse i) (hb : s.freemap.bit b = true) : (s.alloc b).InUse i :=
  (h.take hb).setBlk

theorem InUse.give (h : s.InUse i) (hi : i ≠ b) : (s.give b).InUse i := by
  refine ⟨h.ne, h.lt, ?_⟩
  rw [freemap_give, Bitmap.bit_raise, h.bit, decide_eq_false hi]
  rfl

/-- The block an allocation takes is in use afterwards. -/
theorem inUse_take (h0 : b ≠ 0) (hlt : b < s.super.blocks) (hb : s.freemap.bit b = true) :
    (s.take b).InUse b := by
  refine ⟨h0, hlt, ?_⟩
  rw [freemap_take, Bitmap.bit_flip, if_pos rfl, hb]
  rfl

theorem inUse_alloc (h0 : b ≠ 0) (hlt : b < s.super.blocks) (hb : s.freemap.bit b = true) :
    (s.alloc b).InUse b := (inUse_take h0 hlt hb).setBlk

namespace Ready

theorem scratch (h : s.Ready) : (s.scratch k x).Ready :=
  ⟨h.blocks_le, h.small, h.blocks_le_nbits, h.nbits, h.zero, h.pad, h.count⟩

theorem setBlk (h : s.Ready) : (s.setBlk b x).Ready :=
  ⟨h.blocks_le, h.small, h.blocks_le_nbits, h.nbits, h.zero, h.pad, h.count⟩

/-- A free block is past the superblock and inside the file system. -/
theorem free_range (h : s.Ready) (hi : i < s.freemap.nbits) (hb : s.freemap.bit i = true) :
    i ≠ 0 ∧ i < s.super.blocks := by
  constructor
  · rintro rfl
    exact Bool.noConfusion (h.zero.symm.trans hb)
  · by_contra hge
    exact Bool.noConfusion ((h.pad i (Nat.le_of_not_lt hge) hi).symm.trans hb)

theorem take (h : s.Ready) (hlt : b < s.super.blocks) (hb : s.freemap.bit b = true) :
    (s.take b).Ready := by
  have hlt' : b < 32 * s.freemap.nwords := by
    have := h.blocks_le_nbits
    have := h.nbits
    omega
  refine ⟨h.blocks_le, h.small, h.blocks_le_nbits, h.nbits, ?_, fun i hi hi' => ?_, ?_⟩
  · rw [freemap_take, Bitmap.bit_flip, if_neg (fun he => by
      rw [← he, h.zero] at hb; exact Bool.noConfusion hb)]
    exact h.zero
  · rw [freemap_take, Bitmap.bit_flip, if_neg (by
      have hi'' : s.super.blocks ≤ i := hi
      omega)]
    exact h.pad i hi hi'
  · have hc := Bitmap.setBits_flip hlt' hb
    show s.super.unusedBlocks - 1 = (s.freemap.flip b).setBits
    rw [h.count]
    omega

theorem alloc (h : s.Ready) (hlt : b < s.super.blocks) (hb : s.freemap.bit b = true) :
    (s.alloc b).Ready := (h.take hlt hb).setBlk

theorem give (h : s.Ready) (hb : s.InUse b) : (s.give b).Ready := by
  have hlt' : b < 32 * s.freemap.nwords := by
    have := h.blocks_le_nbits
    have := h.nbits
    have := hb.lt
    omega
  refine ⟨h.blocks_le, h.small, h.blocks_le_nbits, h.nbits, ?_, fun i hi hi' => ?_, ?_⟩
  · rw [freemap_give, Bitmap.bit_raise, h.zero, decide_eq_false (Ne.symm hb.ne)]
    rfl
  · have hne : i ≠ b := by
      have hi'' : s.super.blocks ≤ i := hi
      have := hb.lt
      omega
    rw [freemap_give, Bitmap.bit_raise, decide_eq_false hne, h.pad i hi hi']
    rfl
  · show s.super.unusedBlocks + 1 = (s.freemap.raise b).setBits
    rw [Bitmap.setBits_raise hlt' hb.bit, h.count]

end Ready

/-- Giving back what was taken restores map and count. -/
theorem give_take_freemap (hb : s.freemap.bit b = true) : ((s.take b).give b).freemap = s.freemap :=
  Bitmap.raise_flip hb

theorem give_take_super (h : 0 < s.super.unusedBlocks) : ((s.take b).give b).super = s.super := by
  show { s.super with unusedBlocks := s.super.unusedBlocks - 1 + 1 } = s.super
  rw [Nat.sub_add_cancel h]

end SfsFs

open SfsFs

variable {s : SfsFs} {b d len off : Nat} {buf : Bytes} {p : SfsPanic}

/-! ## Transfers -/

/-- One block transfer. -/
theorem sfsRwblockNolock_run (buf : Bytes) (d : Nat) (h : s.Ready) (hb : b < s.super.blocks) (write check : Bool)
    (h0 : b ≠ 0 ∨ check = false) :
    sfsRwblockNolock buf d b write check s =
      if s.fault 0 = 0 then
        if write = true then
          .ok buf ((s.setBlk b (memcpy (s.dev.blk b) 0 buf d 4096)).scratch 1 s.sfsBuffer)
        else .ok (memcpy buf d (s.dev.blk b) 0 4096) (s.scratch 1 s.sfsBuffer)
      else .err (s.fault 0) (s.scratch 1 s.sfsBuffer) := by
  have hsmall : b < 2 ^ 20 := by
    have := h.blocks_le
    have := h.small
    omega
  have hoff : b * sfsBlksize % 2 ^ 32 / sfsBlksize = b := by
    simp only [sfsBlksize]
    omega
  have hdev : ¬ s.dev.dBlocks < b + 1 := by
    have := h.blocks_le
    omega
  unfold sfsRwblockNolock
  rw [Proc.get_bind, Proc.check_bind_pos ⟨h0, hb⟩]
  unfold onDev Proc.zoom dopIo
  simp only [Proc.get_bind, Proc.modify_bind, hoff, hdev, if_false]
  by_cases hf : s.fault 0 = 0
  · have hf' : ¬ s.dev.ioRet s.dev.ticks ≠ 0 := not_not_intro hf
    rw [if_pos hf]
    cases write
    · simp only [hf', if_false, Bool.false_eq_true]
      rfl
    · simp only [hf', if_false, if_true]
      rfl
  · have hf' : s.dev.ioRet s.dev.ticks ≠ 0 := hf
    rw [if_neg hf]
    simp only [hf', if_true, ne_eq, not_false_eq_true]
    rfl

/-- Reading from a block through the bounce buffer. -/
theorem sfsRbuf_cases (buf : Bytes) (d : Nat) (h : s.Ready) (h0 : b ≠ 0) (hb : b < s.super.blocks)
    (ho : off < 4096) (hl : off + len ≤ 4096) : ∃ x,
    (s.fault 0 = 0 ∧ sfsRbuf buf d len b off s
      = .ok (memcpy buf d (s.dev.blk b) off len) (s.scratch 1 x)) ∨
    (s.fault 0 ≠ 0 ∧ sfsRbuf buf d len b off s = .err (s.fault 0) (s.scratch 1 x)) := by
  have hrun := sfsRwblockNolock_run s.sfsBuffer 0 h hb false true (Or.inl h0)
  unfold sfsRbuf
  rw [Proc.check_bind_pos ⟨ho, hl⟩, Proc.get_bind]
  by_cases hf : s.fault 0 = 0
  · rw [if_pos hf, if_neg Bool.false_ne_true] at hrun
    refine ⟨memcpy s.sfsBuffer 0 (s.dev.blk b) 0 4096, Or.inl ⟨hf, ?_⟩⟩
    rw [Proc.bind_ok hrun, setSfsBuffer, Proc.modify_bind, Proc.pure_run, memcpy_from_read hl]
    rfl
  · rw [if_neg hf] at hrun
    exact ⟨s.sfsBuffer, Or.inr ⟨hf, Proc.bind_err hrun⟩⟩

/-- Writing into a block through the bounce buffer: read, modify, write. -/
theorem sfsWbuf_cases (buf : Bytes) (d : Nat) (h : s.Ready) (h0 : b ≠ 0) (hb : b < s.super.blocks) (ho : off < 4096)
    (hl : off + len ≤ 4096) : ∃ k x,
    (s.fault 0 = 0 ∧ s.fault 1 = 0 ∧ sfsWbuf buf d len b off s
      = .ok () ((s.setBlk b (memcpy (s.dev.blk b) off buf d len)).scratch 2 x)) ∨
    (¬ (s.fault 0 = 0 ∧ s.fault 1 = 0) ∧ ∃ e, e ≠ 0 ∧ sfsWbuf buf d len b off s
      = .err e (s.scratch k x)) := by
  have hread := sfsRwblockNolock_run s.sfsBuffer 0 h hb false true (Or.inl h0)
  unfold sfsWbuf
  rw [Proc.check_bind_pos ⟨ho, hl⟩, Proc.get_bind]
  by_cases hf : s.fault 0 = 0
  · rw [if_pos hf, if_neg Bool.false_ne_true] at hread
    let x := memcpy (memcpy s.sfsBuffer 0 (s.dev.blk b) 0 4096) off buf d len
    have hwrite := sfsRwblockNolock_run x 0 (s := s.scratch 1 x) h.scratch hb true true
      (Or.inl h0)
    rw [fault_scratch] at hwrite
    by_cases hf' : s.fault 1 = 0
    · rw [if_pos hf', if_pos rfl, blk_scratch, memcpy_readModifyWrite hl] at hwrite
      refine ⟨2, x, Or.inl ⟨hf, hf', ?_⟩⟩
      rw [Proc.bind_ok hread, setSfsBuffer, Proc.modify_bind]
      show (sfsRwblockNolock x 0 b true true >>= fun _ => pure ()) (s.scratch 1 x) = _
      rw [Proc.bind_ok hwrite]
      rfl
    · rw [if_neg hf'] at hwrite
      refine ⟨2, x, Or.inr ⟨fun hc => hf' hc.2, s.fault 1, hf', ?_⟩⟩
      rw [Proc.bind_ok hread, setSfsBuffer, Proc.modify_bind]
      show (sfsRwblockNolock x 0 b true true >>= fun _ => pure ()) (s.scratch 1 x) = _
      rw [Proc.bind_err hwrite]
      rfl
  · rw [if_neg hf] at hread
    exact ⟨1, s.sfsBuffer, Or.inr ⟨fun hc => hf hc.1, s.fault 0, hf, Proc.bind_err hread⟩⟩

/-- A block written whole. -/
theorem sfsWblock_cases (buf : Bytes) (d : Nat) (h : s.Ready) (h0 : b ≠ 0) (hb : b < s.super.blocks) : ∃ x,
    (s.fault 0 = 0 ∧ sfsWblock buf d b 1 s
      = .ok buf ((s.setBlk b (memcpy (s.dev.blk b) 0 buf d 4096)).scratch 1 x)) ∨
    (s.fault 0 ≠ 0 ∧ sfsWblock buf d b 1 s = .err (s.fault 0) (s.scratch 1 x)) := by
  have hrun := sfsRwblockNolock_run buf d h hb true true (Or.inl h0)
  refine ⟨s.sfsBuffer, ?_⟩
  unfold sfsWblock sfsRwblock
  by_cases hf : s.fault 0 = 0
  · rw [if_pos hf, if_pos rfl] at hrun
    exact Or.inl ⟨hf, Proc.bind_ok hrun⟩
  · rw [if_neg hf] at hrun
    exact Or.inr ⟨hf, Proc.bind_err hrun⟩

/-- A block read whole. -/
theorem sfsRblock_cases (buf : Bytes) (d : Nat) (h : s.Ready) (h0 : b ≠ 0) (hb : b < s.super.blocks) : ∃ x,
    (s.fault 0 = 0 ∧ sfsRblock buf d b 1 s
      = .ok (memcpy buf d (s.dev.blk b) 0 4096) (s.scratch 1 x)) ∨
    (s.fault 0 ≠ 0 ∧ sfsRblock buf d b 1 s = .err (s.fault 0) (s.scratch 1 x)) := by
  have hrun := sfsRwblockNolock_run buf d h hb false true (Or.inl h0)
  refine ⟨s.sfsBuffer, ?_⟩
  unfold sfsRblock sfsRwblock
  by_cases hf : s.fault 0 = 0
  · rw [if_pos hf, if_neg Bool.false_ne_true] at hrun
    exact Or.inl ⟨hf, Proc.bind_ok hrun⟩
  · rw [if_neg hf] at hrun
    exact Or.inr ⟨hf, Proc.bind_err hrun⟩

/-- Zeroing a block on disk. -/
theorem sfsClearBlock_cases (h : s.Ready) (h0 : b ≠ 0) (hb : b < s.super.blocks) : ∃ x,
    (s.fault 0 = 0 ∧ sfsClearBlock b 1 s
      = .ok () ((s.setBlk b (memzero (s.dev.blk b) 4096)).scratch 1 x)) ∨
    (s.fault 0 ≠ 0 ∧ sfsClearBlock b 1 s = .err (s.fault 0) (s.scratch 1 x)) := by
  let x := memzero s.sfsBuffer sfsBlksize
  have hrun := sfsRwblockNolock_run x 0 (s := s.scratch 0 x) h.scratch hb true true
    (Or.inl h0)
  have hzero : memcpy (s.dev.blk b) 0 x 0 4096 = memzero (s.dev.blk b) 4096 := memcpy_from_read (Nat.le_refl _)
  rw [fault_scratch, if_pos (rfl : true = true), blk_scratch, hzero] at hrun
  refine ⟨x, ?_⟩
  show (_ ∧ (sfsRwblockNolock x 0 b true true >>= fun _ => sfsClearBlockLoop x (b + 1) 0) (s.scratch 0 x) = _) ∨
    (_ ∧ (sfsRwblockNolock x 0 b true true >>= fun _ => sfsClearBlockLoop x (b + 1) 0) (s.scratch 0 x) = _)
  by_cases hf : s.fault 0 = 0
  · rw [if_pos hf] at hrun
    exact Or.inl ⟨hf, Proc.bind_ok hrun⟩
  · rw [if_neg hf] at hrun
    exact Or.inr ⟨hf, Proc.bind_err hrun⟩

/-! ## Allocation and release -/

theorem sfsBlockInuse_run (h : s.Ready) (h0 : b ≠ 0) (hb : b < s.super.blocks) :
    sfsBlockInuse b s = .ok (!s.freemap.bit b) s := by
  have htest := bitmapTest_run (b := s.freemap) (i := b) (Nat.lt_of_lt_of_le hb h.blocks_le_nbits)
  unfold sfsBlockInuse
  rw [Proc.get_bind, if_pos ⟨h0, hb⟩]
  have hz : onFreemap (bitmapTest b) s = .ok (s.freemap.bit b) s := Proc.zoom_ok htest
  rw [Proc.bind_ok hz]
  rfl

theorem assertInuse_run (h : s.Ready) (hb : s.InUse b) : assertInuse p b s = .ok () s := by
  unfold assertInuse
  rw [Proc.bind_ok (sfsBlockInuse_run h hb.ne hb.lt), hb.bit]
  exact Proc.check_run_pos rfl s

theorem sfsBlockFree_run (h : s.Ready) (hb : s.InUse b) : sfsBlockFree b s = .ok () (s.give b) := by
  have hfree := bitmapFree_run (b := s.freemap) (i := b) (Nat.lt_of_lt_of_le hb.lt h.blocks_le_nbits) hb.bit
  unfold sfsBlockFree
  rw [Proc.bind_ok (assertInuse_run h hb)]
  have hz : onFreemap (bitmapFree b) s = .ok () { s with freemap := s.freemap.raise b } := Proc.zoom_ok hfree
  rw [Proc.bind_ok hz]
  rfl

/-- Allocation finds no free block; or takes one, and its clearing succeeds or fails. In the last case
    the block stays marked in use although the call fails. -/
theorem sfsBlockAlloc_cases (h : s.Ready) : ∃ x,
    (s.freemap.setBits = 0 ∧ sfsBlockAlloc s = .err (-eNoMem) s) ∨
    ∃ i, i ≠ 0 ∧ i < s.super.blocks ∧ s.freemap.bit i = true ∧
      ((s.fault 0 = 0 ∧ sfsBlockAlloc s = .ok i ((s.alloc i).scratch 1 x)) ∨
       (s.fault 0 ≠ 0 ∧ sfsBlockAlloc s = .err (s.fault 0) ((s.take i).scratch 1 x))) := by
  rcases bitmapAlloc_cases s.freemap with ⟨hz, hrun⟩ | ⟨i, hi, hbit, -, hrun⟩
  · have hz' : onFreemap bitmapAlloc s = .err (-eNoMem) s := Proc.zoom_err hrun
    exact ⟨s.sfsBuffer, Or.inl ⟨hz, Proc.bind_err hz'⟩⟩
  · rw [h.nbits] at hi
    obtain ⟨h0, hlt⟩ := h.free_range hi hbit
    have hz' : onFreemap bitmapAlloc s = .ok i { s with freemap := s.freemap.flip i } := Proc.zoom_ok hrun
    have hpos : 0 < s.super.unusedBlocks := by
      rw [h.count]
      exact Bitmap.setBits_pos.mpr ⟨i, by rw [h.nbits]; exact hi, hbit⟩
    have hready : (s.take i).Ready := h.take hlt hbit
    have huse : (s.take i).InUse i := inUse_take h0 hlt hbit
    have hstart : sfsBlockAlloc s = (sfsClearBlock i 1 >>= fun _ => pure i) (s.take i) := by
      unfold sfsBlockAlloc
      rw [Proc.bind_ok hz', Proc.get_bind, Proc.check_bind_pos hpos, Proc.modify_bind]
      exact Proc.bind_ok (assertInuse_run hready huse)
    obtain ⟨x, hclear⟩ := sfsClearBlock_cases hready h0 hlt
    refine ⟨x, Or.inr ⟨i, h0, hlt, hbit, ?_⟩⟩
    rcases hclear with ⟨hf, hc⟩ | ⟨hf, hc⟩
    · exact Or.inl ⟨hf, by rw [hstart, Proc.bind_ok hc]; rfl⟩
    · exact Or.inr ⟨hf, by rw [hstart, Proc.bind_err hc]; rfl⟩

end Ucore
