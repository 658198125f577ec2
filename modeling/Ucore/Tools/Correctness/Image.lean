import Mathlib.Order.Interval.Finset.Nat
import Ucore.Fs.Sfs.Correctness.Mount
import Ucore.Tools.Correctness.Close

/-!
# `Tools.Correctness.Image` — the image against the kernel that mounts it

The free map is written by words over ranges and read bit by bit. `diskBit_closed` is the point where the
two meet: bit `i` on the disk is set exactly for the blocks that have not been handed out.
-/

namespace Ucore

namespace Bitmap

theorem bit_closeSetBits (n : Nat) : ∀ (b : Bitmap) (j i : Nat),
    (closeSetBits b j n).bit i = (decide (j ≤ i ∧ i < j + n) || b.bit i) := by
  induction n with
  | zero =>
    intro b j i
    rw [decide_eq_false (by omega), Bool.false_or]
    rfl
  | succ n ih =>
    intro b j i
    unfold closeSetBits
    rw [ih, bit_raise]
    by_cases hi : i = j
    · rw [decide_eq_true hi, decide_eq_true (show j ≤ i ∧ i < j + (n + 1) by omega), Bool.true_or, Bool.or_true]
    · rw [decide_eq_false hi, Bool.false_or, decide_eq_decide.mpr (show (j + 1 ≤ i ∧ i < j + 1 + n) ↔
        (j ≤ i ∧ i < j + (n + 1)) by omega)]

/-- A block of the free map has its own part of the bits from `nextIno` to `ninos`. -/
theorem bit_closeFreemapBlock {ninos nextIno i j : Nat} (hle : nextIno ≤ ninos) (hj : j < 32768) :
    (closeFreemapBlock ninos nextIno i).bit j = decide (nextIno ≤ i + j ∧ i + j < ninos) := by
  have hempty : ∀ nbits nwords, (Bitmap.mk nbits nwords fun _ => 0#32).bit j = false := fun _ _ => BitVec.getLsbD_zero
  unfold closeFreemapBlock
  dsimp only
  have hbits : sfsBlkbits = 32768 := rfl
  rw [hbits]
  by_cases hlt : nextIno < i + 32768
  · rw [if_pos hlt, bit_closeSetBits, hempty, Bool.or_false]
    refine decide_eq_decide.mpr ?_
    split <;> split <;> omega
  · rw [if_neg hlt, hempty]
    exact (decide_eq_false (by omega)).symm

end Bitmap

namespace Mksfs

variable {m m₀ : Mksfs} {img img₀ : Nat → Bytes} {ops : List MkOp} {size : Nat} {dev : Device}

theorem padBlock_lt {x : Bytes} {len i : Nat} (h : i < len) : padBlock x len i = x i := by
  rw [padBlock, memcpy_in ⟨Nat.zero_le i, by omega⟩, Nat.zero_add, Nat.sub_zero]

/-- **The free map on the image.** -/
theorem diskBit_closed (h : m.Inv) (hc : Closed m img) {i : Nat} (hi : i < 32768 * mapSize m.ninos) :
    diskBit img i = decide (m.nextIno ≤ i ∧ i < m.ninos) := by
  have hle : m.nextIno ≤ m.ninos := by
    have := h.owned.super.unused
    omega
  have hk : i / 32768 < m.mapBlocks := by
    show i / 32768 < mapSize m.ninos
    omega
  have hbyte : i % 32768 / 8 < 4096 := by omega
  have hsum : 32768 * (i / 32768) + i % 32768 = i := Nat.div_add_mod i 32768
  have hbit := Bitmap.testBit_getdata (closeFreemapBlock m.ninos m.nextIno (32768 * (i / 32768))) (i % 32768)
  rw [show i % 32768 % 8 = i % 8 by omega] at hbit
  unfold diskBit
  rw [hc.map _ hk, mapBlock, padBlock_lt hbyte, hbit, Bitmap.bit_closeFreemapBlock hle (by omega), hsum]

theorem load_super (h : m.Inv) (hc : Closed m img) : SfsSuper.load (img 0) = m.super := by
  have hs := h.owned.super
  have hsum := hs.unused
  have hninos := hs.ninos_le
  have hfits : m.super.Fits := by
    refine ⟨?_, ?_, by omega⟩
    · rw [hs.magic]
      decide
    · rw [hs.blocks]
      omega
  rw [hc.super, SfsSuper.load_congr fun i hi => padBlock_lt hi, SfsSuper.load_store hfits]

theorem card_free (h : m.Inv) (hc : Closed m img) :
    ((Finset.range (32768 * mapSize m.ninos)).filter fun i => diskBit img i).card = m.super.unusedBlocks := by
  have hsum := h.owned.super.unused
  have hmap : mapSize m.ninos = (m.ninos + 32767) / 32768 := rfl
  have hset : ((Finset.range (32768 * mapSize m.ninos)).filter fun i => diskBit img i) = Finset.Ico m.nextIno m.ninos := by
    ext i
    rw [Finset.mem_filter, Finset.mem_range, Finset.mem_Ico]
    constructor
    · rintro ⟨hi, hb⟩
      rw [diskBit_closed h hc hi] at hb
      exact of_decide_eq_true hb
    · intro hi
      have hlt : i < 32768 * mapSize m.ninos := by omega
      refine ⟨hlt, ?_⟩
      rw [diskBit_closed h hc hlt]
      exact decide_eq_true hi
  rw [hset, Nat.card_Ico]
  omega

/-- The disk that the image makes can be mounted. -/
theorem consistent (h : m.Inv) (hc : Closed m img) (hblk : dev.blk = img) (hsize : m.ninos ≤ dev.dBlocks) :
    Consistent dev := by
  have hs := h.owned.super
  have hfirst := hs.first_le
  have hninos := hs.ninos_le
  have hsum := hs.unused
  have hmap : mapSize m.ninos = (m.ninos + 32767) / 32768 := rfl
  have hdef : m.first = 2 + mapSize m.ninos := rfl
  have hload := load_super h hc
  rw [← hblk] at hload
  have hle : m.super.blocks = m.ninos := hs.blocks
  constructor
  case magic => rw [hload]; exact hs.magic
  case pos => rw [hload]; omega
  case blocks_le => rw [hload, hle]; exact hsize
  case small => rw [hload]; omega
  case map_le => rw [hload, hle]; omega
  case zero =>
    rw [hblk, diskBit_closed h hc (by omega)]
    exact decide_eq_false (by omega)
  case pad =>
    rw [hload, hle]
    intro i h1 h2
    rw [hblk, diskBit_closed h hc h2]
    exact decide_eq_false (by omega)
  case count => rw [hload, hle, hblk, card_free h hc]

end Mksfs

open Mksfs in
/-- **The free map.** Whatever `mksfs` puts into an image, `close_sfs` writes a free map whose set bits are
    the blocks not handed out, within the image and without a bit beyond it, and the number of these blocks
    in the superblock. Mounting the image counts the same number; it can only run out of memory or have a
    transfer fail. -/
theorem mksfs_freemap {m₀ m : Mksfs} {ops : List MkOp} {size : Nat} {img₀ : Nat → Bytes}
    (h0 : createSfs size img₀ = .ok m₀) (hrun : MkRuns m₀ ops m) : ∃ img, closeSfs m = .ok () (m.withImg img) ∧
      (∀ i, i < 32768 * mapSize m.ninos → diskBit img i = decide (m.nextIno ≤ i ∧ i < m.ninos)) ∧
      (SfsSuper.load (img 0)).unusedBlocks =
        ((Finset.range (32768 * mapSize m.ninos)).filter fun i => diskBit img i).card ∧
      ∀ dev : Device, dev.blk = img → m.ninos ≤ dev.dBlocks → ∀ kmalloc buffer,
        (∃ s dev', sfsDoMount kmalloc buffer dev = .ok s dev' ∧
          mountUnused s.freemap s.freemap.nbits = s.super.unusedBlocks ∧ s.super.unusedBlocks = m.super.unusedBlocks) ∨
        ((∃ i, kmalloc i = false) ∨ ∃ k, dev.ioRet k ≠ 0) ∧ ∃ e dev', sfsDoMount kmalloc buffer dev = .err e dev' := by
  have h := (runs_inv hrun (createSfs_ok h0).1).1
  obtain ⟨img, hclose, hc⟩ := closeSfs_closed h
  have hload := load_super h hc
  refine ⟨img, hclose, fun i hi => diskBit_closed h hc hi, ?_, fun dev hblk hsize kmalloc buffer => ?_⟩
  · rw [hload, card_free h hc]
  · rcases sfsDoMount_cases kmalloc buffer (consistent h hc hblk hsize) with ⟨s, dev', hmount, hs⟩ | herr
    · have hsuper := hs.super
      rw [hblk, hload] at hsuper
      refine Or.inl ⟨s, dev', hmount, ?_, by rw [hsuper]⟩
      rw [Bitmap.mountUnused_eq, ← hs.ready.nbits]
      exact hs.ready.count.symm
    · exact Or.inr herr

/-- An image of four blocks with one directory besides the root uses them all. -/
theorem mksfs_freemap_newDir : ∃ m₀ m, createSfs 16384 (fun _ _ => 0) = .ok m₀ ∧ MkRuns m₀ [.newDir 7] m ∧
    ∃ img, closeSfs m = .ok () (m.withImg img) ∧ ∀ i, i < 32768 → diskBit img i = false := by
  obtain ⟨m₀, h0⟩ : ∃ m₀, createSfs 16384 (fun _ _ => 0) = .ok m₀ := ⟨_, rfl⟩
  obtain ⟨m, hrun, hnext, hninos⟩ : ∃ m, MkOp.run (.newDir 7) m₀ = .ok () m ∧ m.nextIno = 4 ∧ m.ninos = 4 := by
    injection h0 with h0
    subst h0
    exact ⟨_, rfl, rfl, rfl⟩
  have hruns : MkRuns m₀ [.newDir 7] m := .cons trivial hrun .nil
  obtain ⟨img, hclose, hbit, -⟩ := mksfs_freemap h0 hruns
  refine ⟨m₀, m, h0, hruns, img, hclose, fun i hi => ?_⟩
  rw [hbit i (by rw [hninos]; exact hi), hnext, hninos]
  exact decide_eq_false (by omega)

end Ucore
