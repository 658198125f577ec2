import Ucore.Fs.Sfs.Correctness.Bmap

/-!
# `Fs.Sfs.Correctness.Owned` — the blocks a file owns

A file names blocks in its slots: the data blocks of its 1036 indices, and the entry block. `FileInv c R`
says that these blocks are in use, that no two slots name the same one, that they keep out of the blocks
`R` that belong to somebody else, and that exactly the indices below `din->blocks` are mapped. It holds
across loading an index (`sfsBmapLoadNolock_cases`), whichever way the call ends; `Loaded` is what a
successful load does.
-/

namespace Ucore

open SfsFs

/-- The places in an inode that name a block. -/
inductive Slot where
  | data (i : Fin 1036)
  | entryBlock
deriving DecidableEq

namespace SfsCtx

/-- The block at index `i` of the file. -/
def lookup (c : SfsCtx) (i : Nat) : Nat :=
  if h : i < 12 then c.sin.din.direct ⟨i, h⟩
  else if c.sin.din.indirect = 0 then 0
  else c.fs.entry c.sin.din.indirect (i - 12)

def slot (c : SfsCtx) : Slot → Nat
  | .data i     => c.lookup i
  | .entryBlock => c.sin.din.indirect

def withFs (c : SfsCtx) (s : SfsFs) : SfsCtx := { c with fs := s }

def scratch (c : SfsCtx) (k : Nat) (x : Bytes) : SfsCtx := c.withFs (c.fs.scratch k x)

/-- **The file invariant**, with `R` the blocks that belong to others. -/
structure FileInv (c : SfsCtx) (R : Set Nat) : Prop where
  ready : c.fs.Ready
  use : ∀ t, c.slot t ≠ 0 → c.fs.InUse (c.slot t)
  inj : ∀ t u, c.slot t = c.slot u → c.slot t ≠ 0 → t = u
  reserved : ∀ b ∈ R, b = 0 ∨ c.fs.InUse b
  apart : ∀ t, c.slot t ≠ 0 → c.slot t ∉ R
  dense : ∀ i, i < 1036 → (c.lookup i ≠ 0 ↔ i < c.sin.din.blocks)
  blocks_le : c.sin.din.blocks ≤ 1036

/-- No block is lost: what is in use belongs to the file or to others. -/
def Complete (c : SfsCtx) (R : Set Nat) : Prop := ∀ b, c.fs.InUse b → b ∈ R ∨ ∃ t, c.slot t = b

/-- How many blocks mapping the index `i` takes. -/
def need (c : SfsCtx) (i : Nat) : Nat :=
  if i < 12 then 1 else if c.sin.din.indirect = 0 then 2 else 1

/-- Mapping the index `i` reaches a `sfs_clear_block` that fails: a free block is found, and the transfer
    that zeroes it (or, behind a new entry block, the one that zeroes the second block) fails. -/
def ClearFails (c : SfsCtx) (i : Nat) : Prop :=
  if i < 12 then 0 < c.fs.freemap.setBits ∧ c.fs.fault 0 ≠ 0
  else if c.sin.din.indirect = 0 then
    0 < c.fs.freemap.setBits ∧ (c.fs.fault 0 ≠ 0 ∨ 1 < c.fs.freemap.setBits ∧ c.fs.fault 1 ≠ 0)
  else c.fs.fault 0 = 0 ∧ 0 < c.fs.freemap.setBits ∧ c.fs.fault 1 ≠ 0

/-! ## The three ways to map an index -/

def mapDirect (c : SfsCtx) (i : Fin 12) (b : Nat) : SfsCtx where
  fs := c.fs.alloc b
  sin := { c.sin with
    din := { c.sin.din with direct := Function.update c.sin.din.direct i b }
    dirty := true }

def mapEntry (c : SfsCtx) (j b : Nat) : SfsCtx :=
  c.withFs ((c.fs.alloc b).setEntry c.sin.din.indirect j b)

def mapIndirect (c : SfsCtx) (e j b : Nat) : SfsCtx where
  fs := ((c.fs.alloc e).alloc b).setEntry e j b
  sin := { c.sin with din := { c.sin.din with indirect := e }, dirty := true }

/-- `c'` is `c` with the free block `b` mapped at index `i`. -/
inductive Maps (c : SfsCtx) (i b : Nat) : SfsCtx → Prop where
  | direct (h : i < 12) (hb : c.fs.Free b) : Maps c i b (c.mapDirect ⟨i, h⟩ b)
  | entry (h : 12 ≤ i) (hind : c.sin.din.indirect ≠ 0) (hb : c.fs.Free b) :
      Maps c i b (c.mapEntry (i - 12) b)
  | indirect (h : 12 ≤ i) (hind : c.sin.din.indirect = 0) (e : Nat) (he : c.fs.Free e)
      (hb : (c.fs.alloc e).Free b) : Maps c i b (c.mapIndirect e (i - 12) b)

variable {c c' : SfsCtx} {R : Set Nat} {i j b e k : Nat} {x : Bytes} {s : SfsFs}

theorem lookup_direct (c : SfsCtx) (h : i < 12) : c.lookup i = c.sin.din.direct ⟨i, h⟩ := dif_pos h

theorem lookup_missing (h : ¬ i < 12) (hz : c.sin.din.indirect = 0) : c.lookup i = 0 := by
  unfold lookup
  rw [dif_neg h, if_pos hz]

theorem lookup_entry (h : ¬ i < 12) (hz : c.sin.din.indirect ≠ 0) :
    c.lookup i = c.fs.entry c.sin.din.indirect (i - 12) := by
  unfold lookup
  rw [dif_neg h, if_neg hz]

@[simp] theorem lookup_scratch : (c.scratch k x).lookup i = c.lookup i := rfl

/-- The block map depends on the inode and on the content of its entry block. -/
theorem lookup_congr (hdir : c'.sin.din.direct = c.sin.din.direct)
    (hind : c'.sin.din.indirect = c.sin.din.indirect)
    (hblk : c.sin.din.indirect ≠ 0 →
      c'.fs.dev.blk c.sin.din.indirect = c.fs.dev.blk c.sin.din.indirect) (i : Nat) :
    c'.lookup i = c.lookup i := by
  unfold lookup
  by_cases h : i < 12
  · rw [dif_pos h, dif_pos h, hdir]
  · rw [dif_neg h, dif_neg h, hind]
    by_cases hz : c.sin.din.indirect = 0
    · rw [if_pos hz, if_pos hz]
    · rw [if_neg hz, if_neg hz]
      exact entry_congr (hblk hz)

theorem slot_congr (hdir : c'.sin.din.direct = c.sin.din.direct)
    (hind : c'.sin.din.indirect = c.sin.din.indirect)
    (hblk : c.sin.din.indirect ≠ 0 →
      c'.fs.dev.blk c.sin.din.indirect = c.fs.dev.blk c.sin.din.indirect) (t : Slot) :
    c'.slot t = c.slot t := by
  cases t with
  | data i => exact lookup_congr hdir hind hblk i
  | entryBlock => exact hind

namespace FileInv

theorem indirect_inUse (h : FileInv c R) (hz : c.sin.din.indirect ≠ 0) : c.fs.InUse c.sin.din.indirect :=
  h.use .entryBlock hz

theorem lookup_inUse (h : FileInv c R) (hi : i < 1036) (hz : c.lookup i ≠ 0) : c.fs.InUse (c.lookup i) :=
  h.use (.data ⟨i, hi⟩) hz

theorem lookup_not_mem (h : FileInv c R) (hi : i < 1036) (hz : c.lookup i ≠ 0) : c.lookup i ∉ R :=
  h.apart (.data ⟨i, hi⟩) hz

theorem lookup_inj (h : FileInv c R) (hi : i < 1036) (hj : j < 1036) (he : c.lookup i = c.lookup j)
    (hz : c.lookup i ≠ 0) : i = j := by
  have ht := h.inj (.data ⟨i, hi⟩) (.data ⟨j, hj⟩) he hz
  exact congrArg Fin.val (Slot.data.inj ht)

/-- A data block is not the entry block. -/
theorem lookup_ne_indirect (h : FileInv c R) (hi : i < 1036) (hz : c.lookup i ≠ 0) :
    c.lookup i ≠ c.sin.din.indirect := fun he =>
  Slot.noConfusion (h.inj (.data ⟨i, hi⟩) .entryBlock he hz)

/-- The general preservation rule: slots keep their blocks or get fresh ones. -/
theorem fresh {X : Set Nat} (h : FileInv c R) (hg : Grows X c.fs c'.fs)
    (hslot : ∀ t, c'.slot t = c.slot t ∨ c.fs.Free (c'.slot t) ∧ c'.fs.InUse (c'.slot t))
    (hfresh : ∀ t u, c.fs.Free (c'.slot t) → c.fs.Free (c'.slot u) → c'.slot t = c'.slot u → t = u)
    (hdense : ∀ i, i < 1036 → (c'.lookup i ≠ 0 ↔ i < c'.sin.din.blocks))
    (hle : c'.sin.din.blocks ≤ 1036) : FileInv c' R := by
  have hold : ∀ t u, c'.slot t = c.slot t → c'.slot t ≠ 0 → c.fs.Free (c'.slot u) →
      c'.slot t ≠ c'.slot u := by
    intro t u ht hz hu he
    rw [he] at hz ht
    rw [ht] at hz hu
    exact hu.not_inUse (h.use t hz)
  refine ⟨hg.ready, ?_, ?_, ?_, ?_, hdense, hle⟩
  · intro t hz
    rcases hslot t with ht | ⟨-, hu⟩
    · rw [ht] at hz ⊢
      exact hg.used _ (h.use t hz)
    · exact hu
  · intro t u he hz
    rcases hslot t with ht | ⟨hft, -⟩ <;> rcases hslot u with hu | ⟨hfu, -⟩
    · rw [ht, hu] at he
      rw [ht] at hz
      exact h.inj t u he hz
    · exact absurd he (hold t u ht hz hfu)
    · exact absurd he.symm (hold u t hu (he ▸ hz) hft)
    · exact hfresh t u hft hfu he
  · intro b hb
    exact (h.reserved b hb).imp id fun hu => hg.used b hu
  · intro t hz
    rcases hslot t with ht | ⟨hf, -⟩
    · rw [ht] at hz ⊢
      exact h.apart t hz
    · intro hmem
      rcases h.reserved _ hmem with h0 | hu
      · exact hz h0
      · exact hf.not_inUse hu

/-- Changes of the file system that touch no block in use, and of the inode's other fields. -/
theorem congr (h : FileInv c R) (hg : Grows ∅ c.fs c'.fs) (hdir : c'.sin.din.direct = c.sin.din.direct)
    (hind : c'.sin.din.indirect = c.sin.din.indirect) (hb : c'.sin.din.blocks = c.sin.din.blocks) :
    FileInv c' R := by
  have hblk : c.sin.din.indirect ≠ 0 →
      c'.fs.dev.blk c.sin.din.indirect = c.fs.dev.blk c.sin.din.indirect := fun hz =>
    hg.disk _ (h.indirect_inUse hz) (Set.notMem_empty _)
  have hlook : ∀ i, c'.lookup i = c.lookup i := lookup_congr hdir hind hblk
  have hslot : ∀ t, c'.slot t = c.slot t := slot_congr hdir hind hblk
  refine ⟨hg.ready, fun t hz => ?_, fun t u => ?_, fun b hm => ?_, fun t => ?_, fun i hi => ?_, ?_⟩
  · rw [hslot] at hz ⊢
    exact hg.used _ (h.use t hz)
  · rw [hslot, hslot]
    exact h.inj t u
  · exact (h.reserved b hm).imp id fun hu => hg.used b hu
  · rw [hslot]
    exact h.apart t
  · rw [hlook, hb]
    exact h.dense i hi
  · rw [hb]
    exact h.blocks_le

theorem scratch (h : FileInv c R) : FileInv (c.scratch k x) R :=
  h.congr (Grows.refl h.ready).scratch rfl rfl rfl

end FileInv

/-! ## What a mapping does -/

/-- The effect of mapping `b` at `i`, whichever of the three ways it went. -/
structure Mapped (c : SfsCtx) (i b : Nat) (c' : SfsCtx) : Prop where
  grows : Grows {x | x ≠ 0 ∧ x = c.sin.din.indirect} c.fs c'.fs
  free : c.fs.Free b
  inUse : c'.fs.InUse b
  look : c'.lookup i = b
  other : ∀ j, j < 1036 → j ≠ i → c'.lookup j = c.lookup j
  indirect : c'.sin.din.indirect = c.sin.din.indirect ∨ c.sin.din.indirect = 0 ∧
    c.fs.Free c'.sin.din.indirect ∧ c'.fs.InUse c'.sin.din.indirect ∧ c'.sin.din.indirect ≠ b
  blank : ∀ k, k < 4096 → c'.fs.dev.blk b k = 0
  superDirty : c'.fs.superDirty = true
  setBits : c'.fs.freemap.setBits + c.need i = c.fs.freemap.setBits
  complete : ∀ x, c'.fs.InUse x → c.fs.InUse x ∨ x = b ∨ x = c'.sin.din.indirect
  size : c'.sin.din.size = c.sin.din.size
  type : c'.sin.din.type = c.sin.din.type
  nlinks : c'.sin.din.nlinks = c.sin.din.nlinks
  blocks : c'.sin.din.blocks = c.sin.din.blocks
  ino : c'.sin.ino = c.sin.ino
  clean : c'.sin.dirty = false → c'.sin = c.sin

theorem inUse_alloc_inv (h : (s.alloc b).InUse j) : s.InUse j ∨ j = b := by
  by_cases he : j = b
  · exact Or.inr he
  · refine Or.inl ⟨h.ne, h.lt, ?_⟩
    have hb := h.bit
    rwa [freemap_alloc, Bitmap.bit_flip, if_neg he] at hb

theorem mapped_direct (h : FileInv c R) (hi : i < 12) (hb : c.fs.Free b) :
    Mapped c i b (c.mapDirect ⟨i, hi⟩ b) := by
  have hg : Grows ∅ c.fs (c.fs.alloc b) := (Grows.refl h.ready).alloc hb
  refine ⟨hg.mono (Set.empty_subset _), hb, inUse_alloc hb.ne hb.lt hb.bit, ?_, ?_, Or.inl rfl, ?_, rfl, ?_,
    ?_, rfl, rfl, rfl, rfl, rfl, fun hd => Bool.noConfusion (show true = false from hd)⟩
  · unfold lookup mapDirect
    rw [dif_pos hi]
    exact Function.update_self ..
  · intro j hj hji
    unfold lookup mapDirect
    by_cases hlt : j < 12
    · rw [dif_pos hlt, dif_pos hlt]
      exact Function.update_of_ne (fun he => hji (congrArg Fin.val he)) ..
    · rw [dif_neg hlt, dif_neg hlt]
      by_cases hz : c.sin.din.indirect = 0
      · rw [if_pos hz, if_pos hz]
      · rw [if_neg hz, if_neg hz]
        exact entry_congr (hg.disk _ (h.indirect_inUse hz) (Set.notMem_empty _))
  · intro k hk
    show (c.fs.alloc b).dev.blk b k = 0
    rw [blk_alloc_self]
    exact memzero_lt hk
  · unfold need
    rw [if_pos hi]
    exact hb.setBits_take h.ready
  · intro x hx
    exact (inUse_alloc_inv hx).imp id Or.inl

theorem mapped_entry (h : FileInv c R) (hi : 12 ≤ i) (hi' : i < 1036) (hind : c.sin.din.indirect ≠ 0)
    (hb : c.fs.Free b) : Mapped c i b (c.mapEntry (i - 12) b) := by
  have huse := h.indirect_inUse hind
  have hne : c.sin.din.indirect ≠ b := huse.ne_of_free hb.bit
  have hsmall : b < 2 ^ 32 := by
    have := hb.lt
    have := h.ready.blocks_le
    have := h.ready.small
    omega
  have hga : Grows ∅ c.fs (c.fs.alloc b) := (Grows.refl h.ready).alloc hb
  have hent : ∀ j, (c.fs.alloc b).entry c.sin.din.indirect j = c.fs.entry c.sin.din.indirect j := fun j =>
    entry_congr (hga.disk _ huse (Set.notMem_empty _))
  refine ⟨(hga.mono (Set.empty_subset _)).setBlk (Or.inl ⟨hind, rfl⟩), hb,
    (inUse_alloc hb.ne hb.lt hb.bit).setBlk, ?_, ?_, Or.inl rfl, ?_, rfl, ?_, ?_, rfl, rfl, rfl, rfl, rfl,
    fun _ => rfl⟩
  · unfold lookup mapEntry withFs
    rw [dif_neg (by omega), if_neg hind]
    exact entry_setEntry_self hsmall
  · intro j hj hji
    unfold lookup mapEntry withFs
    by_cases hlt : j < 12
    · rw [dif_pos hlt, dif_pos hlt]
    · rw [dif_neg hlt, dif_neg hlt, if_neg hind, if_neg hind]
      rw [entry_setEntry_of_ne (show j - 12 ≠ i - 12 by omega), hent]
  · intro k hk
    show ((c.fs.alloc b).setEntry c.sin.din.indirect (i - 12) b).dev.blk b k = 0
    rw [blk_setEntry_of_ne (Ne.symm hne), blk_alloc_self]
    exact memzero_lt hk
  · unfold need
    rw [if_neg (by omega), if_neg hind]
    exact hb.setBits_take h.ready
  · intro x hx
    exact (inUse_alloc_inv (b := b) ⟨hx.ne, hx.lt, hx.bit⟩).imp id Or.inl

theorem mapped_indirect (h : FileInv c R) (hi : 12 ≤ i) (hi' : i < 1036) (hind : c.sin.din.indirect = 0)
    (he : c.fs.Free e) (hb : (c.fs.alloc e).Free b) : Mapped c i b (c.mapIndirect e (i - 12) b) := by
  have hra : (c.fs.alloc e).Ready := h.ready.alloc he.lt he.bit
  have hea : (c.fs.alloc e).InUse e := inUse_alloc he.ne he.lt he.bit
  have hne : e ≠ b := hea.ne_of_free hb.bit
  have hga : Grows ∅ c.fs (c.fs.alloc e) := (Grows.refl h.ready).alloc he
  have hgb : Grows ∅ c.fs ((c.fs.alloc e).alloc b) := hga.alloc hb
  have hb0 : c.fs.Free b := by
    refine ⟨hb.ne, hb.lt, ?_⟩
    have := hb.bit
    rwa [freemap_alloc, Bitmap.bit_flip, if_neg (Ne.symm hne)] at this
  have hsmall : b < 2 ^ 32 := by
    have := hb.lt
    have := h.ready.blocks_le
    have := h.ready.small
    have hlt : b < c.fs.super.blocks := hb.lt
    omega
  have hblank : ((c.fs.alloc e).alloc b).dev.blk e = memzero (c.fs.dev.blk e) 4096 := by
    rw [blk_alloc_of_ne _ hne, blk_alloc_self]
  refine ⟨(hgb.mono (Set.empty_subset _)).setBlk (Or.inr he), hb0,
    (inUse_alloc hb.ne hb.lt hb.bit).setBlk, ?_, ?_,
    Or.inr ⟨hind, he, (hea.alloc hb.bit).setBlk, hne⟩, ?_, rfl, ?_, ?_, rfl, rfl, rfl, rfl, rfl,
    fun hd => Bool.noConfusion (show true = false from hd)⟩
  · unfold lookup mapIndirect
    rw [dif_neg (by omega), if_neg he.ne]
    exact entry_setEntry_self hsmall
  · intro j hj hji
    unfold lookup mapIndirect
    by_cases hlt : j < 12
    · rw [dif_pos hlt, dif_pos hlt]
    · rw [dif_neg hlt, dif_neg hlt, if_pos hind, if_neg he.ne]
      rw [entry_setEntry_of_ne (show j - 12 ≠ i - 12 by omega)]
      exact entry_memzero hblank (by omega)
  · intro k hk
    show (((c.fs.alloc e).alloc b).setEntry e (i - 12) b).dev.blk b k = 0
    rw [blk_setEntry_of_ne (Ne.symm hne), blk_alloc_self]
    exact memzero_lt hk
  · have h1 := he.setBits_take h.ready
    have h2 := hb.setBits_take hra
    unfold need
    rw [if_neg (by omega), if_pos hind]
    show ((c.fs.freemap.flip e).flip b).setBits + 2 = c.fs.freemap.setBits
    rw [freemap_alloc] at h2
    omega
  · intro x hx
    rcases inUse_alloc_inv (b := b) (s := c.fs.alloc e) ⟨hx.ne, hx.lt, hx.bit⟩ with hx | hx
    · exact (inUse_alloc_inv hx).imp id Or.inr
    · exact Or.inr (Or.inl hx)

theorem Maps.mapped (h : FileInv c R) (hi : i < 1036) (hm : Maps c i b c') : Mapped c i b c' := by
  cases hm with
  | direct hlt hb => exact mapped_direct h hlt hb
  | entry hge hind hb => exact mapped_entry h hge hi hind hb
  | indirect hge hind e he hb => exact mapped_indirect h hge hi hind he hb

end SfsCtx

/-! ## A small file system -/

/-- Six blocks: the superblock, the free map, an empty file whose inode is block 2, and three free ones. -/
def emptyFile : SfsCtx where
  fs := {
    super := { magic := sfsMagic, blocks := 6, unusedBlocks := 3, info := fun _ => 0 }
    dev := { dBlocks := 6, blk := fun _ _ => 0, ioRet := fun _ => 0, ticks := 0 }
    freemap := { nbits := 32, nwords := 1, map := fun _ => 0x38#32 }
    superDirty := false
    sfsBuffer := fun _ => 0 }
  sin := {
    din := { size := 0, type := sfsTypeFile, nlinks := 1, blocks := 0, direct := fun _ => 0, indirect := 0 }
    ino := 2, dirty := false, reclaimCount := 1, refCount := 1 }

theorem emptyFile_slot (t : Slot) : emptyFile.slot t = 0 := by
  cases t with
  | data j =>
    show emptyFile.lookup j = 0
    unfold SfsCtx.lookup
    split <;> rfl
  | entryBlock => rfl

theorem emptyFile_inv : SfsCtx.FileInv emptyFile ∅ := by
  have hslot := emptyFile_slot
  refine ⟨⟨by decide, by decide, by decide, rfl, rfl, ?_, by decide⟩, fun t ht => absurd (hslot t) ht,
    fun t u _ ht => absurd (hslot t) ht, fun b hb => absurd hb (Set.notMem_empty b), fun t ht => absurd (hslot t) ht,
    fun i hi => ?_, by decide⟩
  · intro i h6 h32
    have h : ∀ i, i < 32 → 6 ≤ i → emptyFile.fs.freemap.bit i = false := by decide
    exact h i h32 h6
  · exact iff_of_false (not_not_intro (hslot (.data ⟨i, hi⟩))) (Nat.not_lt_zero i)

end Ucore
