import Ucore.Fs.Sfs.Correctness.FileStep
import Ucore.Fs.Sfs.Correctness.Mount
import Ucore.Fs.Sfs.Volume

/-!
# `Fs.Sfs.Correctness.VolumeInv` — who owns which block of a file system

A file is known by its inode number, and its inode is the one in memory if there is one, else the one on the disk
(`SfsVolume.din`). `VolInv G v` says, of the files `G`, that each has the file invariant with the blocks of all others out
of its reach. It is kept by a call on one file (`VolInv.put`) and by whatever only touches the superblock and the free map
on the disk (`VolInv.same`), and either way the other files stay exactly as they were (`SameFile`).
-/

namespace Ucore

open SfsFs SfsCtx

/-- The file invariant depends on the slots, and on what is in use. -/
theorem SfsCtx.FileInv.of_slots {c c' : SfsCtx} {R R' : Set Nat} (h : FileInv c R) (hready : c'.fs.Ready)
    (hslot : ∀ t, c'.slot t = c.slot t) (hblocks : c'.sin.din.blocks = c.sin.din.blocks)
    (huse : ∀ t, c.slot t ≠ 0 → c'.fs.InUse (c.slot t)) (hres : ∀ b ∈ R', b = 0 ∨ c'.fs.InUse b)
    (hapart : ∀ t, c.slot t ≠ 0 → c.slot t ∉ R') : FileInv c' R' where
  ready := hready
  use := fun t => by
    rw [hslot]
    exact huse t
  inj := fun t u => by
    rw [hslot, hslot]
    exact h.inj t u
  reserved := hres
  apart := fun t => by
    rw [hslot]
    exact hapart t
  dense := fun i hi => by
    have hlook : c'.lookup i = c.lookup i := hslot (.data ⟨i, hi⟩)
    rw [hlook, hblocks]
    exact h.dense i hi
  blocks_le := by
    rw [hblocks]
    exact h.blocks_le

theorem SfsCtx.FileInv.of_din {c c' : SfsCtx} {R : Set Nat} (h : FileInv c R) (hfs : c'.fs = c.fs)
    (hdin : c'.sin.din = c.sin.din) : FileInv c' R := by
  have hg : Grows ∅ c.fs c'.fs := by
    rw [hfs]
    exact .refl h.ready
  apply h.congr hg <;> rw [hdin]

namespace Volume

/-- The superblock and the free map. -/
def books (s : SfsFs) : Set Nat := {b | b = 0 ∨ 2 ≤ b ∧ b < 2 + mapSize s.super.blocks}

/-- What mounting makes sure of, and nobody changes. -/
structure Geometry (s : SfsFs) : Prop where
  magic : s.super.magic = sfsMagic
  info : s.super.info 31 = 0
  nbits : s.freemap.nbits = 32768 * mapSize s.super.blocks
  map_le : 2 + mapSize s.super.blocks ≤ s.super.blocks

namespace SfsVolume

/-- The inode of a file: in memory, or else on the disk. -/
def din (v : SfsVolume) (ino : Nat) : SfsDiskInode :=
  match v.find ino with
  | none     => SfsDiskInode.load (v.fs.dev.blk ino)
  | some sin => sin.din

/-- A file, as far as its block map goes. -/
def ctx (v : SfsVolume) (ino : Nat) : SfsCtx where
  fs := v.fs
  sin := { din := v.din ino, ino := ino, dirty := false, reclaimCount := 0, refCount := 0 }

/-- The blocks that do not belong to the file `ino`, of the files `G`. -/
def others (v : SfsVolume) (G : Set Nat) (ino : Nat) : Set Nat :=
  {b | b ∈ books v.fs ∨ b ∈ G ∨ ∃ i ∈ G, i ≠ ino ∧ b ∈ (v.ctx i).owned}

/-- What a call on the inode `c.sin` leaves. -/
def put (v : SfsVolume) (c : SfsCtx) : SfsVolume := { v with fs := c.fs }.store c.sin

/-- The inode number in slot `k` of a directory. -/
def entry (v : SfsVolume) (dir k : Nat) : Nat := getLe (v.fs.dev.blk ((v.ctx dir).lookup k)) 0 4

end SfsVolume

open SfsVolume

/-- **The volume invariant**, for the files with inode numbers in `G`. -/
structure VolInv (G : Set Nat) (v : SfsVolume) : Prop where
  ready : v.fs.Ready
  geometry : Geometry v.fs
  file : ∀ ino ∈ G, FileInv (v.ctx ino) (v.others G ino)
  inode : ∀ ino ∈ G, ino ∉ books v.fs
  loaded : ∀ i ∈ v.inodes.map SfsInode.ino, i ∈ G
  nodup : (v.inodes.map SfsInode.ino).Nodup
  root : sfsBlknRoot ∈ G
  type : ∀ ino ∈ G, (v.din ino).type = sfsTypeDir ∨ (v.din ino).type = sfsTypeFile
  nlinks : ∀ ino ∈ G, (v.din ino).nlinks ≠ 0
  fits : ∀ ino ∈ G, (v.din ino).Fits
  dir : ∀ d ∈ G, (v.din d).type = sfsTypeDir → ∀ k, k < (v.din d).blocks → v.entry d k = 0 ∨ v.entry d k ∈ G

/-- The file is what it was: its inode, its blocks, and what they hold. -/
structure SameFile (v v' : SfsVolume) (ino : Nat) : Prop where
  din : v'.din ino = v.din ino
  slot : ∀ t, (v'.ctx ino).slot t = (v.ctx ino).slot t
  blk : ∀ b ∈ (v.ctx ino).owned, v'.fs.dev.blk b = v.fs.dev.blk b

/-- What a call on one file does, if it may also rewrite the file's inode block. -/
structure Effect (R : Set Nat) (c c' : SfsCtx) : Prop where
  inv : FileInv c' R
  static : Static c.fs c'.fs
  others : ∀ b ∈ R, b ≠ c.sin.ino → c.fs.InUse b → c'.fs.dev.blk b = c.fs.dev.blk b
  ino : c'.sin.ino = c.sin.ino
  type : c'.sin.din.type = c.sin.din.type
  nlinks : c'.sin.din.nlinks = c.sin.din.nlinks
  size : c'.sin.din.size ≤ max c.sin.din.size (2 ^ 28)
  dir : c.sin.din.type = sfsTypeDir → c'.sin.din = c.sin.din ∧ ∀ b ∈ c.owned, c'.fs.dev.blk b = c.fs.dev.blk b

/-- The superblock and the free map are on the disk as they are in memory. -/
structure OnDisk (s : SfsFs) : Prop where
  super : s.super = { SfsSuper.load (s.dev.blk 0) with info := Function.update (SfsSuper.load (s.dev.blk 0)).info 31 0 }
  bit : ∀ i, i < s.freemap.nbits → s.freemap.bit i = diskBit s.dev.blk i

/-- They are unless `super_dirty` says otherwise. -/
def Booked (s : SfsFs) : Prop := s.superDirty = false → OnDisk s

/-- What is known of the blocks has not changed. -/
structure KeptFs (s s' : SfsFs) : Prop where
  ready : s'.Ready
  static : Static s s'
  super : s'.super = s.super
  freemap : s'.freemap = s.freemap
  booked : Booked s → Booked s'

/-- On the disk, at most the superblock and the free map have changed. -/
structure SameBooks (s s' : SfsFs) : Prop where
  kept : KeptFs s s'
  blk : ∀ b, b ∉ books s → s'.dev.blk b = s.dev.blk b

/-- The same blocks are in use, and outside the superblock and the free map they hold the same. -/
structure SameBlocks (s s' : SfsFs) : Prop where
  ready : s'.Ready
  super : s'.super = s.super
  nbits : s'.freemap.nbits = s.freemap.nbits
  inUse : ∀ b, s.InUse b → s'.InUse b
  blk : ∀ b, b ∉ books s → s'.dev.blk b = s.dev.blk b

variable {G : Set Nat} {v v' v'' : SfsVolume} {ino j : Nat} {sin : SfsInode} {c c' : SfsCtx} {R : Set Nat} {s : SfsFs}

/-! ## Inodes in memory -/

theorem find_some (h : v.find ino = some sin) : sin ∈ v.inodes ∧ sin.ino = ino :=
  ⟨List.mem_of_find?_eq_some h, by simpa using List.find?_some h⟩

theorem find_of_mem (hnodup : (v.inodes.map SfsInode.ino).Nodup) (h : sin ∈ v.inodes) : v.find sin.ino = some sin := by
  cases hf : v.find sin.ino with
  | none =>
    have hne := List.find?_eq_none.mp hf sin h
    simp at hne
  | some old =>
    obtain ⟨hmem, hino⟩ := find_some hf
    rw [List.inj_on_of_nodup_map hnodup hmem h hino]

theorem find_eq_none : v.find ino = none ↔ ino ∉ v.inodes.map SfsInode.ino := by
  simp [SfsVolume.find, List.find?_eq_none]

/-- Storing an inode changes no number. -/
theorem inos_store (v : SfsVolume) (sin : SfsInode) : (v.store sin).inodes.map SfsInode.ino = v.inodes.map SfsInode.ino := by
  unfold SfsVolume.store
  rw [List.map_map]
  apply List.map_congr_left
  intro old _
  simp only [Function.comp_apply]
  split
  · next he => exact he.symm
  · rfl

theorem find_store (v : SfsVolume) (sin : SfsInode) (j : Nat) :
    (v.store sin).find j = (v.find j).map fun old => if j = sin.ino then sin else old := by
  unfold SfsVolume.find SfsVolume.store
  rw [List.find?_map]
  have hsame : ((fun old : SfsInode => decide (old.ino = j)) ∘ fun old => if old.ino = sin.ino then sin else old)
      = fun old => decide (old.ino = j) := by
    funext old
    simp only [Function.comp_apply]
    split
    · next he => rw [he]
    · rfl
  rw [hsame]
  cases hf : v.inodes.find? fun old => decide (old.ino = j) with
  | none => rfl
  | some old =>
    have he : old.ino = j := by simpa using List.find?_some hf
    simp [he]

theorem find_store_self (h : v.find sin.ino = some c.sin) : (v.store sin).find sin.ino = some sin := by
  simp [find_store, h]

theorem find_store_ne (h : j ≠ sin.ino) : (v.store sin).find j = v.find j := by
  simp [find_store, h]

/-! ## Files -/

theorem SameFile.refl (v : SfsVolume) (ino : Nat) : SameFile v v ino := ⟨rfl, fun _ => rfl, fun _ _ => rfl⟩

theorem SameFile.owned (h : SameFile v v' ino) : (v'.ctx ino).owned = (v.ctx ino).owned := by
  ext b
  unfold SfsCtx.owned
  simp [h.slot]

theorem SameFile.trans (h : SameFile v v' ino) (h' : SameFile v' v'' ino) : SameFile v v'' ino where
  din := h'.din.trans h.din
  slot := fun t => (h'.slot t).trans (h.slot t)
  blk := fun b hb => (h'.blk b (h.owned ▸ hb)).trans (h.blk b hb)

theorem SameFile.symm (h : SameFile v v' ino) : SameFile v' v ino where
  din := h.din.symm
  slot := fun t => (h.slot t).symm
  blk := fun b hb => (h.blk b (h.owned ▸ hb)).symm

/-- A file whose inode and blocks are untouched. -/
theorem SameFile.of_blk (hdin : v'.din ino = v.din ino)
    (hblk : ∀ b ∈ (v.ctx ino).owned, v'.fs.dev.blk b = v.fs.dev.blk b) : SameFile v v' ino := by
  refine ⟨hdin, ?_, hblk⟩
  apply slot_congr
  · exact congrArg SfsDiskInode.direct hdin
  · exact congrArg SfsDiskInode.indirect hdin
  · intro hz
    exact hblk _ ⟨hz, .entryBlock, rfl⟩

/-- The bytes of a file that is what it was. -/
theorem SameFile.byteAt (h : SameFile v v' ino) (hinv : FileInv (v.ctx ino) R) {p : Nat}
    (hp : p / 4096 < (v.din ino).blocks) : (v'.ctx ino).byteAt p = (v.ctx ino).byteAt p := by
  have hlt : p / 4096 < 1036 := Nat.lt_of_lt_of_le hp hinv.blocks_le
  have hne : (v.ctx ino).lookup (p / 4096) ≠ 0 := (hinv.dense _ hlt).mpr hp
  have hlook : (v'.ctx ino).lookup (p / 4096) = (v.ctx ino).lookup (p / 4096) := h.slot (.data ⟨_, hlt⟩)
  unfold SfsCtx.byteAt
  rw [hlook]
  exact congrFun (h.blk _ ⟨hne, .data ⟨_, hlt⟩, rfl⟩) _

theorem SameFile.entry (h : SameFile v v' ino) (hinv : FileInv (v.ctx ino) R) {k : Nat} (hk : k < (v.din ino).blocks) :
    v'.entry ino k = v.entry ino k := by
  have hlt : k < 1036 := Nat.lt_of_lt_of_le hk hinv.blocks_le
  have hne : (v.ctx ino).lookup k ≠ 0 := (hinv.dense _ hlt).mpr hk
  have hlook : (v'.ctx ino).lookup k = (v.ctx ino).lookup k := h.slot (.data ⟨_, hlt⟩)
  unfold SfsVolume.entry
  rw [hlook, h.blk _ ⟨hne, .data ⟨_, hlt⟩, rfl⟩]

/-- The context of a file does not depend on how its inode is held. -/
theorem owned_ctx (hfs : c.fs = v.fs) (hdin : c.sin.din = v.din ino) : (v.ctx ino).owned = c.owned := by
  unfold SfsCtx.owned
  have hslot : ∀ t, (v.ctx ino).slot t = c.slot t := by
    apply slot_congr
    · rw [hdin]
      rfl
    · rw [hdin]
      rfl
    · intro _
      rw [hfs]
      rfl
  simp [hslot]

theorem fileInv_ctx (hfs : c.fs = v.fs) (hdin : c.sin.din = v.din ino) : FileInv (v.ctx ino) R ↔ FileInv c R :=
  ⟨fun h => h.of_din hfs hdin, fun h => h.of_din hfs.symm hdin.symm⟩

theorem din_of_find (h : v.find ino = some sin) : v.din ino = sin.din := by
  unfold SfsVolume.din
  rw [h]

/-! ## The invariant -/

theorem Geometry.of_static {s s' : SfsFs} (h : Geometry s) (hs : Static s s') : Geometry s' where
  magic := hs.magic.trans h.magic
  info := by
    rw [hs.info]
    exact h.info
  nbits := by
    rw [hs.nbits, hs.blocks]
    exact h.nbits
  map_le := by
    rw [hs.blocks]
    exact h.map_le

theorem Geometry.of_super {s s' : SfsFs} (h : Geometry s) (hsuper : s'.super = s.super)
    (hnbits : s'.freemap.nbits = s.freemap.nbits) : Geometry s' := by
  refine ⟨?_, ?_, ?_, ?_⟩
  · rw [hsuper]
    exact h.magic
  · rw [hsuper]
    exact h.info
  · rw [hnbits, hsuper]
    exact h.nbits
  · rw [hsuper]
    exact h.map_le

theorem SameBooks.blocks {s s' : SfsFs} (h : SameBooks s s') : SameBlocks s s' where
  ready := h.kept.ready
  super := h.kept.super
  nbits := h.kept.static.nbits
  inUse := fun b hu => ⟨hu.ne, by rw [h.kept.super]; exact hu.lt, by rw [h.kept.freemap]; exact hu.bit⟩
  blk := h.blk

theorem books_congr {s s' : SfsFs} (h : s'.super.blocks = s.super.blocks) : books s' = books s := by
  unfold books
  rw [h]

namespace VolInv

/-- A block of one file is none of the volume's own, no inode, and no block of another file. -/
theorem owned_apart (h : VolInv G v) (hj : j ∈ G) {b : Nat} (hb : b ∈ (v.ctx j).owned) : b ∉ v.others G j := by
  obtain ⟨hne, t, rfl⟩ := hb
  exact (h.file j hj).apart t hne

theorem owned_not_books (h : VolInv G v) (hj : j ∈ G) {b : Nat} (hb : b ∈ (v.ctx j).owned) : b ∉ books v.fs :=
  fun hm => h.owned_apart hj hb (Or.inl hm)

theorem owned_not_inode (h : VolInv G v) (hj : j ∈ G) {b : Nat} (hb : b ∈ (v.ctx j).owned) : b ∉ G :=
  fun hm => h.owned_apart hj hb (Or.inr (Or.inl hm))

theorem owned_inUse (h : VolInv G v) (hj : j ∈ G) {b : Nat} (hb : b ∈ (v.ctx j).owned) : v.fs.InUse b := by
  obtain ⟨hne, t, rfl⟩ := hb
  exact (h.file j hj).use t hne

/-- An inode block is in use. -/
theorem inode_inUse (h : VolInv G v) (hino : ino ∈ G) : v.fs.InUse ino := by
  rcases (h.file ino hino).reserved ino (Or.inr (Or.inl hino)) with h0 | hu
  · exact absurd (Or.inl h0) (h.inode ino hino)
  · exact hu

/-- The fields of a sound inode fit their types. -/
theorem fits_of_inv (h : FileInv c R) (hsize : c.sin.din.size < 2 ^ 32) (htype : c.sin.din.type < 2 ^ 16)
    (hnlinks : c.sin.din.nlinks < 2 ^ 16) : c.sin.din.Fits := by
  have hsmall : ∀ t, c.slot t < 2 ^ 32 := by
    intro t
    by_cases hz : c.slot t = 0
    · omega
    · have hlt := (h.use t hz).lt
      have hle := h.ready.blocks_le
      have hmax := h.ready.small
      omega
  refine ⟨hsize, htype, hnlinks, ?_, ?_, hsmall .entryBlock⟩
  · have := h.blocks_le
    omega
  · intro i
    have hi := i.isLt
    have hlook : c.lookup i = c.sin.din.direct i := c.lookup_direct hi
    have hslot : c.lookup i < 2 ^ 32 := hsmall (.data ⟨i, by omega⟩)
    rwa [hlook] at hslot

section Same

variable (h : VolInv G v) (hfs : SameBlocks v.fs v'.fs) (hdin : ∀ i ∈ G, v'.din i = v.din i)
include h hfs hdin

theorem same_file (hj : j ∈ G) : SameFile v v' j :=
  .of_blk (hdin j hj) fun b hb => hfs.blk b (h.owned_not_books hj hb)

theorem same_others (j : Nat) : v'.others G j = v.others G j := by
  have hbooks : books v'.fs = books v.fs := books_congr (by rw [hfs.super])
  ext b
  unfold SfsVolume.others
  simp only [Set.mem_ofPred_eq, hbooks]
  refine or_congr_right (or_congr_right ?_)
  constructor
  · rintro ⟨i, hi, hne, hb⟩
    exact ⟨i, hi, hne, (h.same_file hfs hdin hi).owned ▸ hb⟩
  · rintro ⟨i, hi, hne, hb⟩
    exact ⟨i, hi, hne, (h.same_file hfs hdin hi).owned.symm ▸ hb⟩

/-- **Nothing has happened** to any file: inodes may have come into memory or left it. -/
theorem same (hloaded : ∀ i ∈ v'.inodes.map SfsInode.ino, i ∈ G) (hnodup : (v'.inodes.map SfsInode.ino).Nodup) :
    VolInv G v' := by
  refine ⟨hfs.ready, h.geometry.of_super hfs.super hfs.nbits, ?_, ?_, hloaded, hnodup, h.root, ?_, ?_, ?_, ?_⟩
  · intro j hj
    have hinv := h.file j hj
    have hsame := h.same_file hfs hdin hj
    rw [h.same_others hfs hdin]
    apply hinv.of_slots hfs.ready hsame.slot
    · exact congrArg SfsDiskInode.blocks hsame.din
    · intro t hz
      exact hfs.inUse _ (hinv.use t hz)
    · intro b hb
      exact (hinv.reserved b hb).imp id (hfs.inUse b)
    · exact hinv.apart
  · intro j hj
    rw [books_congr (s := v.fs) (by rw [hfs.super])]
    exact h.inode j hj
  · intro j hj
    rw [hdin j hj]
    exact h.type j hj
  · intro j hj
    rw [hdin j hj]
    exact h.nlinks j hj
  · intro j hj
    rw [hdin j hj]
    exact h.fits j hj
  · intro d hd htype k hk
    rw [hdin d hd] at htype hk
    rw [(h.same_file hfs hdin hd).entry (h.file d hd) hk]
    exact h.dir d hd htype k hk

end Same

theorem put_find_self (hfind : v.find ino = some sin) (hc : c'.sin.ino = sin.ino) : (v.put c').find ino = some c'.sin := by
  have hino := (find_some hfind).2
  unfold SfsVolume.put
  rw [find_store]
  simp [SfsVolume.find] at hfind ⊢
  simp [hfind, hc, hino]

theorem put_find_ne (hfind : v.find ino = some sin) (hc : c'.sin.ino = sin.ino) (hne : j ≠ ino) :
    (v.put c').find j = v.find j := by
  have hino := (find_some hfind).2
  exact find_store_ne (v := { v with fs := c'.fs }) (by rwa [hc, hino])

theorem put_din (hfind : v.find ino = some sin) (hc : c'.sin.ino = sin.ino) : (v.put c').din ino = c'.sin.din :=
  din_of_find (put_find_self hfind hc)

theorem put_owned (hfind : v.find ino = some sin) (hc : c'.sin.ino = sin.ino) :
    ((v.put c').ctx ino).owned = c'.owned := owned_ctx rfl (put_din hfind hc).symm

section Put

variable (h : VolInv G v) (hino : ino ∈ G) (hfind : v.find ino = some sin) (he : Effect (v.others G ino) ⟨v.fs, sin⟩ c')
include h hino hfind he

/-- **The other files** are what they were. -/
theorem put_same (hj : j ∈ G) (hne : j ≠ ino) : SameFile v (v.put c') j := by
  have hc : sin.ino = ino := (find_some hfind).2
  apply SameFile.of_blk
  · unfold SfsVolume.din
    rw [put_find_ne hfind he.ino hne]
    cases v.find j with
    | some old => rfl
    | none =>
      have hblk := he.others j (Or.inr (Or.inl hj)) (by rwa [hc]) (h.inode_inUse hj)
      exact congrArg SfsDiskInode.load hblk
  · intro b hb
    apply he.others b (Or.inr (Or.inr ⟨j, hj, hne, hb⟩)) _ (h.owned_inUse hj hb)
    rw [hc]
    rintro rfl
    exact h.owned_not_inode hj hb hino

theorem put_others : (v.put c').others G ino = v.others G ino := by
  have hbooks : books (v.put c').fs = books v.fs := books_congr he.static.blocks
  ext b
  unfold SfsVolume.others
  simp only [Set.mem_ofPred_eq, hbooks]
  refine or_congr_right (or_congr_right ?_)
  constructor
  · rintro ⟨i, hi, hne, hb⟩
    exact ⟨i, hi, hne, (h.put_same hino hfind he hi hne).owned ▸ hb⟩
  · rintro ⟨i, hi, hne, hb⟩
    exact ⟨i, hi, hne, (h.put_same hino hfind he hi hne).owned.symm ▸ hb⟩

theorem put_self : FileInv ((v.put c').ctx ino) ((v.put c').others G ino) := by
  rw [h.put_others hino hfind he]
  exact he.inv.of_din rfl (put_din hfind he.ino)

/-- Another file still has the file invariant, now that the blocks of `ino` are those of `c'`. -/
theorem put_other (hj : j ∈ G) (hne : j ≠ ino) : FileInv ((v.put c').ctx j) ((v.put c').others G j) := by
  have hinv := h.file j hj
  have hsame := h.put_same hino hfind he hj hne
  have hbooks : books (v.put c').fs = books v.fs := books_congr he.static.blocks
  -- what is not the file's own is reserved for `ino`, too
  have huse : ∀ b, b ∈ v.others G ino → b = 0 ∨ c'.fs.InUse b := he.inv.reserved
  have hready : ((v.put c').ctx j).fs.Ready := he.inv.ready
  apply hinv.of_slots hready hsame.slot
  · exact congrArg SfsDiskInode.blocks hsame.din
  · intro t hz
    exact (huse _ (Or.inr (Or.inr ⟨j, hj, hne, hz, t, rfl⟩))).resolve_left hz
  · rintro b (hb | hb | ⟨i, hi, hij, hb⟩)
    · exact huse b (Or.inl (hbooks ▸ hb))
    · exact huse b (Or.inr (Or.inl hb))
    · by_cases hii : i = ino
      · rw [hii, put_owned hfind he.ino] at hb
        obtain ⟨hz, t, rfl⟩ := hb
        exact Or.inr (he.inv.use t hz)
      · rw [(h.put_same hino hfind he hi hii).owned] at hb
        exact huse b (Or.inr (Or.inr ⟨i, hi, hii, hb⟩))
  · intro t hz
    have hmem : (v.ctx j).slot t ∈ (v.ctx j).owned := ⟨hz, t, rfl⟩
    rintro (hb | hb | ⟨i, hi, hij, hb⟩)
    · exact h.owned_not_books hj hmem (hbooks ▸ hb)
    · exact h.owned_not_inode hj hmem hb
    · by_cases hii : i = ino
      · rw [hii, put_owned hfind he.ino] at hb
        obtain ⟨hz', u, hu⟩ := hb
        exact he.inv.apart u (hu ▸ hz) (hu ▸ Or.inr (Or.inr ⟨j, hj, hne, hmem⟩))
      · rw [(h.put_same hino hfind he hi hii).owned] at hb
        exact h.owned_apart hj hmem (Or.inr (Or.inr ⟨i, hi, hij, hb⟩))

/-- **A call on one file.** -/
theorem put : VolInv G (v.put c') := by
  have hsame : ∀ j ∈ G, j ≠ ino → SameFile v (v.put c') j := fun j hj hne => h.put_same hino hfind he hj hne
  have hdin : v.din ino = sin.din := din_of_find hfind
  have hdin' := put_din hfind he.ino
  have hfits := h.fits ino hino
  rw [hdin] at hfits
  refine ⟨he.inv.ready, h.geometry.of_static he.static, ?_, ?_, ?_, ?_, h.root, ?_, ?_, ?_, ?_⟩
  · intro j hj
    by_cases hne : j = ino
    · subst hne
      exact h.put_self hino hfind he
    · exact h.put_other hino hfind he hj hne
  · intro j hj
    have hbooks : books (v.put c').fs = books v.fs := books_congr he.static.blocks
    rw [hbooks]
    exact h.inode j hj
  · intro i hi
    unfold SfsVolume.put at hi
    rw [inos_store] at hi
    exact h.loaded i hi
  · unfold SfsVolume.put
    rw [inos_store]
    exact h.nodup
  · intro j hj
    by_cases hne : j = ino
    · subst hne
      rw [hdin', he.type, ← hdin]
      exact h.type j hj
    · rw [(hsame j hj hne).din]
      exact h.type j hj
  · intro j hj
    by_cases hne : j = ino
    · subst hne
      rw [hdin', he.nlinks, ← hdin]
      exact h.nlinks j hj
    · rw [(hsame j hj hne).din]
      exact h.nlinks j hj
  · intro j hj
    by_cases hne : j = ino
    · subst hne
      rw [hdin']
      apply fits_of_inv he.inv
      · have hsize := he.size
        have hold := hfits.size
        dsimp only at hsize
        omega
      · rw [he.type]
        exact hfits.type
      · rw [he.nlinks]
        exact hfits.nlinks
    · rw [(hsame j hj hne).din]
      exact h.fits j hj
  · intro d hd htype k hk
    -- a directory is not changed, so its entries are those of before
    have hd' : SameFile v (v.put c') d := by
      by_cases hne : d = ino
      · subst hne
        rw [hdin', he.type] at htype
        obtain ⟨hsin, hblk⟩ := he.dir htype
        apply SameFile.of_blk
        · rw [hdin', hdin, hsin]
        · rw [owned_ctx (c := ⟨v.fs, sin⟩) rfl hdin.symm]
          exact hblk
      · exact hsame d hd hne
    rw [hd'.din] at htype hk
    rw [hd'.entry (h.file d hd) hk]
    exact h.dir d hd htype k hk

end Put

end VolInv

/-! ## A small volume -/

def emptyInode (type : Nat) : SfsDiskInode where
  size := 0
  type := type
  nlinks := 1
  blocks := 0
  direct := fun _ => 0
  indirect := 0

/-- Six blocks: the superblock, the root directory, the free map, an empty file, and two free ones. The directory and the
file are empty, and the file is in memory. -/
def smallVolume : SfsVolume where
  fs := {
    super := { magic := sfsMagic, blocks := 6, unusedBlocks := 2, info := fun _ => 0 }
    dev := {
      dBlocks := 6
      blk := fun b => if b = 1 then (emptyInode sfsTypeDir).store fun _ => 0
        else if b = 3 then (emptyInode sfsTypeFile).store fun _ => 0 else fun _ => 0
      ioRet := fun _ => 0
      ticks := 0 }
    freemap := { nbits := 32768, nwords := 1024, map := fun w => if w = 0 then 0x30#32 else 0#32 }
    superDirty := true
    sfsBuffer := fun _ => 0 }
  inodes := [{ din := emptyInode sfsTypeFile, ino := 3, dirty := false, reclaimCount := 1, refCount := 1 }]

theorem emptyInode_fits {type : Nat} (h : type < 2 ^ 16) : (emptyInode type).Fits := by
  refine ⟨Nat.two_pow_pos 32, h, ?_, Nat.two_pow_pos 32, fun _ => Nat.two_pow_pos 32, Nat.two_pow_pos 32⟩
  exact (by decide : 1 < 2 ^ 16)

theorem load_emptyInode {type : Nat} (h : type < 2 ^ 16) :
    SfsDiskInode.load ((emptyInode type).store fun _ => 0) = emptyInode type := SfsDiskInode.load_store (emptyInode_fits h) _

theorem smallVolume_din_root : smallVolume.din 1 = emptyInode sfsTypeDir := load_emptyInode (by decide)

theorem smallVolume_din_file : smallVolume.din 3 = emptyInode sfsTypeFile := rfl

theorem smallVolume_bit (i : Nat) : smallVolume.fs.freemap.bit i = decide (i = 4 ∨ i = 5) := by
  by_cases hi : i < 32
  · have hall : ∀ i, i < 32 → smallVolume.fs.freemap.bit i = decide (i = 4 ∨ i = 5) := by decide
    exact hall i hi
  · have hword : ¬ i / 32 = 0 := by omega
    have hfree : ¬ (i = 4 ∨ i = 5) := by omega
    unfold Bitmap.bit smallVolume
    simp [hword, hfree]

theorem smallVolume_ready : smallVolume.fs.Ready := by
  have hbit := smallVolume_bit
  refine ⟨by decide, by decide, by decide, rfl, ?_, ?_, ?_⟩
  · rw [hbit]
    rfl
  · intro i h6 _
    have h6' : 6 ≤ i := h6
    rw [hbit]
    simp
    omega
  · have hset : (Finset.range (32 * smallVolume.fs.freemap.nwords)).filter (fun i => smallVolume.fs.freemap.bit i) = {4, 5} := by
      ext i
      have hrange : 32 * smallVolume.fs.freemap.nwords = 32768 := rfl
      simp [hbit, hrange]
      omega
    unfold Bitmap.setBits
    rw [hset]
    rfl

theorem smallVolume_slot {ino type : Nat} (h : smallVolume.din ino = emptyInode type) (t : Slot) :
    (smallVolume.ctx ino).slot t = 0 := by
  have hdin : (smallVolume.ctx ino).sin.din = emptyInode type := h
  cases t with
  | data i =>
    show (smallVolume.ctx ino).lookup i = 0
    unfold SfsCtx.lookup
    rw [hdin]
    split <;> rfl
  | entryBlock =>
    show (smallVolume.ctx ino).sin.din.indirect = 0
    rw [hdin]
    rfl

theorem smallVolume_files {ino : Nat} (h : ino ∈ ({1, 3} : Set Nat)) :
    ∃ type, smallVolume.din ino = emptyInode type ∧ (type = sfsTypeDir ∨ type = sfsTypeFile) := by
  rcases h with rfl | rfl
  · exact ⟨_, smallVolume_din_root, Or.inl rfl⟩
  · exact ⟨_, smallVolume_din_file, Or.inr rfl⟩

theorem smallVolume_inv : VolInv {1, 3} smallVolume := by
  have hready := smallVolume_ready
  have hfiles := @smallVolume_files
  have huse : ∀ b, b ≠ 0 → b < 4 → smallVolume.fs.InUse b := by
    intro b h0 hlt
    have hblocks : smallVolume.fs.super.blocks = 6 := rfl
    refine ⟨h0, by omega, ?_⟩
    rw [smallVolume_bit]
    simp
    omega
  have hbooks : ∀ b ∈ books smallVolume.fs, b = 0 ∨ b = 2 := by
    rintro b (h0 | ⟨h2, hlt⟩)
    · exact Or.inl h0
    · have hmap : mapSize smallVolume.fs.super.blocks = 1 := rfl
      omega
  refine ⟨hready, ⟨rfl, rfl, rfl, by decide⟩, ?_, ?_, ?_, ?_, Or.inl rfl, ?_, ?_, ?_, ?_⟩
  · intro ino hino
    obtain ⟨type, hdin, -⟩ := hfiles hino
    have hslot := smallVolume_slot hdin
    refine ⟨hready, fun t ht => absurd (hslot t) ht, fun t u _ ht => absurd (hslot t) ht, ?_,
      fun t ht => absurd (hslot t) ht, ?_, ?_⟩
    · rintro b (hb | hb | ⟨i, hi, -, hne, t, ht⟩)
      · rcases hbooks b hb with rfl | rfl
        · exact Or.inl rfl
        · exact Or.inr (huse 2 (by decide) (by decide))
      · rcases hb with rfl | rfl
        · exact Or.inr (huse 1 (by decide) (by decide))
        · exact Or.inr (huse 3 (by decide) (by decide))
      · obtain ⟨type', hdin', -⟩ := hfiles hi
        rw [smallVolume_slot hdin'] at ht
        exact absurd ht.symm hne
    · intro i hi
      have hlook : (smallVolume.ctx ino).lookup i = 0 := hslot (.data ⟨i, hi⟩)
      have hblocks : (smallVolume.ctx ino).sin.din.blocks = 0 := congrArg SfsDiskInode.blocks hdin
      simp [hlook, hblocks]
    · have hblocks : (smallVolume.ctx ino).sin.din.blocks = 0 := congrArg SfsDiskInode.blocks hdin
      simp [hblocks]
  · rintro ino (rfl | rfl) hb
    · rcases hbooks _ hb with h | h <;> cases h
    · rcases hbooks _ hb with h | h <;> cases h
  · intro i hi
    exact Or.inr (List.mem_singleton.mp hi)
  · exact List.nodup_singleton _
  · intro ino hino
    obtain ⟨type, hdin, htype⟩ := hfiles hino
    rw [hdin]
    exact htype
  · intro ino hino
    obtain ⟨type, hdin, -⟩ := hfiles hino
    rw [hdin]
    exact Nat.one_ne_zero
  · intro ino hino
    obtain ⟨type, hdin, htype⟩ := hfiles hino
    rw [hdin]
    apply emptyInode_fits
    rcases htype with rfl | rfl <;> decide
  · intro d hd _ k hk
    obtain ⟨type, hdin, -⟩ := hfiles hd
    rw [hdin] at hk
    exact absurd hk (Nat.not_lt_zero k)

end Volume

end Ucore
