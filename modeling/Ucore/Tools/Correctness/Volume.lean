import Ucore.Fs.Sfs.Correctness.VolumeDurable
import Ucore.Tools.Correctness.RoundTrip

/-!
# `Tools.Correctness.Volume` — the image as a volume of the kernel

An image whose inodes the kernel can use (`Usable`) becomes, when it is mounted, a volume with the invariant of all calls:
every inode of `mksfs` is a file of it. So what `mksfs` has put into a file is there in every run that does not write to it.
-/

namespace Ucore.Mksfs

open SfsFs SfsCtx Volume

variable {m m₀ m₁ m' : Mksfs} {f g dir : Nat} {op : MkOp} {ops : List MkOp} {img : Nat → Bytes} {dev : Device} {s : SfsFs}
  {size p : Nat}

/-- The inodes are of types the kernel knows, have links, and blocks only where the kernel looks for them. -/
structure Usable (m : Mksfs) : Prop where
  type : ∀ f, m.IsInode f → (m.inodeAt f).inode.type = sfsTypeDir ∨ (m.inodeAt f).inode.type = sfsTypeFile
  nlinks : ∀ f, m.IsInode f → (m.inodeAt f).inode.nlinks ≠ 0
  nblks_le : ∀ f, m.IsInode f → (m.inodeAt f).nblks ≤ 1036

/-- The inodes of an image, as the files of a volume. -/
def files (m : Mksfs) : Set Nat := {f | m.IsInode f}

/-! ## What the walk leaves -/

/-- The inodes named by the entries of a directory. -/
theorem runs_named (hrun : MkRuns m ops m') (h : m.Inv) : ∀ e ∈ ops.flatMap (MkOp.added dir), m'.IsInode e.2 := by
  induction hrun with
  | nil => simp
  | @cons m m₁ m' op ops hg hstep hrest ih =>
    have hw := walked h hg hstep
    obtain ⟨-, -, hfiles⟩ := runs_inv hrest hw.inv
    intro e he
    rw [List.flatMap_cons, List.mem_append] at he
    rcases he with he | he
    · -- an entry that this step makes
      cases op with
      | addEntry current file name =>
        change e ∈ (if current = dir then [(name, file)] else []) at he
        by_cases hc : current = dir
        · rw [if_pos hc] at he
          rw [List.mem_singleton.mp he]
          exact (hfiles file (hw.isInode file hg.2.1)).1
        · rw [if_neg hc] at he
          exact absurd he List.not_mem_nil
      | _ => exact absurd he List.not_mem_nil
    · exact ih hw.inv e he

/-- A regular file that a step makes holds what was read for it. -/
theorem step_stored (h : m.Inv) (hg : op.Given m) (hrun : op.run m = .ok () m') (hf : m'.IsInode f) (hold : ¬ m.IsInode f)
    (htype : (m'.inodeAt f).inode.type = sfsTypeFile) : ∃ reads, Stored m' f reads := by
  cases op with
  | newDir real =>
    rw [MkOp.run, Proc.get_bind] at hrun
    by_cases hs : searchCacheInode m real = none
    case neg =>
      rw [Proc.check_bind_neg hs] at hrun
      cases hrun
    rw [Proc.check_bind_pos hs] at hrun
    obtain ⟨b, m₁, halloc, hrun⟩ := Proc.bind_eq_ok.mp hrun
    obtain ⟨hlt, rfl, rfl⟩ := allocCacheInode_ok halloc
    cases hrun
    have hc := @created m real sfsTypeDir h hlt (by decide)
    obtain rfl : f = m.nextIno := ((hc.isInode f).mp hf).resolve_right hold
    rw [hc.type] at htype
    exact absurd htype (by decide)
  | newFile real reads =>
    by_cases hs : searchCacheInode m real = none
    · have hstored := newFile_stored h hs hg hrun
      rw [MkOp.run, Proc.get_bind, if_pos hs] at hrun
      obtain ⟨b, m₁, halloc, hrun⟩ := Proc.bind_eq_ok.mp hrun
      obtain ⟨hlt, rfl, rfl⟩ := allocCacheInode_ok halloc
      have hc := @created m real sfsTypeFile h hlt (by decide)
      have ho := openFile_opened reads hc.inv ((hc.isInode _).mpr (Or.inl rfl)) hrun
      have hf' : (m.take.addInode m.nextIno real sfsTypeFile).IsInode f := by
        rw [IsInode, ← ho.inodes]
        exact hf
      obtain rfl : f = m.nextIno := ((hc.isInode f).mp hf').resolve_right hold
      exact ⟨reads, hstored⟩
    · rw [MkOp.run, Proc.get_bind, if_neg hs] at hrun
      cases hrun
      exact absurd hf hold
  | newLink real target =>
    rw [MkOp.run] at hrun
    obtain ⟨b, m₁, halloc, hrun⟩ := Proc.bind_eq_ok.mp hrun
    obtain ⟨hlt, rfl, rfl⟩ := allocCacheInode_ok halloc
    have hc := @created m real sfsTypeLink h hlt (by decide)
    unfold openLink at hrun
    obtain ⟨ino, m₂, halloc', hrun⟩ := Proc.bind_eq_ok.mp hrun
    by_cases hlen : target.length = sfsBlksize
    · rw [if_pos hlen] at hrun
      cases hrun
    rw [if_neg hlen] at hrun
    have hround : (do
        let ino ← sfsAllocIno
        writeBlock (strBytes target) target.length ino
        appendBlock m.nextIno target.length ino) (m.take.addInode m.nextIno real sfsTypeLink) = .ok () m' := by
      rw [Proc.bind_ok halloc', hrun]
    obtain ⟨hgain, -⟩ := gained hc.inv ((hc.isInode _).mpr (Or.inl rfl)) hround
    have hf' : (m.take.addInode m.nextIno real sfsTypeLink).IsInode f := by
      rw [IsInode, ← hgain.inodes]
      exact hf
    obtain rfl : f = m.nextIno := ((hc.isInode f).mp hf').resolve_right hold
    rw [hgain.type, hc.type] at htype
    exact absurd htype (by decide)
  | addEntry current file name =>
    have ha := addEntry_added h hg.1 hg.2.1 hrun
    have hf' : m.IsInode f := by
      rw [IsInode, ← ha.inodes]
      exact hf
    exact absurd hf' hold

theorem runs_stored (hrun : MkRuns m ops m') (h : m.Inv)
    (hall : ∀ f, m.IsInode f → (m.inodeAt f).inode.type = sfsTypeFile → ∃ reads, Stored m f reads) :
    ∀ f, m'.IsInode f → (m'.inodeAt f).inode.type = sfsTypeFile → ∃ reads, Stored m' f reads := by
  induction hrun with
  | nil => exact hall
  | @cons m m₁ m' op ops hg hstep hrest ih =>
    have hw := walked h hg hstep
    apply ih hw.inv
    intro f hf htype
    by_cases hold : m.IsInode f
    · rw [hw.type f hold] at htype
      obtain ⟨reads, hs⟩ := hall f hold htype
      exact ⟨reads, hs.runs h (.cons hg hstep .nil)⟩
    · exact step_stored h hg hstep hf hold htype

theorem createSfs_root {img₀ : Nat → Bytes} (h : createSfs size img₀ = .ok m) : (m.inodeAt sfsBlknRoot).inode.type = sfsTypeDir := by
  unfold createSfs at h
  dsimp only at h
  generalize (if sfsMaxNblks < size / sfsBlksize % 2 ^ 32 then sfsMaxNblks else size / sfsBlksize % 2 ^ 32) = ninos at h
  split at h
  · cases h
  · injection h with h
    rw [← h]
    rfl

/-- **A regular file** of the image holds what was read for it. -/
theorem stored_of_runs {img₀ : Nat → Bytes} (h0 : createSfs size img₀ = .ok m₀) (hrun : MkRuns m₀ ops m) (hf : m.IsInode f)
    (htype : (m.inodeAt f).inode.type = sfsTypeFile) : ∃ reads, Stored m f reads := by
  obtain ⟨hinv, hroot, -⟩ := createSfs_ok h0
  apply runs_stored hrun hinv _ f hf htype
  intro g hg hfile
  rw [hroot g hg, createSfs_root h0] at hfile
  exact absurd hfile (by decide)

theorem Stored.fits {reads : List (List UInt8)} (hs : Stored m f reads) (h : m.Inv) :
    (m.inodeAt f).inode.blocks = blocksFor (m.inodeAt f).inode.size := by
  rw [(h.counts f).blocks, hs.nblks, hs.size]
  exact hs.full.blocks hs.given

/-! ## The volume -/

/-- Everything that is known of a mounted image. -/
structure Shows (m : Mksfs) (s : SfsFs) : Prop where
  ready : s.Ready
  super : s.super = { m.super with info := Function.update m.super.info 31 0 }
  nbits : s.freemap.nbits = 32768 * mapSize m.ninos
  inUse : ∀ b, b ≠ 0 → b < m.nextIno → s.InUse b
  node : ∀ f, m.IsInode f → SfsDiskInode.load (s.dev.blk f) = (m.inodeAt f).inode.disk
  index : ∀ f, m.val f .indirect ≠ 0 → s.dev.blk (m.val f .indirect) = padBlock (m.cacheAt (m.val f .indirect)) 4096
  data : ∀ f k, k < (m.inodeAt f).nblks → s.dev.blk (m.val f (.data k)) = m.img (m.val f (.data k))

theorem Closed.shows (h : m.Inv) (hc : Closed m img) (hblk : dev.blk = img) (hm : Mounted dev s) : Shows m s := by
  have hsuper := hm.super
  have hnbits := hm.nbits
  have hdisk : s.dev.blk = img := hm.blk.trans hblk
  rw [hblk, load_super h hc] at hsuper hnbits
  rw [h.owned.super.blocks] at hnbits
  refine ⟨hm.ready, hsuper, hnbits, mounted_inUse h hc hblk hm, ?_, ?_, ?_⟩
  · intro f hf
    rw [hdisk, hc.node f hf, load_nodeBlock h]
  · intro f hz
    rw [hdisk]
    exact hc.index f .indirect trivial hz
  · intro f k hk
    rw [hdisk]
    exact hc.data f k hk

namespace Shows

theorem din (h : Shows m s) (hf : m.IsInode f) : (SfsVolume.mk s []).din f = (m.inodeAt f).inode.disk := h.node f hf

theorem slot (h : Shows m s) (hf : m.IsInode f) (t : Slot) : ((SfsVolume.mk s []).ctx f).slot t = m.val f (ofSlot t) := by
  have hdin : ((SfsVolume.mk s []).ctx f).sin.din = (m.inodeAt f).inode.disk := h.din hf
  cases t with
  | data i => exact lookup_eq hdin (h.index f) i.isLt
  | entryBlock => exact congrArg SfsDiskInode.indirect hdin

theorem owned (h : Shows m s) (hf : m.IsInode f) {b : Nat} (hb : b ∈ ((SfsVolume.mk s []).ctx f).owned) :
    b ≠ 0 ∧ ∃ t, m.val f t = b := by
  obtain ⟨hne, t, ht⟩ := hb
  exact ⟨hne, ofSlot t, (h.slot hf t).symm.trans ht⟩

theorem blocks (h : Shows m s) (hi : m.Inv) : s.super.blocks = m.ninos := by
  rw [h.super]
  exact hi.owned.super.blocks

/-- What the volume itself has comes before the blocks that are handed out. -/
theorem books (h : Shows m s) (hi : m.Inv) {b : Nat} : b ∈ Volume.books s ↔ b = 0 ∨ 2 ≤ b ∧ b < m.first := by
  unfold Volume.books
  rw [Set.mem_ofPred_eq, h.blocks hi]
  rfl

theorem isInode_inUse (h : Shows m s) (hi : m.Inv) (hf : m.IsInode f) : s.InUse f := by
  have hfirst := hi.owned.super.first_le
  have hpos := m.first_pos
  rcases hi.owned.inode_range f hf with h1 | ⟨h1, h2⟩
  · exact h.inUse f (by omega) (by omega)
  · exact h.inUse f (by omega) h2

theorem val_inUse (h : Shows m s) (hi : m.Inv) {t : MkSlot} (hz : m.val f t ≠ 0) : s.InUse (m.val f t) :=
  h.inUse _ hz (hi.owned.range f t hz).2

/-- **The file invariant** of every file, with the others out of its reach. -/
theorem fileInv (h : Shows m s) (hi : m.Inv) (hu : Usable m) (hf : m.IsInode f) :
    FileInv ((SfsVolume.mk s []).ctx f) ((SfsVolume.mk s []).others (files m) f) := by
  have hslot := fun t => h.slot hf t
  have hn : ((SfsVolume.mk s []).ctx f).sin.din.blocks = (m.inodeAt f).nblks := by
    have hdin : ((SfsVolume.mk s []).ctx f).sin.din = (m.inodeAt f).inode.disk := h.din hf
    rw [hdin]
    exact (hi.counts f).blocks
  refine ⟨h.ready, ?_, ?_, ?_, ?_, ?_, ?_⟩
  · intro t hz
    rw [hslot] at hz ⊢
    exact h.val_inUse hi hz
  · intro t u he hz
    rw [hslot] at hz
    rw [hslot, hslot] at he
    exact ofSlot_inj (hi.owned.inj f _ f _ he hz).2
  · rintro b (hb | hb | ⟨g, hg, -, hb⟩)
    · rcases (h.books hi).mp hb with h0 | ⟨h2, hlt⟩
      · exact Or.inl h0
      · exact Or.inr (h.inUse b (by omega) (Nat.lt_of_lt_of_le hlt hi.owned.super.first_le))
    · exact Or.inr (h.isInode_inUse hi hb)
    · obtain ⟨hne, t, rfl⟩ := h.owned hg hb
      exact Or.inr (h.val_inUse hi hne)
  · intro t hz
    rw [hslot] at hz ⊢
    have hrange := hi.owned.range f _ hz
    rintro (hb | hb | ⟨g, hg, hne, hb⟩)
    · rcases (h.books hi).mp hb with h0 | ⟨-, hlt⟩
      · exact hz h0
      · omega
    · exact hi.owned.inode_apart _ f _ hb rfl
    · obtain ⟨-, u, hu⟩ := h.owned hg hb
      exact hne (hi.owned.inj g u f _ hu (hu ▸ hz)).1
  · intro i hlt
    have hlook : ((SfsVolume.mk s []).ctx f).lookup i = m.val f (.data i) := hslot (.data ⟨i, hlt⟩)
    rw [hlook, hn]
    exact (hi.counts f).dense i
  · rw [hn]
    exact hu.nblks_le f hf

/-- The entries of a directory name inodes of the image. -/
theorem entry {l : List (List UInt8 × Nat)} (h : Shows m s) (hd : m.IsInode dir) (hl : Listed m dir l)
    (hnamed : ∀ e ∈ l, m.IsInode e.2) {k : Nat} (hk : k < (m.inodeAt dir).nblks) (hlt : k < 1036) :
    (SfsVolume.mk s []).entry dir k ∈ files m := by
  have hk' : k < l.length := by rwa [← hl.nblks]
  have hlook : ((SfsVolume.mk s []).ctx dir).lookup k = m.val dir (.data k) := h.slot hd (.data ⟨k, hlt⟩)
  unfold SfsVolume.entry
  rw [hlook]
  show getLe (s.dev.blk _) 0 4 ∈ files m
  rw [h.data dir k hk, (hl.block hk').ino]
  exact hnamed _ (List.getElem_mem hk')

/-- **The volume invariant.** -/
theorem volInv {img₀ : Nat → Bytes} (h : Shows m s) (hi : m.Inv) (hu : Usable m) (h0 : createSfs size img₀ = .ok m₀)
    (hrun : MkRuns m₀ ops m) : VolInv (files m) ⟨s, []⟩ := by
  have hsuper := hi.owned.super
  have hsum := hsuper.unused
  have hfirst := hsuper.first_le
  have hdef : m.first = 2 + mapSize m.ninos := rfl
  have hdin : ∀ f ∈ files m, (SfsVolume.mk s []).din f = (m.inodeAt f).inode.disk := fun f hf => h.din hf
  have hfile : ∀ f ∈ files m, FileInv ((SfsVolume.mk s []).ctx f) ((SfsVolume.mk s []).others (files m) f) :=
    fun f hf => h.fileInv hi hu hf
  refine ⟨h.ready, ⟨?_, ?_, ?_, ?_⟩, hfile, ?_, by simp, by simp, hi.root, ?_, ?_, ?_, ?_⟩
  · rw [h.super]
    exact hsuper.magic
  · rw [h.super]
    simp
  · rw [h.blocks hi]
    exact h.nbits
  · rw [h.blocks hi]
    omega
  · intro f hf hb
    have hpos := m.first_pos
    rcases (h.books hi).mp hb with h0 | ⟨h2, hlt⟩
    · rcases hi.owned.inode_range f hf with h1 | ⟨h1, -⟩ <;> omega
    · rcases hi.owned.inode_range f hf with h1 | ⟨h1, -⟩ <;> omega
  · intro f hf
    rw [hdin f hf]
    exact hu.type f hf
  · intro f hf
    rw [hdin f hf]
    exact hu.nlinks f hf
  · intro f hf
    have hcounts := hi.counts f
    have hsize := hcounts.size
    have hle := hcounts.nblks_le
    apply VolInv.fits_of_inv (hfile f hf)
    · show ((SfsVolume.mk s []).din f).size < 2 ^ 32
      rw [hdin f hf]
      exact Nat.lt_of_le_of_lt hsize (by omega)
    · show ((SfsVolume.mk s []).din f).type < 2 ^ 16
      rw [hdin f hf]
      exact hcounts.type
    · show ((SfsVolume.mk s []).din f).nlinks < 2 ^ 16
      rw [hdin f hf]
      exact hcounts.nlinks
  · intro d hd htype k hk
    rw [hdin d hd] at htype hk
    have hk' : k < (m.inodeAt d).nblks := (hi.counts d).blocks ▸ hk
    have hlt : k < 1036 := Nat.lt_of_lt_of_le hk' (hu.nblks_le d hd)
    exact Or.inr (h.entry hd (runs_listed h0 hrun hd htype) (runs_named hrun (createSfs_ok h0).1) hk' hlt)

end Shows

end Ucore.Mksfs
