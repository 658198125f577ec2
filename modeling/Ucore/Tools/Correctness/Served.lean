import Ucore.Fs.Sfs.Correctness.Dirent
import Ucore.Tools.Correctness.Image

/-!
# `Tools.Correctness.Served` — a file of the image in the hands of the kernel

`Served m f c`: the image of a finished walk is on a disk, the kernel has mounted it and loaded the inode
`f`, and `c` is the state it works on. As far as its own block map reaches, the kernel then finds the blocks
where `mksfs` has put them (`served_shown`).
-/

namespace Ucore

open SfsFs SfsCtx

section Load

variable {s : SfsFs} {f : Nat} {mem : Nat → Bool}

/-- The transfer of `sfs_load_inode` is done; what is left are the checks. -/
theorem loadInodeMiss_eq (h : s.Ready) (hf : s.InUse f) (hfault : s.fault 0 = 0) (hmem : mem 0 = true) : ∃ x,
    loadInodeMiss mem f s = (do
      Proc.check .loadInodeNlinks ((SfsDiskInode.load (s.dev.blk f)).nlinks ≠ 0)
      sfsCreateInode (mem 1) (SfsDiskInode.load (s.dev.blk f)) f : SfsM SfsInode) (s.scratch 1 x) := by
  obtain ⟨x, ⟨-, hrun⟩ | ⟨hne, -⟩⟩ := @sfsRbuf_cases s f 64 0 (fun _ => 0) 0 h hf.ne hf.lt (by decide) (by decide)
  · have hread : sfsRbuf (fun _ => 0) 0 sfsDiskInodeSize f 0 s = _ := hrun
    have hload : SfsDiskInode.load (memcpy (fun _ => 0) 0 (s.dev.blk f) 0 64) = SfsDiskInode.load (s.dev.blk f) :=
      SfsDiskInode.load_congr fun i hi => by rw [memcpy_in ⟨Nat.zero_le i, by omega⟩, Nat.zero_add, Nat.sub_zero]
    refine ⟨x, ?_⟩
    unfold loadInodeMiss
    rw [if_neg (by rw [hmem]; exact Bool.noConfusion), Proc.bind_ok (assertInuse_run h hf), Proc.bind_ok hread]
    rw [hload]
  · exact absurd hfault hne

/-- The inode in memory is the one on the disk. -/
theorem loadInodeMiss_ok {c : SfsCtx} (h : s.Ready) (hf : s.InUse f) (hfault : s.fault 0 = 0)
    (hrun : loadInodeMiss mem f s = .ok c.sin c.fs) :
    c.sin.din = SfsDiskInode.load (s.dev.blk f) ∧ ∃ x, c.fs = s.scratch 1 x := by
  have hmem : mem 0 = true := by
    by_contra hne
    unfold loadInodeMiss at hrun
    rw [if_pos (Bool.eq_false_iff.mpr hne)] at hrun
    cases hrun
  obtain ⟨x, heq⟩ := loadInodeMiss_eq h hf hfault hmem
  rw [heq] at hrun
  obtain ⟨_, s₁, hcheck, hcreate⟩ := Proc.bind_eq_ok.mp hrun
  obtain ⟨-, rfl⟩ := Proc.check_eq_ok.mp hcheck
  unfold sfsCreateInode at hcreate
  by_cases h1 : mem 1 = true
  · rw [if_pos h1] at hcreate
    obtain ⟨_, s₂, hops, hpure⟩ := Proc.bind_eq_ok.mp hcreate
    obtain ⟨-, rfl⟩ := Proc.check_eq_ok.mp hops
    injection hpure with hsin hfs
    rw [← hsin]
    exact ⟨rfl, x, hfs.symm⟩
  · rw [if_neg h1] at hcreate
    cases hcreate

end Load

/-- The part of the inode that the kernel knows. -/
def MkInode.disk (d : MkInode) : SfsDiskInode where
  size := d.size
  type := d.type
  nlinks := d.nlinks
  blocks := d.blocks
  direct := d.direct
  indirect := d.indirect

namespace Mksfs

variable {m : Mksfs} {f : Nat} {c : SfsCtx}

inductive Served (m : Mksfs) (f : Nat) (c : SfsCtx) : Prop where
  | intro (img : Nat → Bytes) (dev dev' : Device) (kmalloc mem : Nat → Bool) (buffer : Bytes) (s : SfsFs)
      (hclose : closeSfs m = .ok () (m.withImg img)) (hblk : dev.blk = img) (hsize : m.ninos ≤ dev.dBlocks)
      (hdev : ∀ k, dev.ioRet k = 0) (hmount : sfsDoMount kmalloc buffer dev = .ok s dev')
      (hload : loadInodeMiss mem f s = .ok c.sin c.fs) : Served m f c

/-- What the kernel makes of the file `f`. -/
structure Shown (m : Mksfs) (f : Nat) (c : SfsCtx) : Prop where
  din : c.sin.din = (m.inodeAt f).inode.disk
  healthy : c.fs.Healthy
  lookup : ∀ i, i < 1036 → c.lookup i = m.val f (.data i)
  data : ∀ k, k < (m.inodeAt f).nblks → c.fs.dev.blk (m.val f (.data k)) = m.img (m.val f (.data k))
  inv : (m.inodeAt f).nblks ≤ 1036 → FileInv c ∅

/-- The two programs agree on the layout of an inode. -/
theorem load_nodeBlock (h : m.Inv) (f : Nat) : SfsDiskInode.load (m.nodeBlock f) = (m.inodeAt f).inode.disk := by
  have hc := h.counts f
  have hsize := hc.size
  have hblocks := hc.blocks
  have hle := hc.nblks_le
  have hfits : (m.inodeAt f).inode.disk.Fits := by
    refine ⟨?_, hc.type, hc.nlinks, ?_, fun i => ?_, ?_⟩
    · show (m.inodeAt f).inode.size < 2 ^ 32
      omega
    · show (m.inodeAt f).inode.blocks < 2 ^ 32
      omega
    · exact h.owned.val_lt f (.direct i)
    · exact h.owned.val_lt f .indirect
  rw [nodeBlock, @SfsDiskInode.load_congr _ ((m.inodeAt f).inode.disk.store fun _ => 0) fun i hi => ?_,
    SfsDiskInode.load_store hfits]
  have hpad : i < mkInodeSize := Nat.lt_trans hi (by decide)
  have hout : i < 64 ∨ 64 + 4 ≤ i := Or.inl hi
  rw [padBlock_lt hpad]
  exact putLe_out hout

/-- The kernel's slots among those of `mksfs`. -/
def ofSlot : Slot → MkSlot
  | .data i     => .data i
  | .entryBlock => .indirect

theorem ofSlot_inj {t u : Slot} (h : ofSlot t = ofSlot u) : t = u := by
  have hdata : ∀ i : Fin 1036, MkSlot.data i ≠ .indirect := fun i hi => MkSlot.not_isIndex_data i (hi ▸ trivial)
  cases t with
  | data i =>
    cases u with
    | data j => exact congrArg Slot.data (Fin.ext (MkSlot.data_inj h))
    | entryBlock => exact absurd h (hdata i)
  | entryBlock =>
    cases u with
    | data j => exact absurd h.symm (hdata j)
    | entryBlock => rfl

theorem lookup_eq (hdin : c.sin.din = (m.inodeAt f).inode.disk)
    (hindex : m.val f .indirect ≠ 0 → c.fs.dev.blk (m.val f .indirect) = padBlock (m.cacheAt (m.val f .indirect)) 4096)
    {i : Nat} (hi : i < 1036) : c.lookup i = m.val f (.data i) := by
  have hind : c.sin.din.indirect = m.val f .indirect := by
    rw [hdin]
    rfl
  by_cases h : i < 12
  · rw [lookup_direct c h, MkSlot.data_direct h, hdin]
    rfl
  · have hval : m.val f (.entry (i - 12)) = m.child (m.val f .indirect) (i - 12) := rfl
    rw [MkSlot.data_entry h hi, hval]
    by_cases hz : m.val f .indirect = 0
    · rw [lookup_missing h (hind.trans hz), hz, child_zero]
    · rw [lookup_entry h (hind ▸ hz), child_of_ne hz, hind, SfsFs.entry, hindex hz, Nat.mul_comm 4,
        getLe_congr fun j _ hj => padBlock_lt (by omega)]

/-- The numbers that have been handed out are in use. -/
theorem mounted_inUse {img : Nat → Bytes} {dev : Device} {s : SfsFs} (h : m.Inv) (hc : Closed m img)
    (hblk : dev.blk = img) (hm : Mounted dev s) (b : Nat) (hb : b ≠ 0) (hlt : b < m.nextIno) : s.InUse b := by
  have hsum := h.owned.super.unused
  have hsuper := hm.super
  have hnbits := hm.nbits
  rw [hblk, load_super h hc] at hsuper hnbits
  have hblocks : s.super.blocks = m.ninos := by
    rw [hsuper]
    exact h.owned.super.blocks
  have hlt' : b < 32768 * mapSize m.ninos := by
    show b < 32768 * ((m.ninos + 32767) / 32768)
    omega
  refine ⟨hb, by omega, ?_⟩
  rw [hm.bit b (by rw [hnbits, h.owned.super.blocks]; exact hlt'), hblk, diskBit_closed h hc hlt']
  exact decide_eq_false (by omega)

theorem mounted_inode {img : Nat → Bytes} {dev : Device} {s : SfsFs} (h : m.Inv) (hc : Closed m img)
    (hblk : dev.blk = img) (hm : Mounted dev s) (hf : m.IsInode f) : s.InUse f := by
  have hfirst := h.owned.super.first_le
  have hfpos := m.first_pos
  rcases h.owned.inode_range f hf with h1 | ⟨h1, h2⟩
  · exact mounted_inUse h hc hblk hm f (by omega) (by omega)
  · exact mounted_inUse h hc hblk hm f (by omega) h2

/-- **A served file is shown as `mksfs` has made it.** -/
theorem served_shown (h : m.Inv) (hf : m.IsInode f) (hs : Served m f c) : Shown m f c := by
  obtain ⟨img₁, dev, dev', kmalloc, mem, buffer, s, hclose, hblk, hsize, hdev, hmount, hload⟩ := hs
  have ho := h.owned
  obtain ⟨img, hclose', hc⟩ := closeSfs_closed h
  rw [hclose] at hclose'
  injection hclose' with _ himg
  have himg' : img = img₁ := (congrArg Mksfs.img himg).symm
  subst himg'
  obtain ⟨hmounted, hready⟩ : Mounted dev s ∧ s.Ready := by
    rcases sfsDoMount_cases kmalloc buffer (consistent h hc hblk hsize) with ⟨s', dev'', hrun, hm⟩ | ⟨-, e, dev'', hrun⟩
    · rw [hmount] at hrun
      injection hrun with hs
      exact hs ▸ ⟨hm, hm.ready⟩
    · rw [hmount] at hrun
      cases hrun
  have hdisk : s.dev.blk = img := hmounted.blk.trans hblk
  have hinUse := mounted_inUse h hc hblk hmounted
  have hin := mounted_inode h hc hblk hmounted hf
  have hhealthy : s.Healthy := fun k => by
    rw [hmounted.ioRet]
    exact hdev k
  obtain ⟨hdin, x, hfs⟩ := loadInodeMiss_ok hready hin (hhealthy.fault 0) hload
  rw [hdisk, hc.node f hf, load_nodeBlock h] at hdin
  have hblk' : c.fs.dev.blk = img := by
    rw [hfs]
    exact hdisk
  have hlookup : ∀ i, i < 1036 → c.lookup i = m.val f (.data i) := fun i hi =>
    lookup_eq hdin (fun hz => by rw [hblk', hc.index f .indirect trivial hz]) hi
  refine ⟨hdin, ?_, hlookup, fun k hk => ?_, fun hle => ?_⟩
  · rw [hfs]
    exact hhealthy
  · rw [hblk']
    exact hc.data f k hk
  · have hslot : ∀ t, c.slot t = m.val f (ofSlot t) := by
      intro t
      cases t with
      | data i => exact hlookup i i.isLt
      | entryBlock =>
        show c.sin.din.indirect = _
        rw [hdin]
        rfl
    have hn : c.sin.din.blocks = (m.inodeAt f).nblks := by
      rw [hdin]
      exact (h.counts f).blocks
    refine ⟨?_, fun t hz => ?_, fun t u he hz => ?_, fun b hb => hb.elim, fun t _ hb => hb, fun i hi => ?_, by omega⟩
    · rw [hfs]
      exact hready.scratch
    · rw [hslot] at hz ⊢
      rw [hfs]
      exact (hinUse _ hz (ho.range f _ hz).2).scratch
    · rw [hslot] at hz
      rw [hslot, hslot] at he
      exact ofSlot_inj (ho.inj f _ f _ he hz).2
    · rw [hlookup i hi, hn]
      exact (h.counts f).dense i

/-- Every file with a link can be served. -/
theorem exists_served (h : m.Inv) (hf : m.IsInode f) (hlinks : (m.inodeAt f).inode.nlinks ≠ 0)
    (htype : (m.inodeAt f).inode.type = sfsTypeDir ∨ (m.inodeAt f).inode.type = sfsTypeFile) : ∃ c, Served m f c := by
  obtain ⟨img, hclose, hc⟩ := closeSfs_closed h
  have hcons := @consistent m img { dBlocks := m.ninos, blk := img, ioRet := fun _ => 0, ticks := 0 } h hc rfl
    (Nat.le_refl _)
  rcases sfsDoMount_cases (fun _ => true) (fun _ => 0) hcons with ⟨s, dev', hmount, hm⟩ | ⟨⟨i, hi⟩ | ⟨k, hk⟩, -⟩
  · have hfault : s.fault 0 = 0 := by
      rw [fault, hm.ioRet]
    obtain ⟨x, hload⟩ := @loadInodeMiss_eq s f (fun _ => true) hm.ready (mounted_inode h hc rfl hm hf) hfault rfl
    have hdin : SfsDiskInode.load (s.dev.blk f) = (m.inodeAt f).inode.disk := by
      rw [hm.blk]
      exact (congrArg _ (hc.node f hf)).trans (load_nodeBlock h f)
    have hops : sfsGetOps (m.inodeAt f).inode.disk.type (s.scratch 1 x) = .ok () (s.scratch 1 x) :=
      Proc.check_run_pos htype _
    have hlinks' : (m.inodeAt f).inode.disk.nlinks ≠ 0 := hlinks
    rw [hdin, Proc.check_bind_pos hlinks', sfsCreateInode, if_pos rfl, Proc.bind_ok hops] at hload
    exact ⟨⟨_, _⟩, img, _, dev', _, _, _, s, hclose, rfl, Nat.le_refl _, fun _ => rfl, hmount, hload⟩
  · exact Bool.noConfusion hi
  · exact absurd rfl hk

end Mksfs

end Ucore
