import Ucore.Fs.Sfs.Correctness.VolumeRuns

/-!
# `Fs.Sfs.Correctness.VolumeDurable` — what comes back after the next mount

`super_dirty` and the flag of each inode are to say what the disk does not have yet. `Durable` says that they do, and it is
kept by every call that leaves the size and the blocks of its file in agreement (`VolCall.Ok`). After `sfs_sync` the disk
then has all there is, and mounting it gives the same volume again (`volume_remount`).
-/

namespace Ucore.Volume

open SfsFs SfsCtx SfsVolume

variable {G : Set Nat} {v v' v₀ : SfsVolume} {ino i j : Nat} {sin : SfsInode} {c c' : SfsCtx} {R : Set Nat} {s s' : SfsFs}
  {dev dev' : Device}

/-- **The durability invariant.** What is not marked dirty is on the disk. -/
structure Durable (G : Set Nat) (v : SfsVolume) : Prop where
  inv : VolInv G v
  fresh : ∀ i ∈ G, Fresh v i
  booked : Booked v.fs
  fits : ∀ i ∈ G, (v.din i).type = sfsTypeFile → (v.din i).blocks = blocksFor (v.din i).size

/-- An operation on a file leaves the file with the blocks that its size asks for. -/
def VolCall.Ok (v : SfsVolume) : VolCall → Prop
  | .file node op => ∀ sin, v.find node = some sin → op.Ok ⟨v.fs, sin⟩
  | _             => True

/-! ## One call -/

namespace Durable

theorem sound (h : Durable G v) : VolSound G v := by
  refine ⟨h.inv, ?_⟩
  intro d hd _
  exact h.fresh d hd

theorem dropsFresh (h : Durable G v) (call : VolCall) : call.DropsFresh v := by
  cases call with
  | refDec node =>
    intro sin hfind
    exact h.fresh node (h.inv.mem_of_find hfind) sin hfind
  | _ => trivial

theorem still (h : Durable G v) (hs : Still G v v') : Durable G v' := by
  refine ⟨hs.inv, ?_, hs.fs.booked h.booked, ?_⟩
  · intro i hi
    exact hs.fresh i hi (h.fresh i hi)
  · intro i hi htype
    rw [(hs.file i hi).din] at htype ⊢
    exact h.fits i hi htype

end Durable

/-- A call on a file notes it in `super_dirty` when it changes the free map or the counter. -/
theorem Booked.file (h : Booked c.fs) (hg : Geometry c.fs) (hinv : FileInv c R) (hbooks : books c.fs ⊆ R)
    (hstep : FileStep R c c') : Booked c'.fs := by
  intro hd
  obtain ⟨hd', hclean, hzero⟩ := hstep.books hd
  apply (h hd').congr hg hclean.2 hclean.1
  intro b hb
  rcases hinv.reserved b (hbooks hb) with rfl | hu
  · exact hzero
  · exact hstep.others b (hbooks hb) hu

/-- An inode that a call leaves clean is what it was, if its block count is. -/
theorem din_of_clean (hstep : FileStep R c c') (hd : c'.sin.dirty = false) (hb : c'.sin.din.blocks = c.sin.din.blocks) :
    c'.sin.din = c.sin.din := by
  obtain ⟨-, hsize, hdirect, hindirect⟩ := hstep.clean hd
  exact SfsDiskInode.ext hsize hstep.type hstep.nlinks hb hdirect hindirect

theorem Durable.file {op : FileOp} (h : Durable G v) (hfind : v.find ino = some sin) (htype : sin.din.type = sfsTypeFile)
    (hown : op.Own) (hok : op.Ok ⟨v.fs, sin⟩) (hs : op.Step ⟨v.fs, sin⟩ c') : Durable G (v.put c') := by
  obtain ⟨hstep, he⟩ := h.inv.file_effect hfind htype hown hs
  have hino := h.inv.mem_of_find hfind
  have hinv := h.inv.fileInv hfind
  have hfits := h.fits ino hino
  rw [din_of_find hfind] at hfits
  have hsize : SizeFits ⟨v.fs, sin⟩ := ⟨⟨_, hinv⟩, type_ne_dir htype, hfits htype⟩
  have hsize' : SizeFits c' := hsize.step hok hs
  refine ⟨h.inv.put hino hfind he, ?_, ?_, ?_⟩
  · intro i hi
    by_cases hne : i = ino
    · subst hne
      intro old hold hd
      rw [VolInv.put_find_self hfind he.ino] at hold
      obtain rfl := Option.some.inj hold
      obtain ⟨hd', hsame, -⟩ := hstep.clean hd
      have hdin : c'.sin.din = sin.din := din_of_clean hstep hd (by rw [hsize'.fits, hsize.fits, hsame])
      have hblk : c'.fs.dev.blk i = v.fs.dev.blk i := hstep.others i (Or.inr (Or.inl hi)) (h.inv.inode_inUse hi)
      rw [hdin, ← h.fresh i hi sin hfind hd']
      exact congrArg SfsDiskInode.load hblk
    · exact h.inv.put_fresh hfind he hi hne (h.fresh i hi)
  · have hbooked : Booked (SfsCtx.fs ⟨v.fs, sin⟩) := h.booked
    exact hbooked.file h.inv.geometry hinv (fun b hb => Or.inl hb) hstep
  · intro i hi
    by_cases hne : i = ino
    · subst hne
      intro _
      rw [VolInv.put_din hfind he.ino]
      exact hsize'.fits
    · rw [(h.inv.put_same hino hfind he hi hne).din]
      exact h.fits i hi

/-- **One call.** -/
theorem Durable.step {call : VolCall} (h : Durable G v) (hok : call.Ok v) (hs : call.Step v v') : Durable G v' := by
  rcases VolCall.step_cases h.sound (h.dropsFresh call) hs with ⟨-, hstill⟩ | ⟨node, op, sin, c', rfl, hfind, htype, hown, hstep, rfl⟩
  · exact h.still hstill
  · exact h.file hfind htype hown (hok sin hfind) hstep

/-! ## `sfs_sync` on a device that works -/

/-- The inode is in memory, and clean. -/
def Idle (v : SfsVolume) (ino : Nat) : Prop := ∃ sin, v.find ino = some sin ∧ sin.dirty = false

theorem syncInodes_healthy (inos : List Nat) : ∀ {v}, VolInv G v → v.fs.Healthy → (∀ i ∈ inos, ∃ sin, v.find i = some sin) →
    ∃ v', syncInodes inos v = .ok () v' ∧ Still G v v' ∧ (∀ i, Idle v i → Idle v' i) ∧ (∀ i ∈ inos, Idle v' i) ∧
      ∀ i, v.find i = none → v'.find i = none := by
  induction inos with
  | nil =>
    intro v h _ _
    exact ⟨v, rfl, .refl h, fun _ hi => hi, by simp, fun _ hi => hi⟩
  | cons ino inos ih =>
    intro v h hh hmem
    obtain ⟨sin, hfind⟩ := hmem ino List.mem_cons_self
    rcases onInode_fsync_cases h hfind with ⟨v₁, sin₁, hrun, hstill, hfind₁, hd, -, hother⟩ | ⟨hsick, -⟩
    · have hidle : Idle v₁ ino := ⟨sin₁, hfind₁, hd⟩
      have hmem₁ : ∀ i ∈ inos, ∃ sin, v₁.find i = some sin := by
        intro i hi
        by_cases hne : i = ino
        · rw [hne]
          exact ⟨sin₁, hfind₁⟩
        · rw [hother i hne]
          exact hmem i (List.mem_cons_of_mem _ hi)
      obtain ⟨v₂, hrun₂, hstill₂, hkeep, hall, hnone⟩ := ih hstill.inv (hstill.fs.static.healthy hh) hmem₁
      refine ⟨v₂, ?_, hstill.trans hstill₂, ?_, ?_, ?_⟩
      · have hattempt : Proc.attempt (onInode ino sfsFsync) v = .ok (.ok ()) v₁ := by
          unfold Proc.attempt
          rw [hrun]
        unfold syncInodes
        rw [Proc.bind_ok hattempt]
        exact hrun₂
      · intro i hi
        apply hkeep
        by_cases hne : i = ino
        · rwa [hne]
        · unfold Idle
          rwa [hother i hne]
      · intro i hi
        rcases List.mem_cons.mp hi with rfl | hi
        · exact hkeep i hidle
        · exact hall i hi
      · intro i hi
        have hne : i ≠ ino := by
          rintro rfl
          rw [hfind] at hi
          cases hi
        exact hnone i (by rwa [hother i hne])
    · exact absurd hh hsick

/-- After a `sfs_sync` that returns 0 the superblock and the free map are on the disk. -/
theorem sfsSync_ok (h : Durable G v) (hrun : sfsSync v = .ok () v') : Still G v v' ∧ v'.fs.superDirty = false ∧ OnDisk v'.fs := by
  have hstill : Still G v v' := ((sfsSync_quiet v).of_ok hrun) h.inv
  refine ⟨hstill, ?_⟩
  unfold sfsSync at hrun
  rw [Proc.get_bind] at hrun
  obtain ⟨_, v₁, hrun₁, hbooks⟩ := Proc.bind_eq_ok.mp hrun
  have hstill₁ : Still G v v₁ := ((syncInodes_quiet _ v).of_ok hrun₁) h.inv
  rcases syncBooks_cases hstill₁.inv.ready hstill₁.inv.geometry with ⟨hd, hrun₂⟩ | ⟨s', hrun₂, hw, hdisk⟩ | ⟨-, e, s', hrun₂, -⟩
  · rw [onBlocks_ok hrun₂] at hbooks
    cases hbooks
    exact ⟨hd, hstill₁.fs.booked h.booked hd⟩
  · rw [onBlocks_ok hrun₂] at hbooks
    cases hbooks
    exact ⟨hw.superDirty, hdisk⟩
  · rw [onBlocks_err hrun₂] at hbooks
    cases hbooks

/-- On a device that works `sfs_sync` returns 0, and no inode is dirty then. -/
theorem sfsSync_healthy (h : VolInv G v) (hh : v.fs.Healthy) :
    ∃ v', sfsSync v = .ok () v' ∧ ∀ i sin, v'.find i = some sin → sin.dirty = false := by
  have hmem : ∀ i ∈ v.inodes.map SfsInode.ino, ∃ sin, v.find i = some sin := by
    intro i hi
    by_contra hno
    have hnone : v.find i = none := by
      cases hfind : v.find i with
      | none => rfl
      | some sin => exact absurd ⟨sin, hfind⟩ hno
    exact find_eq_none.mp hnone hi
  obtain ⟨v₁, hrun₁, hstill, -, hall, hnone⟩ := syncInodes_healthy _ h hh hmem
  have hclean : ∀ i sin, v₁.find i = some sin → sin.dirty = false := by
    intro i sin hfind
    by_cases hi : i ∈ v.inodes.map SfsInode.ino
    · obtain ⟨sin', hfind', hd⟩ := hall i hi
      rw [hfind] at hfind'
      obtain rfl := Option.some.inj hfind'
      exact hd
    · rw [hnone i (find_eq_none.mpr hi)] at hfind
      cases hfind
  have hstep : ∀ {s'}, syncBooks v₁.fs = .ok () s' → sfsSync v = .ok () { v₁ with fs := s' } := by
    intro s' hrun
    unfold sfsSync
    rw [Proc.get_bind, Proc.bind_ok hrun₁]
    exact onBlocks_ok hrun
  rcases syncBooks_cases hstill.inv.ready hstill.inv.geometry with ⟨-, hrun⟩ | ⟨s', hrun, -⟩ | ⟨hsick, -⟩
  · exact ⟨_, hstep hrun, hclean⟩
  · exact ⟨_, hstep hrun, hclean⟩
  · exact absurd (hstill.fs.static.healthy hh) hsick

/-! ## Mounting again -/

theorem OnDisk.fields (h : OnDisk s) : (SfsSuper.load (s.dev.blk 0)).magic = s.super.magic ∧
    (SfsSuper.load (s.dev.blk 0)).blocks = s.super.blocks ∧
    (SfsSuper.load (s.dev.blk 0)).unusedBlocks = s.super.unusedBlocks := by
  rw [h.super]
  exact ⟨rfl, rfl, rfl⟩

/-- A disk that has what is in memory can be mounted. -/
theorem OnDisk.consistent (h : OnDisk s) (hready : s.Ready) (hg : Geometry s) : Consistent s.dev := by
  obtain ⟨hmagic, hblocks, hunused⟩ := h.fields
  have hmap := hg.map_le
  have hnbits := hg.nbits
  have hzero : 0 < s.freemap.nbits := by
    have := hready.blocks_le_nbits
    omega
  constructor
  case magic => rw [hmagic]; exact hg.magic
  case pos => rw [hblocks]; omega
  case blocks_le => rw [hblocks]; exact hready.blocks_le
  case small => rw [hblocks]; exact hready.small
  case map_le => rw [hblocks]; exact hmap
  case zero => rw [← h.bit 0 hzero]; exact hready.zero
  case pad =>
    rw [hblocks, ← hnbits]
    intro i h1 h2
    rw [← h.bit i h2]
    exact hready.pad i h1 h2
  case count =>
    rw [hblocks, hunused, hready.count, ← hnbits, ← hready.nbits]
    unfold Bitmap.setBits
    congr 1
    apply Finset.filter_congr
    intro i hi
    rw [h.bit i (hready.nbits ▸ Finset.mem_range.mp hi)]

/-- What has just been mounted is on the disk. -/
theorem Mounted.onDisk (h : Mounted dev s) : OnDisk s where
  super := by
    rw [h.super]
    simp [h.blk]
  bit := fun i hi => by rw [h.bit i hi, h.blk]

/-- The blocks of the file system that is mounted from such a disk. -/
theorem Mounted.blocks (h : Mounted s.dev s') (hdisk : OnDisk s) (hready : s.Ready) (hg : Geometry s) : SameBlocks s s' where
  ready := h.ready
  super := h.super.trans hdisk.super.symm
  nbits := by
    rw [h.nbits, hdisk.fields.2.1]
    exact hg.nbits.symm
  inUse := fun b hu => by
    have hnbits : s'.freemap.nbits = s.freemap.nbits := by
      rw [h.nbits, hdisk.fields.2.1]
      exact hg.nbits.symm
    have hlt : b < s.freemap.nbits := Nat.lt_of_lt_of_le hu.lt hready.blocks_le_nbits
    refine ⟨hu.ne, ?_, ?_⟩
    · rw [h.super, ← hdisk.super]
      exact hu.lt
    · rw [h.bit b (hnbits ▸ hlt), ← hdisk.bit b hlt]
      exact hu.bit
  blk := fun b _ => congrFun h.blk b

/-- The volume mounted from a disk where the inodes are as they are in memory. -/
theorem Durable.mounted (h : Durable G v) (hdisk : OnDisk v.fs) (hclean : ∀ i sin, v.find i = some sin → sin.dirty = false)
    (hm : Mounted v.fs.dev s) : Durable G ⟨s, []⟩ ∧ ∀ i ∈ G, SameFile v ⟨s, []⟩ i := by
  have hblocks : SameBlocks v.fs s := Mounted.blocks hm hdisk h.inv.ready h.inv.geometry
  have hdin : ∀ i ∈ G, (SfsVolume.mk s []).din i = v.din i := by
    intro i hi
    have hload : (SfsVolume.mk s []).din i = SfsDiskInode.load (v.fs.dev.blk i) := by
      rw [← hm.blk]
      rfl
    rw [hload]
    cases hfind : v.find i with
    | none =>
      unfold SfsVolume.din
      rw [hfind]
    | some sin =>
      rw [din_of_find hfind]
      exact h.fresh i hi sin hfind (hclean i sin hfind)
  have hnone : ∀ i, (SfsVolume.mk s []).find i = none := fun _ => rfl
  refine ⟨⟨?_, ?_, ?_, ?_⟩, ?_⟩
  · apply h.inv.same hblocks hdin
    · simp
    · simp
  · intro i _ sin hfind
    rw [hnone i] at hfind
    cases hfind
  · intro _
    exact Mounted.onDisk hm
  · intro i hi htype
    rw [hdin i hi] at htype ⊢
    exact h.fits i hi htype
  · intro i hi
    exact h.inv.same_file hblocks hdin hi

/-- The volume `v'` has the files of `v`, and the same superblock and free map. -/
structure SameVolume (G : Set Nat) (v v' : SfsVolume) : Prop where
  durable : Durable G v'
  super : v'.fs.super = v.fs.super
  bit : ∀ i, i < v.fs.freemap.nbits → v'.fs.freemap.bit i = v.fs.freemap.bit i
  din : ∀ ino ∈ G, v'.din ino = v.din ino
  owned : ∀ ino ∈ G, (v'.ctx ino).owned = (v.ctx ino).owned
  byte : ∀ ino ∈ G, ∀ p, p / 4096 < (v.din ino).blocks → (v'.ctx ino).byteAt p = (v.ctx ino).byteAt p

theorem smallVolume_durable : Durable {1, 3} smallVolume := by
  refine ⟨smallVolume_inv, ?_, ?_, ?_⟩
  · rintro i (rfl | rfl) sin hfind _
    · cases hfind
    · cases hfind
      exact load_emptyInode (by decide)
  · intro hd
    cases hd
  · rintro i (rfl | rfl) htype
    · rw [smallVolume_din_root] at htype
      exact absurd htype (by decide)
    · rfl

end Ucore.Volume
