import Ucore.Fs.Sfs.Correctness.Sync
import Ucore.Fs.Sfs.Correctness.VolumeInv

/-!
# `Fs.Sfs.Correctness.VolumeCalls` — the functions on the inodes in memory

Loading an inode, looking a name up, counting holders, writing back and dropping an inode leave every file as it is
(`Still`). A clean inode that differs from its block would be lost when it is dropped: `Fresh` says that the inode in
memory is no such one.

`sfs_fsync` puts an inode into its block, `sfs_reclaim` does so before it drops one, and `sfs_sync` writes all inodes, the
superblock and the free map. None of them changes a file, provided the inode dropped is `Fresh`.
-/

namespace Ucore.Volume

open SfsFs SfsCtx SfsVolume

/-- The inode in memory, if it is clean, is the one on the disk. -/
def Fresh (v : SfsVolume) (ino : Nat) : Prop :=
  ∀ sin, v.find ino = some sin → sin.dirty = false → SfsDiskInode.load (v.fs.dev.blk ino) = sin.din

/-- Nothing has happened to any file. -/
structure Still (G : Set Nat) (v v' : SfsVolume) : Prop where
  inv : VolInv G v'
  file : ∀ j ∈ G, SameFile v v' j
  fresh : ∀ j ∈ G, Fresh v j → Fresh v' j
  fs : KeptFs v.fs v'.fs

/-- What the functions that change no file do. -/
def Quiet (G : Set Nat) (v v' : SfsVolume) : Prop := VolInv G v → Still G v v'

variable {G : Set Nat} {v v' v'' : SfsVolume} {ino j : Nat} {sin : SfsInode} {c c' : SfsCtx} {R : Set Nat} {s s' s'' : SfsFs}
  {α : Type}

theorem kept_refl (h : s.Ready) : KeptFs s s := ⟨h, .refl s, rfl, rfl, id⟩

theorem KeptFs.trans (h : KeptFs s s') (h' : KeptFs s' s'') : KeptFs s s'' :=
  ⟨h'.ready, h.static.trans h'.static, h'.super.trans h.super, h'.freemap.trans h.freemap, fun hb => h'.booked (h.booked hb)⟩

theorem kept_scratch (h : s.Ready) (k : Nat) (x : Bytes) : KeptFs s (s.scratch k x) :=
  ⟨h.scratch, ⟨rfl, rfl, rfl, rfl, rfl, rfl, rfl⟩, rfl, rfl, fun hb hd => ⟨(hb hd).super, (hb hd).bit⟩⟩

theorem sameBooks_scratch (h : s.Ready) (k : Nat) (x : Bytes) : SameBooks s (s.scratch k x) :=
  ⟨kept_scratch h k x, fun _ _ => rfl⟩

theorem Still.refl (h : VolInv G v) : Still G v v := ⟨h, fun j _ => .refl v j, fun _ _ hf => hf, kept_refl h.ready⟩

theorem Still.trans (h : Still G v v') (h' : Still G v' v'') : Still G v v'' :=
  ⟨h'.inv, fun j hj => (h.file j hj).trans (h'.file j hj), fun j hj hf => h'.fresh j hj (h.fresh j hj hf), h.fs.trans h'.fs⟩

instance : Std.Refl (Quiet G) := ⟨fun _ h => .refl h⟩

instance : IsTrans SfsVolume (Quiet G) where
  trans _ _ _ h h' := by
    intro hv
    have h₁ := h hv
    exact h₁.trans (h' h₁.inv)

theorem quiet_of {x : VolM α} (hx : ∀ v, VolInv G v → (x v).Leaves (Still G v)) : Keeps (Quiet G) x := by
  intro v
  cases hrun : x v with
  | ok a v' => exact fun hv => (hx v hv).of_ok hrun
  | err e v' => exact fun hv => (hx v hv).of_err hrun
  | panic p => trivial

/-! ## Changes that leave all files alone -/

/-- Inodes come into memory and leave it as they are on the disk. -/
theorem VolInv.still (h : VolInv G v) (hfs : SameBooks v.fs v'.fs) (hdin : ∀ i ∈ G, v'.din i = v.din i)
    (hloaded : ∀ i ∈ v'.inodes.map SfsInode.ino, i ∈ G) (hnodup : (v'.inodes.map SfsInode.ino).Nodup)
    (hfresh : ∀ j ∈ G, Fresh v j → Fresh v' j) : Still G v v' :=
  ⟨h.same hfs.blocks hdin hloaded hnodup, fun _ hj => h.same_file hfs.blocks hdin hj, hfresh, hfs.kept⟩

/-- A function on the blocks. -/
theorem VolInv.blocks (hv : VolInv G v) (hfs : SameBooks v.fs s') : Still G v { v with fs := s' } := by
  have hblk : ∀ i ∈ G, s'.dev.blk i = v.fs.dev.blk i := fun i hi => hfs.blk i (hv.inode i hi)
  apply hv.still hfs
  · intro i hi
    unfold SfsVolume.din
    rw [hblk i hi]
    rfl
  · exact hv.loaded
  · exact hv.nodup
  · intro i hi hf sin hsin hd
    rw [hblk i hi]
    exact hf sin hsin hd

theorem onBlocks_ok {x : SfsM α} {a : α} (h : x v.fs = .ok a s') : onBlocks x v = .ok a { v with fs := s' } := by
  unfold onBlocks Proc.within
  rw [h]

theorem onBlocks_err {x : SfsM α} {e : Int} (h : x v.fs = .err e s') : onBlocks x v = .err e { v with fs := s' } := by
  unfold onBlocks Proc.within
  rw [h]

theorem onBlocks_panic {x : SfsM α} {p : SfsPanic} (h : x v.fs = .panic p) : onBlocks x v = .panic (.sfs p) := by
  unfold onBlocks Proc.within
  rw [h]

/-- A function on the blocks. -/
theorem onBlocks_quiet {x : SfsM α} (hx : ∀ s, s.Ready → Geometry s → (x s).Leaves (SameBooks s)) : Keeps (Quiet G) (onBlocks x) := by
  apply quiet_of
  intro v hv
  have hrun := hx v.fs hv.ready hv.geometry
  cases h : x v.fs with
  | ok a s' =>
    rw [onBlocks_ok h]
    exact hv.blocks (hrun.of_ok h)
  | err e s' =>
    rw [onBlocks_err h]
    exact hv.blocks (hrun.of_err h)
  | panic p =>
    rw [onBlocks_panic h]
    trivial

theorem theInode_run (h : v.find ino = some sin) : theInode ino v = .ok sin v := by
  unfold theInode
  rw [Proc.get_bind, h]
  rfl

theorem theInode_quiet (ino : Nat) : Keeps (Quiet G) (theInode ino) := by
  apply Keeps.bind .of_get
  intro v
  cases v.find ino with
  | none => exact .of_stop _
  | some sin => exact .of_pure sin

/-- The counts of an inode are of no concern to its file. -/
theorem VolInv.store (h : VolInv G v) (hfind : v.find ino = some sin) {sin' : SfsInode} (hino : sin'.ino = sin.ino)
    (hdin : sin'.din = sin.din) (hdirty : sin'.dirty = sin.dirty) : Still G v (v.store sin') := by
  have hsin := (find_some hfind).2
  have hfound : ∀ j old, (v.store sin').find j = some old →
      ∃ old', v.find j = some old' ∧ old.din = old'.din ∧ old.dirty = old'.dirty := by
    intro j old hj
    rw [find_store] at hj
    obtain ⟨old', hold, he⟩ := Option.map_eq_some_iff.mp hj
    refine ⟨old', hold, ?_⟩
    by_cases hji : j = sin'.ino
    · rw [hji, hino, hsin, hfind] at hold
      rw [if_pos hji] at he
      cases hold
      cases he
      exact ⟨hdin, hdirty⟩
    · rw [if_neg hji] at he
      cases he
      exact ⟨rfl, rfl⟩
  have hinos := inos_store v sin'
  have hfs : SameBooks v.fs (v.store sin').fs := ⟨kept_refl h.ready, fun _ _ => rfl⟩
  apply h.still hfs
  · intro i _
    unfold SfsVolume.din
    cases hf : (v.store sin').find i with
    | none =>
      rw [find_eq_none, hinos, ← find_eq_none] at hf
      rw [hf]
      rfl
    | some old =>
      obtain ⟨old', hold, hd, -⟩ := hfound i old hf
      rw [hold]
      exact hd
  · rw [hinos]
    exact h.loaded
  · rw [hinos]
    exact h.nodup
  · intro j _ hf old hj hd
    obtain ⟨old', hold, he, hd'⟩ := hfound j old hj
    rw [he]
    exact hf old' hold (hd'.symm.trans hd)

theorem modifyInode_quiet {f : SfsInode → SfsInode}
    (hf : ∀ sin, (f sin).ino = sin.ino ∧ (f sin).din = sin.din ∧ (f sin).dirty = sin.dirty) :
    Keeps (Quiet G) (modifyInode ino f) := by
  intro v
  unfold modifyInode theInode
  rw [Proc.bind_run, Proc.get_bind]
  cases hfind : v.find ino with
  | none => trivial
  | some sin =>
    intro hv
    exact hv.store hfind (hf sin).1 (hf sin).2.1 (hf sin).2.2

theorem inodeRefInc_quiet (ino : Nat) : Keeps (Quiet G) (inodeRefInc ino) := by
  apply (theInode_quiet ino).bind
  intro sin
  refine (modifyInode_quiet ?_).bind ?_
  · intro _
    exact ⟨rfl, rfl, rfl⟩
  · intro _
    exact .of_pure _

theorem held_quiet (ino : Nat) : Keeps (Quiet G) (held ino) := by
  apply (theInode_quiet ino).bind
  intro sin
  apply (Keeps.of_check _ _).bind
  intro _
  exact .of_pure sin

/-! ## Loading an inode -/

/-- The chain of the hash table has what the list of all inodes has. -/
theorem find_hashList (v : SfsVolume) (ino : Nat) :
    ((sfsHashList v ino).find? fun sin => sin.ino = ino) = v.find ino := by
  unfold sfsHashList SfsVolume.find
  rw [List.find?_filter]
  congr 1
  funext sin
  by_cases h : sin.ino = ino
  · simp [h]
  · simp [h]

theorem lookupSfsNolock_quiet (ino : Nat) : Keeps (Quiet G) (lookupSfsNolock ino) := by
  apply Keeps.bind .of_get
  intro v
  cases (sfsHashList v ino).find? fun sin => sin.ino = ino with
  | none => exact .of_pure false
  | some sin =>
    apply (inodeRefInc_quiet ino).bind
    intro refCount
    by_cases hone : refCount = 1
    · simp only [hone, if_true]
      refine (modifyInode_quiet ?_).bind ?_
      · intro _
        exact ⟨rfl, rfl, rfl⟩
      · intro _
        exact .of_pure true
    · simp only [hone, if_false]
      exact .of_pure true

/-- It answers no only if the inode is not in memory, and has then done nothing. -/
theorem lookupSfsNolock_miss (h : lookupSfsNolock ino v = .ok false v') : v.find ino = none ∧ v' = v := by
  unfold lookupSfsNolock at h
  rw [Proc.get_bind, find_hashList] at h
  cases hf : v.find ino with
  | none =>
    rw [hf] at h
    cases h
    exact ⟨rfl, rfl⟩
  | some sin =>
    rw [hf] at h
    obtain ⟨refCount, v₁, -, h₁⟩ := Proc.bind_eq_ok.mp h
    split at h₁
    · obtain ⟨_, v₂, -, h₂⟩ := Proc.bind_eq_ok.mp h₁
      cases h₂
    · cases h₁

/-- What is read is the inode on the disk. -/
theorem loadInodeMiss_post (kmalloc : Nat → Bool) (h : s.Ready) (hino : s.InUse ino) :
    (loadInodeMiss kmalloc ino s).Post
      (fun sin s' => (∃ k x, s' = s.scratch k x) ∧ sin.ino = ino ∧ sin.din = SfsDiskInode.load (s.dev.blk ino))
      (fun _ s' => ∃ k x, s' = s.scratch k x) := by
  have hnone : ∃ k x, s = s.scratch k x := ⟨0, s.sfsBuffer, rfl⟩
  unfold loadInodeMiss
  split
  · exact hnone
  rw [Proc.bind_ok (assertInuse_run h hino)]
  obtain ⟨x, ⟨-, hrun⟩ | ⟨-, hrun⟩⟩ := sfsRbuf_cases (fun _ => 0) 0 h hino.ne hino.lt (show 0 < 4096 by decide)
    (show 0 + sfsDiskInodeSize ≤ 4096 by decide)
  · rw [Proc.bind_ok hrun]
    have hdin : SfsDiskInode.load (memcpy (fun _ => 0) 0 (s.dev.blk ino) 0 sfsDiskInodeSize) =
        SfsDiskInode.load (s.dev.blk ino) := by
      apply SfsDiskInode.load_congr
      intro i hi
      rw [memcpy_in ⟨Nat.zero_le i, by unfold sfsDiskInodeSize; omega⟩, Nat.zero_add, Nat.sub_zero]
    apply Outcome.Post.check_bind
    intro _
    unfold sfsCreateInode
    split
    · unfold sfsGetOps
      apply Outcome.Post.check_bind
      intro _
      exact ⟨⟨1, x, rfl⟩, rfl, hdin⟩
    · exact ⟨1, x, rfl⟩
  · rw [Proc.bind_err hrun]
    exact ⟨1, x, rfl⟩

/-- An inode as it is on the disk comes into memory. -/
theorem VolInv.setLinks (hv : VolInv G v) (hino : ino ∈ G) (hnone : v.find ino = none) (hsin : sin.ino = ino)
    (hdin : sin.din = SfsDiskInode.load (v.fs.dev.blk ino)) (k : Nat) (x : Bytes) :
    Still G v ⟨v.fs.scratch k x, sin :: v.inodes⟩ := by
  have hfind : ∀ j, j ≠ ino → SfsVolume.find ⟨v.fs.scratch k x, sin :: v.inodes⟩ j = v.find j := by
    intro j hj
    unfold SfsVolume.find
    exact List.find?_cons_of_neg (by simpa [hsin] using Ne.symm hj)
  have hself : SfsVolume.find ⟨v.fs.scratch k x, sin :: v.inodes⟩ ino = some sin := by
    simp [SfsVolume.find, hsin]
  have hfs : SameBooks v.fs (SfsVolume.mk (v.fs.scratch k x) (sin :: v.inodes)).fs := sameBooks_scratch hv.ready k x
  apply hv.still hfs
  · intro i _
    unfold SfsVolume.din
    by_cases hi : i = ino
    · subst hi
      rw [hself, hnone]
      exact hdin
    · rw [hfind i hi]
      rfl
  · intro i hi
    rcases List.mem_cons.mp hi with rfl | hi
    · exact hsin ▸ hino
    · exact hv.loaded i hi
  · refine List.nodup_cons.mpr ⟨?_, hv.nodup⟩
    rw [hsin]
    exact find_eq_none.mp hnone
  · intro j _ hf old hold hd
    by_cases hj : j = ino
    · subst hj
      rw [hself] at hold
      cases hold
      exact hdin.symm
    · rw [hfind j hj] at hold
      exact hf old hold hd

theorem sfsLoadInode_quiet (kmalloc : Nat → Bool) (hino : ino ∈ G) : Keeps (Quiet G) (sfsLoadInode kmalloc ino) := by
  apply quiet_of
  intro v hv
  have hlook := lookupSfsNolock_quiet (G := G) ino
  unfold sfsLoadInode
  cases hrun : lookupSfsNolock ino v with
  | panic p =>
    rw [Proc.bind_panic hrun]
    trivial
  | err e v₁ =>
    rw [Proc.bind_err hrun]
    exact hlook.err hrun hv
  | ok found v₁ =>
    rw [Proc.bind_ok hrun]
    cases found with
    | true => exact hlook.ok hrun hv
    | false =>
      obtain ⟨hnone, rfl⟩ := lookupSfsNolock_miss hrun
      have hpost := loadInodeMiss_post kmalloc hv.ready (hv.inode_inUse hino)
      simp only [Bool.false_eq_true, if_false]
      cases hload : loadInodeMiss kmalloc ino v₁.fs with
      | panic p =>
        rw [Proc.bind_panic (onBlocks_panic hload)]
        trivial
      | err e s₁ =>
        obtain ⟨k, x, rfl⟩ := hpost.of_err hload
        rw [Proc.bind_err (onBlocks_err hload)]
        exact hv.blocks (sameBooks_scratch hv.ready k x)
      | ok sin s₁ =>
        obtain ⟨⟨k, x, rfl⟩, hsin, hdin⟩ := hpost.of_ok hload
        rw [Proc.bind_ok (onBlocks_ok hload)]
        exact hv.setLinks hino hnone hsin hdin k x

/-! ## Reading a directory -/

/-- What the functions that only read a sound file do. -/
def Reading (R : Set Nat) (c c' : SfsCtx) : Prop := FileInv c R → Looked c c'

instance : Std.Refl (Reading R) := ⟨fun c _ => .refl c⟩

instance : IsTrans SfsCtx (Reading R) where
  trans _ _ _ h h' := by
    intro hc
    have h₁ := h hc
    exact h₁.trans (h' (h₁.inv hc))

theorem sfsDirentReadNolock_keeps (k : Nat) (entry : Bytes) : Keeps (Reading R) (sfsDirentReadNolock k entry) := by
  intro c
  by_cases hk : c.sin.din.type = sfsTypeDir ∧ k < c.sin.din.blocks
  · cases hrun : sfsDirentReadNolock k entry c with
    | panic p => trivial
    | ok a c' =>
      intro hc
      rcases sfsDirentReadNolock_cases entry hc hk.1 hk.2 with ⟨c₁, h₁, hl⟩ | ⟨e, c₁, -, h₁, -⟩ <;> rw [h₁] at hrun <;>
        cases hrun
      exact hl
    | err e c' =>
      intro hc
      rcases sfsDirentReadNolock_cases entry hc hk.1 hk.2 with ⟨c₁, h₁, -⟩ | ⟨e, c₁, -, h₁, hl⟩ <;> rw [h₁] at hrun <;>
        cases hrun
      exact hl
  · unfold sfsDirentReadNolock
    rw [Proc.get_bind, Proc.check_bind_neg hk]
    trivial

theorem getdirentrySubLoop_keeps (n : Nat) : ∀ slot entry i, Keeps (Reading R) (getdirentrySubLoop slot entry i n) := by
  induction n with
  | zero => exact fun _ _ _ => .of_fail _
  | succ n ih =>
    intro slot entry i
    apply (sfsDirentReadNolock_keeps i entry).bind
    intro entry'
    split
    · split
      · exact .of_pure entry'
      · exact ih _ _ _
    · exact ih _ _ _

theorem iobufMove_keeps (iob : Iobuf) (data : Bytes) (d len : Nat) (m2b : Bool) :
    Keeps (Reading R) (iobufMove iob data d len m2b) := by
  unfold iobufMove
  dsimp only
  split
  · refine Keeps.bind ?_ ?_
    · apply (Keeps.of_check _ _).bind
      intro _
      exact .of_pure _
    · intro _
      exact .of_pure _
  · exact .of_pure _

theorem sfsGetdirentry_keeps (entry : Option Bytes) (iob : Iobuf) : Keeps (Reading R) (sfsGetdirentry entry iob) := by
  unfold sfsGetdirentry
  cases entry with
  | none => exact .of_pure _
  | some entry =>
    dsimp only
    split
    · exact .of_pure _
    · apply Keeps.of_get.bind
      intro c
      split
      · exact .of_pure _
      · refine Keeps.bind ?_ ?_
        · apply Keeps.attempt
          apply Keeps.of_get.bind
          intro c'
          exact getdirentrySubLoop_keeps _ _ _ _
        · intro r
          cases r with
          | error ret => exact .of_pure _
          | ok entry =>
            apply (iobufMove_keeps iob entry 4 sfsDentrySize true).bind
            intro _
            exact .of_pure _

/-- The inode number in slot `k`. -/
def direntIno (c : SfsCtx) (k : Nat) : Nat := getLe (c.fs.dev.blk (c.lookup k)) 0 4

theorem getLe_direntRead (c : SfsCtx) (k : Nat) (entry : Bytes) : getLe (direntRead c k entry) 0 4 = direntIno c k := by
  unfold direntRead direntIno
  apply getLe_congr
  intro i _ hi
  rw [Function.update_of_ne (by omega), memcpy_in ⟨Nat.zero_le i, by omega⟩, Nat.zero_add, Nat.sub_zero]

/-- An inode number that a search finds is in a slot of the directory. -/
def InSlot (c : SfsCtx) (r : DirentSearch) : Prop :=
  ∀ ino, r.ino = some ino → c.sin.din.type = sfsTypeDir ∧ ino ≠ 0 ∧ ∃ k, k < c.sin.din.blocks ∧ direntIno c k = ino

theorem InSlot.of_looked {r : DirentSearch} (h : Looked c c') (hr : InSlot c' r) : InSlot c r := by
  obtain ⟨k, x, rfl⟩ := h
  exact hr

theorem direntSearchLoop_post (name : List UInt8) (n : Nat) : ∀ {c : SfsCtx} {emptySlot i : Nat} (entry : Bytes),
    FileInv c R → i + n = c.sin.din.blocks →
      (direntSearchLoop name entry emptySlot i n c).Post (fun r c' => Looked c c' ∧ InSlot c r) (fun _ c' => Looked c c') := by
  induction n with
  | zero =>
    intro c emptySlot i entry _ _
    exact ⟨.refl c, fun ino h => by cases h⟩
  | succ n ih =>
    intro c emptySlot i entry hc hin
    unfold direntSearchLoop
    by_cases htype : c.sin.din.type = sfsTypeDir
    · have hi : i < c.sin.din.blocks := by omega
      rcases sfsDirentReadNolock_cases entry hc htype hi with ⟨c₁, hrun, hl⟩ | ⟨e, c₁, -, hrun, hl⟩
      · rw [Proc.bind_ok (Proc.attempt_ok hrun)]
        have hblocks : i + 1 + n = c₁.sin.din.blocks := by
          obtain ⟨k, x, rfl⟩ := hl
          show i + 1 + n = c.sin.din.blocks
          omega
        -- the rest of the loop starts where nothing but the device has moved
        have hrest : ∀ {emptySlot'}, (direntSearchLoop name (direntRead c i entry) emptySlot' (i + 1) n c₁).Post
            (fun r c' => Looked c c' ∧ InSlot c r) (fun _ c' => Looked c c') := by
          intro emptySlot'
          apply (ih (direntRead c i entry) (hl.inv hc) hblocks).imp
          · intro r c' h
            exact ⟨hl.trans h.1, .of_looked hl h.2⟩
          · intro e c' h
            exact hl.trans h
        dsimp only
        split
        · exact hrest
        · next hino =>
          split
          · refine ⟨hl, fun ino h => ?_⟩
            cases h
            exact ⟨htype, hino, i, hi, (getLe_direntRead c i entry).symm⟩
          · exact hrest
      · rw [Proc.bind_ok (Proc.attempt_err hrun)]
        exact ⟨hl, fun ino h => by cases h⟩
    · have hrun : sfsDirentReadNolock i entry c = .panic .direntRead := by
        unfold sfsDirentReadNolock
        rw [Proc.get_bind, Proc.check_bind_neg fun h => htype h.1]
      rw [Proc.bind_panic (Proc.attempt_panic hrun)]
      trivial

theorem sfsDirentSearchNolock_post (name : List UInt8) (entry : Option Bytes) (hc : FileInv c R) :
    (sfsDirentSearchNolock name entry c).Post (fun r c' => Looked c c' ∧ InSlot c r) (fun _ c' => Looked c c') := by
  unfold sfsDirentSearchNolock
  apply Outcome.Post.check_bind
  intro _
  cases entry with
  | none => exact ⟨.refl c, fun ino h => by cases h⟩
  | some entry =>
    dsimp only
    rw [Proc.get_bind]
    exact direntSearchLoop_post name c.sin.din.blocks entry hc (Nat.zero_add _)

variable {k : Nat} {x : Bytes}

/-! ## The superblock and the free map -/

/-- They are on the disk as long as their blocks stay. -/
theorem OnDisk.congr (h : OnDisk s) (hg : Geometry s) (hsuper : s'.super = s.super) (hfreemap : s'.freemap = s.freemap)
    (hblk : ∀ b ∈ books s, s'.dev.blk b = s.dev.blk b) : OnDisk s' where
  super := by
    rw [hsuper, hblk 0 (Or.inl rfl)]
    exact h.super
  bit := fun i hi => by
    rw [hfreemap] at hi ⊢
    rw [h.bit i hi]
    have hlt : i < 32768 * mapSize s.super.blocks := hg.nbits ▸ hi
    unfold diskBit
    rw [hblk (2 + i / 32768) (Or.inr (by omega))]

/-- A block that is not theirs is written. -/
theorem kept_setBlk {b : Nat} (h : s.Ready) (hg : Geometry s) (hb : b ∉ books s) : KeptFs s (s.setBlk b x) := by
  refine ⟨h.setBlk, ⟨rfl, rfl, rfl, rfl, rfl, rfl, rfl⟩, rfl, rfl, fun hbook hd => ?_⟩
  have hblk : ∀ b' ∈ books s, (s.setBlk b x).dev.blk b' = s.dev.blk b' := by
    intro b' hb'
    exact blk_setBlk_of_ne _ _ fun he => hb (he ▸ hb')
  exact (hbook hd).congr hg rfl rfl hblk

/-- Blocks in `X` have been written. -/
structure Wrote (X : Set Nat) (s s' : SfsFs) : Prop where
  ready : s'.Ready
  static : Static s s'
  super : s'.super = s.super
  freemap : s'.freemap = s.freemap
  superDirty : s'.superDirty = s.superDirty
  blk : ∀ b, b ∉ X → s'.dev.blk b = s.dev.blk b

namespace Wrote

variable {X Y : Set Nat}

theorem refl (h : s.Ready) : Wrote X s s := ⟨h, .refl s, rfl, rfl, rfl, fun _ _ => rfl⟩

theorem trans (h : Wrote X s s') (h' : Wrote Y s' s'') (hx : X ⊆ R) (hy : Y ⊆ R) : Wrote R s s'' where
  ready := h'.ready
  static := h.static.trans h'.static
  super := h'.super.trans h.super
  freemap := h'.freemap.trans h.freemap
  superDirty := h'.superDirty.trans h.superDirty
  blk := fun b hb => by rw [h'.blk b fun hm => hb (hy hm), h.blk b fun hm => hb (hx hm)]

theorem mono (h : Wrote X s s') (hx : X ⊆ R) : Wrote R s s' :=
  ⟨h.ready, h.static, h.super, h.freemap, h.superDirty, fun b hb => h.blk b fun hm => hb (hx hm)⟩

theorem scratch (h : s.Ready) : Wrote X s (s.scratch k x) :=
  ⟨h.scratch, ⟨rfl, rfl, rfl, rfl, rfl, rfl, rfl⟩, rfl, rfl, rfl, fun _ _ => rfl⟩

theorem setBlk {b : Nat} (h : s.Ready) (hb : b ∈ X) : Wrote X s (s.setBlk b x) :=
  ⟨h.setBlk, ⟨rfl, rfl, rfl, rfl, rfl, rfl, rfl⟩, rfl, rfl, rfl, fun _ hi => blk_setBlk_of_ne _ _ fun he => hi (he ▸ hb)⟩

end Wrote

/-- What is read back of a superblock that has been written. -/
theorem load_written {p : SfsSuper} (h : p.Fits) (blk m : Bytes) :
    SfsSuper.load (memcpy blk 0 (p.store m) 0 4096) = p := by
  rw [load_read]
  exact SfsSuper.load_store h m

/-- The last byte of the text is 0, so closing the text once more changes nothing. -/
theorem info_closed {p : SfsSuper} (h : p.info 31 = 0) : p = { p with info := Function.update p.info 31 0 } := by
  have hsame : Function.update p.info 31 0 = p.info := by
    rw [← h]
    exact Function.update_eq_self 31 p.info
  rw [hsame]

theorem super_fits (h : s.Ready) (hg : Geometry s) : s.super.Fits := by
  have hle := h.blocks_le
  have hsmall := h.small
  refine ⟨?_, by omega, ?_⟩
  · rw [hg.magic]
    decide
  · rw [h.count]
    have hcard : s.freemap.setBits ≤ 32 * s.freemap.nwords := by
      unfold Bitmap.setBits
      exact (Finset.card_filter_le _ _).trans (Finset.card_range _).le
    have hmap : mapSize s.super.blocks ≤ s.super.blocks := by
      have := hg.map_le
      omega
    have hbits := hg.nbits
    rw [h.nbits, hbits] at hcard
    unfold mapSize at hcard
    omega

theorem sfsSyncSuper_cases (h : s.Ready) (hg : Geometry s) :
    (∃ s', sfsSyncSuper s = .ok () s' ∧ Wrote {0} s s' ∧ SfsSuper.load (s'.dev.blk 0) = s.super) ∨
    ¬ s.Healthy ∧ ∃ e s', sfsSyncSuper s = .err e s' ∧ Wrote {0} s s' := by
  have hpos : 0 < s.super.blocks := Nat.lt_of_lt_of_le (by omega) hg.map_le
  let s₁ : SfsFs := { s with sfsBuffer := s.super.store (memzero s.sfsBuffer sfsBlksize) }
  have hw₁ : Wrote {0} s s₁ := Wrote.scratch (k := 0) h
  have hrun := sfsRwblockNolock_run s₁.sfsBuffer 0 hw₁.ready hpos true false (Or.inr rfl)
  unfold sfsSyncSuper setSfsBuffer
  rw [Proc.get_bind, Proc.modify_bind]
  by_cases hf : s₁.fault 0 = 0
  · rw [if_pos hf, if_pos rfl] at hrun
    refine Or.inl ⟨_, Proc.bind_ok hrun, ?_, ?_⟩
    · have hset : Wrote {0} s₁ (s₁.setBlk 0 (memcpy (s₁.dev.blk 0) 0 s₁.sfsBuffer 0 4096)) := .setBlk hw₁.ready rfl
      exact (hw₁.trans hset le_rfl le_rfl).trans (.scratch hset.ready) le_rfl le_rfl
    · rw [blk_scratch, blk_setBlk_self]
      exact load_written (super_fits h hg) _ _
  · rw [if_neg hf] at hrun
    exact Or.inr ⟨fun hh => hf (hh _), _, _, Proc.bind_err hrun, hw₁.trans (.scratch hw₁.ready) le_rfl le_rfl⟩

/-- The loop of a write, of `n` blocks from `b` on. -/
theorem sfsRwblock_write (buf : Bytes) (n : Nat) : ∀ {s : SfsFs} {d b : Nat}, s.Ready → b ≠ 0 → b + n ≤ s.super.blocks →
    (∃ s', sfsRwblock buf d b true n s = .ok buf s' ∧ Wrote {i | b ≤ i ∧ i < b + n} s s' ∧
      ∀ k r, k < n → r < 4096 → s'.dev.blk (b + k) r = buf (d + 4096 * k + r)) ∨
    ¬ s.Healthy ∧ ∃ e s', sfsRwblock buf d b true n s = .err e s' ∧ Wrote {i | b ≤ i ∧ i < b + n} s s' := by
  induction n with
  | zero =>
    intro s d b h _ _
    exact Or.inl ⟨s, rfl, .refl h, fun k r hk _ => absurd hk (Nat.not_lt_zero k)⟩
  | succ n ih =>
    intro s d b h h0 hle
    have hrun := sfsRwblockNolock_run buf d h (show b < s.super.blocks by omega) true true (Or.inl h0)
    have hfirst : ({b} : Set Nat) ⊆ {i | b ≤ i ∧ i < b + (n + 1)} := by
      rintro i rfl
      exact ⟨Nat.le_refl _, by omega⟩
    have hlater : {i | b + 1 ≤ i ∧ i < b + 1 + n} ⊆ {i | b ≤ i ∧ i < b + (n + 1)} := by
      rintro i ⟨h₁, h₂⟩
      exact ⟨by omega, by omega⟩
    unfold sfsRwblock
    by_cases hf : s.fault 0 = 0
    · rw [if_pos hf, if_pos rfl] at hrun
      rw [Proc.bind_ok hrun]
      have hset : Wrote {b} s (s.setBlk b (memcpy (s.dev.blk b) 0 buf d 4096)) := .setBlk h rfl
      have hw₁ : Wrote {b} s ((s.setBlk b (memcpy (s.dev.blk b) 0 buf d 4096)).scratch 1 s.sfsBuffer) :=
        hset.trans (.scratch hset.ready) le_rfl le_rfl
      have hself : ((s.setBlk b (memcpy (s.dev.blk b) 0 buf d 4096)).scratch 1 s.sfsBuffer).dev.blk b =
          memcpy (s.dev.blk b) 0 buf d 4096 := blk_setBlk_self ..
      generalize (s.setBlk b (memcpy (s.dev.blk b) 0 buf d 4096)).scratch 1 s.sfsBuffer = s₁ at hw₁ hself
      have hroom : b + 1 + n ≤ s₁.super.blocks := by
        rw [hw₁.super]
        omega
      rcases ih (s := s₁) (d := d + sfsBlksize) (b := b + 1) hw₁.ready (by omega) hroom with
        ⟨s', hrun', hw, hdata⟩ | ⟨hsick, e, s', hrun', hw⟩
      · refine Or.inl ⟨s', hrun', hw₁.trans hw hfirst hlater, fun k r hk hr => ?_⟩
        cases k with
        | zero =>
          rw [Nat.add_zero, hw.blk b fun hm => absurd hm.1 (by omega), hself, memcpy_in ⟨Nat.zero_le r, by omega⟩]
          rfl
        | succ k =>
          have hrest := hdata k r (by omega) hr
          have hblk : b + (k + 1) = b + 1 + k := by omega
          have hpos : d + 4096 * (k + 1) + r = d + sfsBlksize + 4096 * k + r := by
            unfold sfsBlksize
            omega
          rw [hblk, hpos]
          exact hrest
      · exact Or.inr ⟨fun hh => hsick (hw₁.static.healthy hh), e, s', hrun', hw₁.trans hw hfirst hlater⟩
    · rw [if_neg hf] at hrun
      exact Or.inr ⟨fun hh => hf (hh _), _, _, Proc.bind_err hrun, .scratch h⟩

theorem sfsFreemapBlocks_eq (super : SfsSuper) : sfsFreemapBlocks super = mapSize super.blocks := by
  unfold sfsFreemapBlocks roundupDiv sfsBlkbits sfsBlksize mapSize
  omega

/-- The blocks of the free map. -/
def mapBlocks (s : SfsFs) : Set Nat := {i | 2 ≤ i ∧ i < 2 + mapSize s.super.blocks}

theorem sfsSyncFreemap_cases (h : s.Ready) (hg : Geometry s) :
    (∃ s', sfsSyncFreemap s = .ok () s' ∧ Wrote (mapBlocks s) s s' ∧
      ∀ i, i < s.freemap.nbits → s.freemap.bit i = diskBit s'.dev.blk i) ∨
    ¬ s.Healthy ∧ ∃ e s', sfsSyncFreemap s = .err e s' ∧ Wrote (mapBlocks s) s s' := by
  unfold sfsSyncFreemap sfsWblock
  rw [Proc.get_bind, sfsFreemapBlocks_eq]
  rcases sfsRwblock_write (bitmapGetdata s.freemap) (mapSize s.super.blocks) (d := 0) (b := sfsBlknFreemap) h (by decide)
    hg.map_le with ⟨s', hrun, hw, hdata⟩ | ⟨hsick, e, s', hrun, hw⟩
  · refine Or.inl ⟨s', Proc.bind_ok hrun, hw, fun i hi => ?_⟩
    rw [hg.nbits] at hi
    have hbyte := hdata (i / 32768) (i % 32768 / 8) (by omega) (by omega)
    have hpos : 0 + 4096 * (i / 32768) + i % 32768 / 8 = i / 8 := by omega
    rw [hpos] at hbyte
    show s.freemap.bit i = (s'.dev.blk (sfsBlknFreemap + i / 32768) (i % 32768 / 8)).toNat.testBit (i % 8)
    rw [hbyte]
    exact (Bitmap.testBit_getdata s.freemap i).symm
  · exact Or.inr ⟨hsick, e, s', Proc.bind_err hrun, hw⟩

/-- **Writing the superblock and the free map**, where `super_dirty` says so; it is cleared only if both have been written. -/
theorem syncBooks_cases (h : s.Ready) (hg : Geometry s) :
    (s.superDirty = false ∧ syncBooks s = .ok () s) ∨
    (∃ s', syncBooks s = .ok () s' ∧ Wrote (books s) { s with superDirty := false } s' ∧ OnDisk s') ∨
    ¬ s.Healthy ∧ ∃ e s', syncBooks s = .err e { s' with superDirty := true } ∧
      Wrote (books s) { s with superDirty := false } s' := by
  have hzero : ({0} : Set Nat) ⊆ books s := by
    rintro b rfl
    exact Or.inl rfl
  have hmap : mapBlocks s ⊆ books s := fun b hb => Or.inr hb
  unfold syncBooks
  rw [Proc.get_bind]
  cases hd : s.superDirty with
  | false => exact Or.inl ⟨rfl, rfl⟩
  | true =>
    right
    have hclear : setSuperDirty false s = .ok () { s with superDirty := false } := rfl
    have hset : ∀ s', setSuperDirty true s' = .ok () { s' with superDirty := true } := fun _ => rfl
    have hready : SfsFs.Ready { s with superDirty := false } :=
      ⟨h.blocks_le, h.small, h.blocks_le_nbits, h.nbits, h.zero, h.pad, h.count⟩
    have hgeo : Geometry { s with superDirty := false } := ⟨hg.magic, hg.info, hg.nbits, hg.map_le⟩
    rw [if_pos rfl, Proc.bind_ok hclear]
    rcases sfsSyncSuper_cases hready hgeo with ⟨s₂, hrun, hw, hload⟩ | ⟨hsick, e, s₂, hrun, hw⟩
    · rw [Proc.bind_ok (Proc.onErr_ok hrun)]
      rcases sfsSyncFreemap_cases hw.ready (hgeo.of_static hw.static) with ⟨s₃, hrun', hw', hbit⟩ | ⟨hsick, e, s₃, hrun', hw'⟩
      · have hmap' : mapBlocks s₂ ⊆ books s := by
          unfold mapBlocks
          rw [hw.super]
          exact hmap
        refine Or.inl ⟨s₃, Proc.onErr_ok hrun', hw.trans hw' hzero hmap', ?_, ?_⟩
        · -- what the superblock says is still there
          have h0 : s₃.dev.blk 0 = s₂.dev.blk 0 := hw'.blk 0 fun hm => absurd hm.1 (by omega)
          rw [h0, hload, hw'.super, hw.super]
          exact info_closed hg.info
        · intro i hi
          rw [hw'.freemap] at hi ⊢
          exact hbit i hi
      · have hmap' : mapBlocks s₂ ⊆ books s := by
          unfold mapBlocks
          rw [hw.super]
          exact hmap
        exact Or.inr ⟨fun hh => hsick (hw.static.healthy hh), e, s₃, Proc.onErr_err hrun' (hset s₃), hw.trans hw' hzero hmap'⟩
    · exact Or.inr ⟨hsick, e, s₂, Proc.bind_err (Proc.onErr_err hrun (hset s₂)), hw.mono hzero⟩

theorem syncBooks_leaves (h : s.Ready) (hg : Geometry s) : (syncBooks s).Leaves (SameBooks s) := by
  have hstatic : ∀ {s'}, Static { s with superDirty := false } s' → Static s s' := fun hs =>
    ⟨hs.blocks, hs.magic, hs.info, hs.dBlocks, hs.ioRet, hs.nbits, hs.nwords⟩
  rcases syncBooks_cases h hg with ⟨-, hrun⟩ | ⟨s', hrun, hw, hdisk⟩ | ⟨-, e, s', hrun, hw⟩
  · rw [hrun]
    exact ⟨kept_refl h, fun _ _ => rfl⟩
  · rw [hrun]
    exact ⟨⟨hw.ready, hstatic hw.static, hw.super, hw.freemap, fun _ _ => hdisk⟩, hw.blk⟩
  · rw [hrun]
    have hr := hw.ready
    have hs := hstatic hw.static
    refine ⟨⟨⟨hr.blocks_le, hr.small, hr.blocks_le_nbits, hr.nbits, hr.zero, hr.pad, hr.count⟩,
      ⟨hs.blocks, hs.magic, hs.info, hs.dBlocks, hs.ioRet, hs.nbits, hs.nwords⟩, hw.super, hw.freemap, ?_⟩, hw.blk⟩
    intro _ hd
    cases hd

end Ucore.Volume
