import Ucore.Fs.Sfs.Correctness.VolumeCalls

/-!
# `Fs.Sfs.Correctness.VolumeRuns` — the runs of a file system

A call changes one file at most, and keeps the volume invariant (`VolCall.step`). So over any run no block comes to belong
to two owners (`volume_blocks`), and a file that no call of the run writes to stays as it is (`volume_files_apart`).
-/

namespace Ucore.Volume

open SfsFs SfsCtx SfsVolume

variable {G : Set Nat} {v v' v'' : SfsVolume} {ino j : Nat} {sin : SfsInode} {c c' : SfsCtx} {R : Set Nat} {s s' : SfsFs}
  {α : Type} {k : Nat} {x : Bytes}

/-! ## Calls on one inode -/

theorem onInode_ok {f : SinM α} {a : α} (hfind : v.find ino = some sin) (h : f ⟨v.fs, sin⟩ = .ok a c') :
    onInode ino f v = .ok a (v.put c') := by
  unfold onInode
  rw [Proc.bind_ok (theInode_run hfind)]
  unfold Proc.within
  rw [h]
  rfl

theorem onInode_err {f : SinM α} {e : Int} (hfind : v.find ino = some sin) (h : f ⟨v.fs, sin⟩ = .err e c') :
    onInode ino f v = .err e (v.put c') := by
  unfold onInode
  rw [Proc.bind_ok (theInode_run hfind)]
  unfold Proc.within
  rw [h]
  rfl

theorem onInode_panic {f : SinM α} {p : SfsPanic} (hfind : v.find ino = some sin) (h : f ⟨v.fs, sin⟩ = .panic p) :
    onInode ino f v = .panic (.sfs p) := by
  unfold onInode
  rw [Proc.bind_ok (theInode_run hfind)]
  unfold Proc.within
  rw [h]

theorem theInode_none (h : v.find ino = none) : theInode ino v = .panic .noInode := by
  unfold theInode
  rw [Proc.get_bind, h]
  rfl

theorem onInode_none {f : SinM α} (h : v.find ino = none) : onInode ino f v = .panic .noInode :=
  Proc.bind_panic (theInode_none h)

/-- What a call on an inode leaves, from what it does to the file. -/
theorem onInode_leaves {f : SinM α} {Q : SfsVolume → Prop} (hfind : v.find ino = some sin)
    (h : (f ⟨v.fs, sin⟩).Leaves fun c' => Q (v.put c')) : (onInode ino f v).Leaves Q := by
  cases hrun : f ⟨v.fs, sin⟩ with
  | ok a c' =>
    rw [onInode_ok hfind hrun]
    exact h.of_ok hrun
  | err e c' =>
    rw [onInode_err hfind hrun]
    exact h.of_err hrun
  | panic p =>
    rw [onInode_panic hfind hrun]
    trivial

theorem VolInv.mem_of_find (h : VolInv G v) (hfind : v.find ino = some sin) : ino ∈ G := by
  obtain ⟨hmem, hino⟩ := find_some hfind
  exact h.loaded ino (hino ▸ List.mem_map_of_mem hmem)

/-- The invariant of the file, as the call sees it. -/
theorem VolInv.fileInv (h : VolInv G v) (hfind : v.find ino = some sin) : FileInv ⟨v.fs, sin⟩ (v.others G ino) :=
  (fileInv_ctx rfl (din_of_find hfind).symm).mp (h.file ino (h.mem_of_find hfind))

/-- Another inode is no staler than before. -/
theorem VolInv.put_fresh (h : VolInv G v) (hfind : v.find ino = some sin) (he : Effect (v.others G ino) ⟨v.fs, sin⟩ c')
    (hj : j ∈ G) (hne : j ≠ ino) (hf : Fresh v j) : Fresh (v.put c') j := by
  intro old hold hd
  rw [VolInv.put_find_ne hfind he.ino hne] at hold
  have hsin : sin.ino = ino := (find_some hfind).2
  have hblk := he.others j (Or.inr (Or.inl hj)) (by rwa [hsin]) (h.inode_inUse hj)
  rw [show (v.put c').fs.dev.blk j = v.fs.dev.blk j from hblk]
  exact hf old hold hd

/-- A call on an inode that changes nothing of the file. -/
theorem VolInv.put_still (h : VolInv G v) (hfind : v.find ino = some sin) (he : Effect (v.others G ino) ⟨v.fs, sin⟩ c')
    (hdin : c'.sin.din = sin.din) (hblk : ∀ b ∈ SfsCtx.owned ⟨v.fs, sin⟩, c'.fs.dev.blk b = v.fs.dev.blk b)
    (hfresh : Fresh v ino → Fresh (v.put c') ino) (hkept : KeptFs v.fs c'.fs) : Still G v (v.put c') := by
  have hino := h.mem_of_find hfind
  refine ⟨h.put hino hfind he, ?_, ?_, hkept⟩
  · intro j hj
    by_cases hne : j = ino
    · subst hne
      apply SameFile.of_blk
      · rw [VolInv.put_din hfind he.ino, din_of_find hfind, hdin]
      · rw [owned_ctx (c := ⟨v.fs, sin⟩) rfl (din_of_find hfind).symm]
        exact hblk
    · exact h.put_same hino hfind he hj hne
  · intro j hj hf
    by_cases hne : j = ino
    · subst hne
      exact hfresh hf
    · exact h.put_fresh hfind he hj hne hf

theorem FileStep.effect (h : FileStep R c c')
    (hdir : c.sin.din.type = sfsTypeDir → c'.sin.din = c.sin.din ∧ ∀ b ∈ c.owned, c'.fs.dev.blk b = c.fs.dev.blk b) :
    Effect R c c' := ⟨h.inv, h.static, fun b hb _ => h.others b hb, h.ino, h.type, h.nlinks, h.size, hdir⟩

theorem VolInv.looked (h : VolInv G v) (hfind : v.find ino = some sin) (hl : Looked ⟨v.fs, sin⟩ c') :
    Still G v (v.put c') := by
  have hstep := FileStep.looked (h.fileInv hfind) hl
  obtain ⟨k, x, rfl⟩ := hl
  have he : Effect (v.others G ino) ⟨v.fs, sin⟩ (SfsCtx.scratch ⟨v.fs, sin⟩ k x) :=
    FileStep.effect hstep fun _ => ⟨rfl, fun _ _ => rfl⟩
  apply h.put_still hfind he rfl (fun _ _ => rfl)
  · intro hf old hold hd
    rw [VolInv.put_find_self hfind rfl] at hold
    cases hold
    exact hf sin hfind hd
  · exact kept_scratch h.ready k x

theorem sfsGetdirentry_quiet (node : Nat) (entry : Option Bytes) (iob : Iobuf) :
    Keeps (Quiet G) (onInode node (sfsGetdirentry entry iob)) := by
  apply quiet_of
  intro v hv
  cases hfind : v.find node with
  | none =>
    rw [onInode_none hfind]
    trivial
  | some sin =>
    apply onInode_leaves hfind
    apply (sfsGetdirentry_keeps entry iob ⟨v.fs, sin⟩).imp
    intro c' hread
    exact hv.looked hfind (hread (hv.fileInv hfind))

/-- **Looking a name up** brings an inode of the volume into memory. -/
theorem sfsLookupOnce_quiet (dir : Nat) (name : List UInt8) (entry : Option Bytes) (kmalloc : Nat → Bool) :
    Keeps (Quiet G) (sfsLookupOnce dir name entry kmalloc) := by
  apply quiet_of
  intro v hv
  unfold sfsLookupOnce
  cases hfind : v.find dir with
  | none =>
    rw [Proc.bind_panic (onInode_none hfind)]
    trivial
  | some sin =>
    have hpost := sfsDirentSearchNolock_post name entry (hv.fileInv hfind)
    cases hrun : sfsDirentSearchNolock name entry ⟨v.fs, sin⟩ with
    | panic p =>
      rw [Proc.bind_panic (onInode_panic hfind hrun)]
      trivial
    | err e c' =>
      rw [Proc.bind_err (onInode_err hfind hrun)]
      exact hv.looked hfind (hpost.of_err hrun)
    | ok r c' =>
      obtain ⟨hl, hslot⟩ := hpost.of_ok hrun
      have hstill := hv.looked hfind hl
      rw [Proc.bind_ok (onInode_ok hfind hrun)]
      cases hr : r.ino with
      | none => exact hstill
      | some ino =>
        -- the number comes from an entry, and entries name files of the volume
        have hino : ino ∈ G := by
          obtain ⟨htype, hne, k, hk, he⟩ := hslot ino hr
          have hdin := din_of_find hfind
          have hentry : v.entry dir k = direntIno ⟨v.fs, sin⟩ k := by
            unfold SfsVolume.entry direntIno
            have hlook : (v.ctx dir).lookup k = SfsCtx.lookup ⟨v.fs, sin⟩ k := by
              apply lookup_congr
              · exact congrArg SfsDiskInode.direct hdin
              · exact congrArg SfsDiskInode.indirect hdin
              · exact fun _ => rfl
            rw [hlook]
          rcases hv.dir dir (hv.mem_of_find hfind) (by rw [hdin]; exact htype) k (by rw [hdin]; exact hk) with h0 | hG
          · rw [hentry, he] at h0
            exact absurd h0 hne
          · rwa [hentry, he] at hG
        apply (sfsLoadInode_quiet kmalloc hino (v.put c')).imp
        intro v' h'
        exact hstill.trans (h' hstill.inv)

/-! ## Writing an inode back -/

/-- A file is not touched when its inode goes to its block. -/
theorem synced_effect (h : FileInv c R) (hmem : c.sin.ino ∈ R) (k : Nat) (x : Bytes) :
    Effect R c (c.synced.scratch k x) ∧ ∀ b ∈ c.owned, (c.synced.scratch k x).fs.dev.blk b = c.fs.dev.blk b := by
  have hblk : ∀ b ∈ c.owned, (c.synced.scratch k x).fs.dev.blk b = c.fs.dev.blk b := by
    rintro b ⟨hne, t, rfl⟩
    exact blk_setBlk_of_ne _ _ fun he => h.apart t hne (he ▸ hmem)
  have hinv : FileInv c.synced R := (h.setOther hmem).of_din rfl rfl
  refine ⟨⟨hinv.scratch, ⟨rfl, rfl, rfl, rfl, rfl, rfl, rfl⟩, ?_, rfl, rfl, rfl, Nat.le_max_left .., fun _ => ⟨rfl, hblk⟩⟩, hblk⟩
  intro b _ hne _
  exact blk_setBlk_of_ne _ _ hne

theorem load_synced (h : c.sin.din.Fits) : SfsDiskInode.load (c.synced.fs.dev.blk c.sin.ino) = c.sin.din := by
  unfold SfsCtx.synced
  rw [blk_setBlk_self]
  have hload : SfsDiskInode.load (memcpy (c.fs.dev.blk c.sin.ino) 0 (c.sin.din.store fun _ => 0) 0 sfsDiskInodeSize) =
      SfsDiskInode.load (c.sin.din.store fun _ => 0) := by
    apply SfsDiskInode.load_congr
    intro i hi
    rw [memcpy_in ⟨Nat.zero_le i, by unfold sfsDiskInodeSize; omega⟩, Nat.zero_add, Nat.sub_zero]
  rw [hload]
  exact SfsDiskInode.load_store h _

/-- `sfs_fsync` on an inode in memory: it fails only because of the device, and leaves the inode clean otherwise. -/
theorem onInode_fsync_cases (h : VolInv G v) (hfind : v.find ino = some sin) :
    (∃ v' sin', onInode ino sfsFsync v = .ok () v' ∧ Still G v v' ∧ v'.find ino = some sin' ∧ sin'.dirty = false ∧
      sin'.din = sin.din ∧ ∀ j, j ≠ ino → v'.find j = v.find j) ∨
    ¬ v.fs.Healthy ∧ ∃ e v', onInode ino sfsFsync v = .err e v' ∧ Still G v v' := by
  have hino := h.mem_of_find hfind
  have hsin := (find_some hfind).2
  have hinv : SfsCtx.FileInv ⟨v.fs, sin⟩ (v.others G ino) := h.fileInv hfind
  have hmem : sin.ino ∈ v.others G ino := Or.inr (Or.inl (hsin ▸ hino))
  have huse : v.fs.InUse sin.ino := hsin ▸ h.inode_inUse hino
  rcases sfsFsync_cases (c := ⟨v.fs, sin⟩) h.ready huse with ⟨hd, hrun⟩ | ⟨hd, k, x, hrun | ⟨e, -, hsick, hrun⟩⟩
  · have hl : Looked ⟨v.fs, sin⟩ ⟨v.fs, sin⟩ := .refl _
    refine Or.inl ⟨_, sin, onInode_ok hfind hrun, h.looked hfind hl, VolInv.put_find_self hfind rfl, hd, rfl, ?_⟩
    intro j hne
    exact VolInv.put_find_ne hfind rfl hne
  · obtain ⟨he, hblk⟩ := synced_effect hinv hmem k x
    have hself := VolInv.put_find_self hfind he.ino
    refine Or.inl ⟨_, _, onInode_ok hfind hrun, h.put_still hfind he rfl hblk ?_ ?_, hself, rfl, rfl, ?_⟩
    · intro _ old hold _
      rw [hself] at hold
      cases hold
      have hfits := h.fits ino hino
      rw [din_of_find hfind] at hfits
      rw [← hsin]
      exact load_synced (c := ⟨v.fs, sin⟩) hfits
    · have hb : sin.ino ∉ books v.fs := hsin ▸ h.inode ino hino
      have hset := kept_setBlk (x := memcpy (v.fs.dev.blk sin.ino) 0 (sin.din.store fun _ => 0) 0 sfsDiskInodeSize) h.ready
        h.geometry hb
      exact hset.trans (kept_scratch hset.ready k x)
    · intro j hne
      exact VolInv.put_find_ne hfind he.ino hne
  · exact Or.inr ⟨hsick, e, _, onInode_err hfind hrun, h.looked hfind ⟨k, x, rfl⟩⟩

theorem sfsFsync_quiet (ino : Nat) : Keeps (Quiet G) (onInode ino sfsFsync) := by
  apply quiet_of
  intro v hv
  cases hfind : v.find ino with
  | none =>
    rw [onInode_none hfind]
    trivial
  | some sin =>
    rcases onInode_fsync_cases hv hfind with ⟨v', sin', hrun, hstill, -⟩ | ⟨-, e, v', hrun, hstill⟩
    · rw [hrun]
      exact hstill
    · rw [hrun]
      exact hstill

theorem syncInodes_quiet (inos : List Nat) : Keeps (Quiet G) (syncInodes inos) := by
  induction inos with
  | nil => exact .of_pure ()
  | cons ino inos ih =>
    apply ((sfsFsync_quiet ino).attempt).bind
    intro _
    exact ih

theorem sfsSync_quiet : Keeps (Quiet G) sfsSync := by
  apply Keeps.of_get.bind
  intro v
  apply (syncInodes_quiet _).bind
  intro _
  exact onBlocks_quiet fun s => syncBooks_leaves

/-! ## Dropping an inode -/

/-- An inode that is on the disk as it is in memory leaves the memory. -/
theorem VolInv.removeLinks (h : VolInv G v) (hfind : v.find ino = some sin)
    (hdisk : SfsDiskInode.load (v.fs.dev.blk ino) = sin.din) :
    Still G v { v with inodes := v.inodes.filter fun old => old.ino ≠ ino } := by
  generalize hv' : SfsVolume.mk v.fs (v.inodes.filter fun old => old.ino ≠ ino) = v'
  have hfs : v'.fs = v.fs := by
    rw [← hv']
  have hself : v'.find ino = none := by
    rw [← hv']
    simp [SfsVolume.find, List.find?_eq_none]
  have hother : ∀ j, j ≠ ino → v'.find j = v.find j := by
    intro j hj
    rw [← hv']
    unfold SfsVolume.find
    rw [List.find?_filter]
    congr 1
    funext old
    by_cases he : old.ino = j
    · simp [he, hj]
    · simp [he]
  have hinos : (v'.inodes.map SfsInode.ino).Sublist (v.inodes.map SfsInode.ino) := by
    rw [← hv']
    exact List.filter_sublist.map _
  have hsame : SameBooks v.fs v'.fs := by
    rw [hfs]
    exact ⟨kept_refl h.ready, fun _ _ => rfl⟩
  apply h.still hsame
  · intro i _
    unfold SfsVolume.din
    by_cases hi : i = ino
    · subst hi
      rw [hself, hfind, hfs]
      exact hdisk
    · rw [hother i hi, hfs]
  · intro i hi
    exact h.loaded i (hinos.subset hi)
  · exact hinos.nodup h.nodup
  · intro j _ hf old hold hd
    by_cases hj : j = ino
    · subst hj
      rw [hself] at hold
      cases hold
    · rw [hother j hj] at hold
      rw [hfs]
      exact hf old hold hd

theorem modifyInode_run (f : SfsInode → SfsInode) (hfind : v.find ino = some sin) :
    modifyInode ino f v = .ok () (v.store (f sin)) := Proc.bind_ok (theInode_run hfind)

/-- A file with links is not cut off; what is left to do is writing back. -/
theorem reclaimSync_post (h : VolInv G v) (hfind : v.find ino = some sin) (hf : Fresh v ino) :
    (reclaimSync ino v).Post
      (fun _ v' => Still G v v' ∧ ∃ sin', v'.find ino = some sin' ∧ sin'.din = sin.din ∧
        SfsDiskInode.load (v'.fs.dev.blk ino) = sin'.din)
      (fun _ v' => Still G v v') := by
  have hlinks : sin.din.nlinks ≠ 0 := by
    have := h.nlinks ino (h.mem_of_find hfind)
    rwa [din_of_find hfind] at this
  unfold reclaimSync
  rw [Proc.bind_ok (theInode_run hfind), if_neg hlinks]
  change Outcome.Post _ _ ((theInode ino >>= fun sin => if sin.dirty = true then onInode ino sfsFsync else pure ()) v)
  rw [Proc.bind_ok (theInode_run hfind)]
  split
  · rcases onInode_fsync_cases h hfind with ⟨v', sin', hrun, hstill, hfind', hd, hdin, -⟩ | ⟨-, e, v', hrun, hstill⟩
    · rw [hrun]
      exact ⟨hstill, sin', hfind', hdin, hstill.fresh ino (h.mem_of_find hfind) hf sin' hfind' hd⟩
    · rw [hrun]
      exact hstill
  · next hd => exact ⟨.refl h, sin, hfind, rfl, hf sin hfind (Bool.eq_false_iff.mpr hd)⟩

/-- **Dropping an inode** that is not stale. -/
theorem sfsReclaim_leaves (h : VolInv G v) (hf : Fresh v ino) : (sfsReclaim ino v).Leaves (Still G v) := by
  unfold sfsReclaim
  cases hfind : v.find ino with
  | none =>
    rw [Proc.bind_panic (theInode_none hfind)]
    trivial
  | some sin =>
    rw [Proc.bind_ok (theInode_run hfind)]
    by_cases hcount : 0 < sin.reclaimCount
    · rw [Proc.check_bind_pos hcount, Proc.bind_ok (modifyInode_run _ hfind)]
      have hino := (find_some hfind).2
      have hstore : Still G v (v.store { sin with reclaimCount := sin.reclaimCount - 1 }) := h.store hfind rfl rfl rfl
      have hfind₁ : (v.store { sin with reclaimCount := sin.reclaimCount - 1 }).find ino =
          some { sin with reclaimCount := sin.reclaimCount - 1 } := by
        rw [find_store, hfind]
        simp [hino]
      generalize v.store { sin with reclaimCount := sin.reclaimCount - 1 } = v₁ at hstore hfind₁
      split
      · exact hstore
      · have hpost := reclaimSync_post hstore.inv hfind₁ (hstore.fresh ino (h.mem_of_find hfind) hf)
        cases hrun : reclaimSync ino v₁ with
        | panic p =>
          rw [Proc.bind_panic hrun]
          trivial
        | err e v₂ =>
          rw [Proc.bind_err hrun]
          exact hstore.trans (hpost.of_err hrun)
        | ok a v₂ =>
          obtain ⟨hstill, sin', hfind₂, hdin, hdisk⟩ := hpost.of_ok hrun
          have hlinks : sin'.din.nlinks ≠ 0 := by
            have := hstill.inv.nlinks ino (hstill.inv.mem_of_find hfind₂)
            rwa [din_of_find hfind₂] at this
          rw [Proc.bind_ok hrun, Proc.bind_ok (theInode_run hfind₂)]
          unfold sfsRemoveLinks reclaimBlocks
          rw [Proc.modify_bind, if_neg hlinks]
          exact (hstore.trans hstill).trans (hstill.inv.removeLinks hfind₂ hdisk)
    · rw [Proc.check_bind_neg hcount]
      trivial

theorem inodeRefDec_leaves (h : VolInv G v) (hf : Fresh v ino) : (inodeRefDec ino v).Leaves (Still G v) := by
  unfold inodeRefDec
  cases hfind : v.find ino with
  | none =>
    rw [Proc.bind_panic (theInode_none hfind)]
    trivial
  | some sin =>
    rw [Proc.bind_ok (theInode_run hfind)]
    by_cases hcount : 0 < sin.refCount
    · rw [Proc.check_bind_pos hcount, Proc.bind_ok (modifyInode_run _ hfind)]
      have hstore : Still G v (v.store { sin with refCount := sin.refCount - 1 }) := h.store hfind rfl rfl rfl
      split
      · -- whatever comes of dropping it, the count goes back to the caller
        have hdrop := sfsReclaim_leaves hstore.inv (hstore.fresh ino (h.mem_of_find hfind) hf)
        apply Outcome.Leaves.bind (Q := Still G v)
        · unfold Proc.attempt
          cases hrun : sfsReclaim ino (v.store { sin with refCount := sin.refCount - 1 }) with
          | ok a v' => exact hstore.trans (hdrop.of_ok hrun)
          | err e v' => exact hstore.trans (hdrop.of_err hrun)
          | panic p => trivial
        · intro _ v' hv'
          exact hv'
      · exact hstore
    · rw [Proc.check_bind_neg hcount]
      trivial

theorem sfsLookup_leaves (path : List UInt8) (entry : Option Bytes) (kmalloc : Nat → Bool) (h : VolInv G v)
    (hf : ∀ v', Still G v v' → Fresh v' ino) : (sfsLookup ino path entry kmalloc v).Leaves (Still G v) := by
  have hdec : ∀ v', Still G v v' → (inodeRefDec ino v').Leaves (Still G v) := by
    intro v' hv'
    apply (inodeRefDec_leaves hv'.inv (hf v' hv')).imp
    intro v'' hv''
    exact hv'.trans hv''
  have hquiet : ∀ {β : Type} {f : VolM β}, Keeps (Quiet G) f → ∀ v', Still G v v' → (f v').Leaves (Still G v) := by
    intro β f hkeep v' hv'
    apply (hkeep v').imp
    intro v'' hv''
    exact hv'.trans (hv'' hv'.inv)
  unfold sfsLookup
  apply Outcome.Leaves.bind (Q := Still G v)
  · exact hquiet (Keeps.of_check _ _) v (.refl h)
  intro _ v₁ h₁
  apply Outcome.Leaves.bind (hquiet (inodeRefInc_quiet ino) v₁ h₁)
  intro _ v₂ h₂
  apply Outcome.Leaves.bind (hquiet (theInode_quiet ino) v₂ h₂)
  intro sin v₃ h₃
  split
  · apply Outcome.Leaves.bind (hdec v₃ h₃)
    intro _ v₄ h₄
    exact h₄
  · apply Outcome.Leaves.bind (hquiet (sfsLookupOnce_quiet ino path entry kmalloc).attempt v₃ h₃)
    intro r v₄ h₄
    apply Outcome.Leaves.bind (hdec v₄ h₄)
    intro _ v₅ h₅
    cases r with
    | error ret => exact h₅
    | ok subnode => exact h₅

theorem sfsGetRoot_leaves (kmalloc : Nat → Bool) (h : VolInv G v) : (sfsGetRoot kmalloc v).Leaves (Still G v) := by
  have hkeep : Keeps (Quiet G) (sfsGetRoot kmalloc) := by
    apply (sfsLoadInode_quiet kmalloc h.root).attempt.bind
    intro r
    cases r with
    | error ret => exact .of_stop _
    | ok node => exact .of_pure node
  apply (hkeep v).imp
  intro v' hv'
  exact hv' h

/-! ## One call -/

/-- The inode that the call may drop is not stale. -/
def VolCall.DropsFresh (v : SfsVolume) : VolCall → Prop
  | .refDec node => Fresh v node
  | _            => True

/-- The invariant of runs: no directory is ever stale. -/
structure VolSound (G : Set Nat) (v : SfsVolume) : Prop where
  inv : VolInv G v
  fresh : ∀ d ∈ G, (v.din d).type = sfsTypeDir → Fresh v d

theorem VolSound.still (h : VolSound G v) (hs : Still G v v') : VolSound G v' := by
  refine ⟨hs.inv, ?_⟩
  intro d hd htype
  rw [(hs.file d hd).din] at htype
  exact hs.fresh d hd (h.fresh d hd htype)

theorem held_leaves {Q : SfsVolume → Prop} {f : SfsInode → VolM α}
    (h : ∀ sin, v.find ino = some sin → (f sin v).Leaves Q) : ((held ino >>= f) v).Leaves Q := by
  cases hfind : v.find ino with
  | none =>
    have hrun : held ino v = .panic .noInode := by
      unfold held
      exact Proc.bind_panic (theInode_none hfind)
    rw [Proc.bind_panic hrun]
    trivial
  | some sin =>
    by_cases hcount : 0 < sin.refCount
    · have hrun : held ino v = .ok sin v := by
        unfold held
        rw [Proc.bind_ok (theInode_run hfind), Proc.check_bind_pos hcount]
        rfl
      rw [Proc.bind_ok hrun]
      exact h sin hfind
    · have hrun : held ino v = .panic .noInode := by
        unfold held
        rw [Proc.bind_ok (theInode_run hfind), Proc.check_bind_neg hcount]
      rw [Proc.bind_panic hrun]
      trivial

theorem vop_leaves {Q : SfsVolume → Prop} {type : Nat} {f : VolM α}
    (h : ∀ sin, v.find ino = some sin → sin.din.type = type → (f v).Leaves Q) : (vop type ino f v).Leaves Q := by
  apply held_leaves
  intro sin hfind
  by_cases htype : sin.din.type = type
  · rw [Proc.check_bind_pos htype]
    exact h sin hfind htype
  · rw [Proc.check_bind_neg htype]
    trivial

namespace VolCall

theorem leaves_of_step {call : VolCall} {Q : SfsVolume → Prop} (h : (call.run v).Leaves Q) (hs : call.Step v v') : Q v' := by
  rcases hs.2 with hrun | ⟨e, hrun⟩
  · exact h.of_ok hrun
  · exact h.of_err hrun

/-- A call for its effect. -/
theorem leaves_unit {Q : SfsVolume → Prop} {f : VolM α} (h : (f v).Leaves Q) :
    ((do let _ ← f : VolM Unit) v).Leaves Q := by
  apply h.bind
  intro _ v' hv'
  exact hv'

/-- **The two kinds of calls**: no file changes, or an operation is carried out on one that is in memory. -/
theorem step_cases {call : VolCall} (h : VolSound G v) (hok : call.DropsFresh v) (hs : call.Step v v') :
    (call.target = none ∧ Still G v v') ∨
      ∃ node op sin c', call = .file node op ∧ v.find node = some sin ∧ sin.din.type = sfsTypeFile ∧ op.Own ∧
        op.Step ⟨v.fs, sin⟩ c' ∧ v' = v.put c' := by
  have hinv := h.inv
  cases call with
  | getRoot kmalloc =>
    have hleaves : (run (.getRoot kmalloc) v).Leaves (Still G v) := leaves_unit (sfsGetRoot_leaves kmalloc hinv)
    exact Or.inl ⟨rfl, leaves_of_step hleaves hs⟩
  | lookup node path entry kmalloc =>
    refine Or.inl ⟨rfl, leaves_of_step (vop_leaves ?_) hs⟩
    intro sin hfind htype
    apply leaves_unit
    apply sfsLookup_leaves path entry kmalloc hinv
    intro v₁ h₁
    -- a directory does not become stale while it is looked into
    have hnode := hinv.mem_of_find hfind
    rw [← din_of_find hfind] at htype
    exact h₁.fresh node hnode (h.fresh node hnode htype)
  | getdirentry node entry iob =>
    refine Or.inl ⟨rfl, leaves_of_step (vop_leaves ?_) hs⟩
    intro sin _ _
    apply leaves_unit
    apply (sfsGetdirentry_quiet node entry iob v).imp
    intro v₁ h₁
    exact h₁ hinv
  | file node op =>
    refine Or.inr ?_
    have hown : op.Own ∧ ∀ c, op.Given c := by
      have hgiven := hs.1
      cases op with
      | read buf offset len => exact ⟨trivial, fun _ => hgiven⟩
      | write buf offset len => exact ⟨trivial, fun _ => hgiven⟩
      | tryseek pos => exact ⟨trivial, fun _ => trivial⟩
      | truncfile len => exact ⟨trivial, fun _ => trivial⟩
      | other s => exact hgiven.elim
    have hleaves : (run (.file node op) v).Leaves fun v' => ∃ sin c', v.find node = some sin ∧
        sin.din.type = sfsTypeFile ∧ op.Step ⟨v.fs, sin⟩ c' ∧ v' = v.put c' := by
      apply vop_leaves
      intro sin hfind htype
      apply onInode_leaves hfind
      cases hrun : op.run ⟨v.fs, sin⟩ with
      | ok a c' => exact ⟨sin, c', hfind, htype, ⟨hown.2 _, Or.inl hrun⟩, rfl⟩
      | err e c' => exact ⟨sin, c', hfind, htype, ⟨hown.2 _, Or.inr ⟨e, hrun⟩⟩, rfl⟩
      | panic p => trivial
    obtain ⟨sin, c', hfind, htype, hstep, hput⟩ := leaves_of_step hleaves hs
    exact ⟨node, op, sin, c', rfl, hfind, htype, hown.1, hstep, hput⟩
  | fsync node =>
    refine Or.inl ⟨rfl, leaves_of_step (held_leaves ?_) hs⟩
    intro sin _
    apply (sfsFsync_quiet node v).imp
    intro v₁ h₁
    exact h₁ hinv
  | refInc node =>
    refine Or.inl ⟨rfl, leaves_of_step (held_leaves ?_) hs⟩
    intro sin _
    apply leaves_unit
    apply (inodeRefInc_quiet node v).imp
    intro v₁ h₁
    exact h₁ hinv
  | refDec node =>
    have hleaves : (run (.refDec node) v).Leaves (Still G v) := leaves_unit (inodeRefDec_leaves hinv hok)
    exact Or.inl ⟨rfl, leaves_of_step hleaves hs⟩
  | sync =>
    refine Or.inl ⟨rfl, leaves_of_step (Q := Still G v) ?_ hs⟩
    apply (sfsSync_quiet v).imp
    intro v₁ h₁
    exact h₁ hinv

end VolCall

theorem type_ne_dir (h : sin.din.type = sfsTypeFile) : sin.din.type ≠ sfsTypeDir := by
  rw [h]
  decide

/-- What an operation does to the volume. -/
theorem VolInv.file_effect {op : FileOp} (h : VolInv G v) (hfind : v.find ino = some sin) (htype : sin.din.type = sfsTypeFile)
    (hown : op.Own) (hs : op.Step ⟨v.fs, sin⟩ c') :
    FileStep (v.others G ino) ⟨v.fs, sin⟩ c' ∧ Effect (v.others G ino) ⟨v.fs, sin⟩ c' := by
  have hne : sin.din.type ≠ sfsTypeDir := type_ne_dir htype
  have hstep := FileOp.fileStep (h.fileInv hfind) hne hown hs
  exact ⟨hstep, FileStep.effect hstep fun hdir => absurd hdir hne⟩

/-- **A call** keeps the volume sound, and leaves every file as it is but the one it is about. -/
theorem VolCall.step {call : VolCall} (h : VolSound G v) (hok : call.DropsFresh v) (hs : call.Step v v') :
    VolSound G v' ∧ ∀ j ∈ G, call.target ≠ some j → SameFile v v' j := by
  rcases VolCall.step_cases h hok hs with ⟨-, hstill⟩ | ⟨node, op, sin, c', rfl, hfind, htype, hown, hstep, rfl⟩
  · exact ⟨h.still hstill, fun j hj _ => hstill.file j hj⟩
  · obtain ⟨-, he⟩ := h.inv.file_effect hfind htype hown hstep
    have hnode := h.inv.mem_of_find hfind
    have hsame : ∀ j ∈ G, j ≠ node → SameFile v (v.put c') j := fun j hj hne => h.inv.put_same hnode hfind he hj hne
    refine ⟨⟨h.inv.put hnode hfind he, ?_⟩, ?_⟩
    · intro d hd hdir
      have hne : d ≠ node := by
        rintro rfl
        rw [VolInv.put_din hfind he.ino, he.type] at hdir
        exact type_ne_dir htype hdir
      rw [(hsame d hd hne).din] at hdir
      exact h.inv.put_fresh hfind he hd hne (h.fresh d hd hdir)
    · intro j hj hne
      exact hsame j hj fun he => hne (he ▸ rfl)

/-! ## Whom the blocks belong to -/

/-- What a block can belong to. -/
inductive Owner where
  | volume              -- the superblock and the free map
  | inode (ino : Nat)   -- the inode block of a file
  | file (ino : Nat)    -- the block map of a file, and its data

/-- The owner is of the volume or of one of the files `G`. -/
def Owner.Of (G : Set Nat) : Owner → Prop
  | .volume    => True
  | .inode ino => ino ∈ G
  | .file ino  => ino ∈ G

/-- The blocks of an owner. -/
def SfsVolume.owns (v : SfsVolume) : Owner → Set Nat
  | .volume    => books v.fs
  | .inode ino => {ino}
  | .file ino  => (v.ctx ino).owned

/-- **The ledger of the blocks.** A block has one owner and one place there, and is in use; and the free blocks are
counted. -/
structure Ledger (G : Set Nat) (v : SfsVolume) : Prop where
  single : ∀ o o' : Owner, o.Of G → o'.Of G → ∀ b ∈ v.owns o, b ∈ v.owns o' → o = o'
  once : ∀ ino ∈ G, ∀ t u, (v.ctx ino).slot t = (v.ctx ino).slot u → (v.ctx ino).slot t ≠ 0 → t = u
  inUse : ∀ o : Owner, o.Of G → ∀ b ∈ v.owns o, b = 0 ∨ v.fs.InUse b
  count : v.fs.super.unusedBlocks = v.fs.freemap.setBits

/-- Every block in use has an owner. -/
def NoneLost (G : Set Nat) (v : SfsVolume) : Prop := ∀ b, v.fs.InUse b → ∃ o : Owner, o.Of G ∧ b ∈ v.owns o

theorem VolInv.ledger (h : VolInv G v) : Ledger G v := by
  have hreserved := (h.file sfsBlknRoot h.root).reserved
  refine ⟨?_, fun ino hino => (h.file ino hino).inj, ?_, h.ready.count⟩
  · intro o o' ho ho' b hb hb'
    cases o with
    | volume =>
      cases o' with
      | volume => rfl
      | inode i =>
        obtain rfl : b = i := hb'
        exact absurd hb (h.inode b ho')
      | file i => exact absurd hb (h.owned_not_books ho' hb')
    | inode i =>
      obtain rfl : b = i := hb
      cases o' with
      | volume => exact absurd hb' (h.inode b ho)
      | inode j =>
        obtain rfl : b = j := hb'
        rfl
      | file j => exact absurd ho (h.owned_not_inode ho' hb')
    | file i =>
      cases o' with
      | volume => exact absurd hb' (h.owned_not_books ho hb)
      | inode j =>
        obtain rfl : b = j := hb'
        exact absurd ho' (h.owned_not_inode ho hb)
      | file j =>
        by_cases hij : j = i
        · rw [hij]
        · exact absurd (Or.inr (Or.inr ⟨j, ho', hij, hb'⟩)) (h.owned_apart ho hb)
  · intro o ho b hb
    cases o with
    | volume => exact hreserved b (Or.inl hb)
    | inode i => exact hreserved b (Or.inr (Or.inl (Set.mem_singleton_iff.mp hb ▸ ho)))
    | file i => exact Or.inr (h.owned_inUse ho hb)

/-- The owners, as the file `ino` sees them. -/
theorem owner_cases (ino : Nat) {b : Nat} : (∃ o : Owner, o.Of G ∧ b ∈ v.owns o) ↔
    b ∈ v.others G ino ∨ ∃ o : Owner, o = .file ino ∧ o.Of G ∧ b ∈ v.owns o := by
  constructor
  · rintro ⟨o, ho, hb⟩
    cases o with
    | volume => exact Or.inl (Or.inl hb)
    | inode i => exact Or.inl (Or.inr (Or.inl (Set.mem_singleton_iff.mp hb ▸ ho)))
    | file i =>
      by_cases hi : i = ino
      · exact Or.inr ⟨.file i, by rw [hi], ho, hb⟩
      · exact Or.inl (Or.inr (Or.inr ⟨i, ho, hi, hb⟩))
  · rintro ((hb | hb | ⟨i, hi, -, hb⟩) | ⟨o, -, ho, hb⟩)
    · exact ⟨.volume, trivial, hb⟩
    · exact ⟨.inode b, hb, rfl⟩
    · exact ⟨.file i, hi, hb⟩
    · exact ⟨o, ho, hb⟩

theorem NoneLost.still (hn : NoneLost G v) (hs : Still G v v') : NoneLost G v' := by
  intro b hu
  have hsuper := hs.fs.super
  have hu' : v.fs.InUse b := by
    refine ⟨hu.ne, ?_, ?_⟩
    · rw [← hsuper]
      exact hu.lt
    · rw [← hs.fs.freemap]
      exact hu.bit
  obtain ⟨o, ho, hb⟩ := hn b hu'
  refine ⟨o, ho, ?_⟩
  cases o with
  | volume =>
    have hbooks : books v'.fs = books v.fs := books_congr (by rw [hsuper])
    show b ∈ books v'.fs
    rw [hbooks]
    exact hb
  | inode i => exact hb
  | file i =>
    show b ∈ (v'.ctx i).owned
    rw [(hs.file i ho).owned]
    exact hb

/-- A call on a file whose device works. -/
theorem NoneLost.put (h : VolInv G v) (hfind : v.find ino = some sin) (hstep : FileStep (v.others G ino) ⟨v.fs, sin⟩ c')
    (he : Effect (v.others G ino) ⟨v.fs, sin⟩ c') (hh : v.fs.Healthy) (hn : NoneLost G v) : NoneLost G (v.put c') := by
  have hino := h.mem_of_find hfind
  have hothers := h.put_others hino hfind he
  have hown := owned_ctx (c := ⟨v.fs, sin⟩) rfl (din_of_find hfind).symm
  have hcomplete : Complete ⟨v.fs, sin⟩ (v.others G ino) := by
    intro b hu
    rcases (owner_cases ino).mp (hn b hu) with hb | ⟨o, rfl, -, hb⟩
    · exact Or.inl hb
    · have hb' : b ∈ (v.ctx ino).owned := hb
      rw [hown] at hb'
      obtain ⟨-, t, ht⟩ := hb'
      exact Or.inr ⟨t, ht⟩
  intro b hu
  apply (owner_cases ino).mpr
  rw [hothers]
  rcases hstep.complete hh hcomplete b hu with hb | ⟨t, ht⟩
  · exact Or.inl hb
  · refine Or.inr ⟨.file ino, rfl, hino, ?_⟩
    show b ∈ ((v.put c').ctx ino).owned
    rw [VolInv.put_owned hfind he.ino]
    exact ⟨hu.ne, t, ht⟩

/-! ## Whole runs -/

/-- **No block has two owners.** Whatever calls are made, and whichever of them run out of blocks or of memory or fail with
the device, the blocks of the volume, of each inode and of each file stay apart and in use; and on a device that works no
block in use is without an owner. -/
theorem volume_blocks {v₀ : SfsVolume} (h₀ : VolSound G v₀)
    (h : Reaches (fun s => s = v₀) VolCall.Step (fun v call => call.DropsFresh v) v) :
    Ledger G v ∧ (v₀.fs.Healthy → NoneLost G v₀ → NoneLost G v) := by
  suffices hall : VolSound G v ∧ Static v₀.fs v.fs ∧ (v₀.fs.Healthy → NoneLost G v₀ → NoneLost G v) from
    ⟨hall.1.inv.ledger, hall.2.2⟩
  apply h.invariant
  · rintro s rfl
    exact ⟨h₀, .refl _, fun _ hn => hn⟩
  · rintro v call v' ⟨hv, hstatic, hlost⟩ hok hs
    refine ⟨(VolCall.step hv hok hs).1, ?_, ?_⟩
    · rcases VolCall.step_cases hv hok hs with ⟨-, hstill⟩ | ⟨node, op, sin, c', -, hfind, htype, hown, hstep, rfl⟩
      · exact hstatic.trans hstill.fs.static
      · exact hstatic.trans (hv.inv.file_effect hfind htype hown hstep).1.static
    · intro hh hn
      rcases VolCall.step_cases hv hok hs with ⟨-, hstill⟩ | ⟨node, op, sin, c', -, hfind, htype, hown, hstep, rfl⟩
      · exact (hlost hh hn).still hstill
      · obtain ⟨hfile, he⟩ := hv.inv.file_effect hfind htype hown hstep
        exact NoneLost.put hv.inv hfind hfile he (hstatic.healthy hh) (hlost hh hn)

/-! A write to the file of the small volume. -/

def smallWrite : VolCall := .file 3 (.write (fun _ => 7) 0 10)

theorem smallVolume_sound : VolSound {1, 3} smallVolume := by
  refine ⟨smallVolume_inv, ?_⟩
  rintro d (rfl | rfl) hdir
  · intro sin hfind
    cases hfind
  · rw [smallVolume_din_file] at hdir
    exact absurd hdir (by decide)

theorem smallVolume_noneLost : NoneLost {1, 3} smallVolume := by
  intro b hu
  have hne := hu.ne
  have hlt : b < 6 := hu.lt
  have hbit := hu.bit
  rw [smallVolume_bit] at hbit
  simp at hbit
  obtain rfl | rfl | rfl : b = 1 ∨ b = 2 ∨ b = 3 := by omega
  · exact ⟨.inode 1, Or.inl rfl, rfl⟩
  · exact ⟨.volume, trivial, Or.inr ⟨Nat.le_refl 2, by decide⟩⟩
  · exact ⟨.inode 3, Or.inr rfl, rfl⟩

theorem smallWrite_step : ∃ v, smallWrite.Step smallVolume v := by
  have heval : (smallWrite.run smallVolume).test (fun _ _ => true) = true := by decide +kernel
  obtain ⟨_, v, hrun, -⟩ := Outcome.exists_of_test heval
  have hlen : 10 < 2 ^ 64 := by decide
  exact ⟨v, hlen, Or.inl hrun⟩

theorem volume_blocks_smallWrite : ∃ v, smallWrite.Step smallVolume v ∧ Ledger {1, 3} v ∧ NoneLost {1, 3} v := by
  obtain ⟨v, hs⟩ := smallWrite_step
  have hok : smallWrite.DropsFresh smallVolume := trivial
  obtain ⟨hledger, hlost⟩ := volume_blocks smallVolume_sound (.next (.start rfl) hok hs)
  exact ⟨v, hs, hledger, hlost (fun _ => rfl) smallVolume_noneLost⟩

/-- **Files do not reach each other.** A file that no call of the run is about has the inode, the blocks and the bytes that
it had. -/
theorem volume_files_apart {v₀ : SfsVolume} {ino : Nat} (h₀ : VolSound G v₀) (hino : ino ∈ G)
    (h : Reaches (fun s => s = v₀) VolCall.Step (fun v call => call.DropsFresh v ∧ call.target ≠ some ino) v) :
    v.din ino = v₀.din ino ∧ (v.ctx ino).owned = (v₀.ctx ino).owned ∧
      ∀ p, p / 4096 < (v₀.din ino).blocks → (v.ctx ino).byteAt p = (v₀.ctx ino).byteAt p := by
  suffices hall : VolSound G v ∧ SameFile v₀ v ino from
    ⟨hall.2.din, hall.2.owned, fun _ hp => hall.2.byteAt (h₀.inv.file ino hino) hp⟩
  apply h.invariant
  · rintro s rfl
    exact ⟨h₀, .refl s ino⟩
  · rintro v call v' ⟨hv, hsame⟩ ⟨hok, hne⟩ hs
    obtain ⟨hv', hfiles⟩ := VolCall.step hv hok hs
    exact ⟨hv', hsame.trans (hfiles ino hino hne)⟩

theorem volume_files_apart_smallWrite : ∃ v, smallWrite.Step smallVolume v ∧ v.din 1 = emptyInode sfsTypeDir := by
  obtain ⟨v, hs⟩ := smallWrite_step
  have hok : smallWrite.DropsFresh smallVolume ∧ smallWrite.target ≠ some 1 := ⟨trivial, by decide⟩
  obtain ⟨hdin, -⟩ := volume_files_apart smallVolume_sound (Or.inl rfl) (.next (.start rfl) hok hs)
  exact ⟨v, hs, hdin.trans smallVolume_din_root⟩

end Ucore.Volume
