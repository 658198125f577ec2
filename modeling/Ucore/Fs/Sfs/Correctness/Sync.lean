import Ucore.Fs.Sfs.Correctness.Rounds

/-!
# `Fs.Sfs.Correctness.Sync` — writing an inode back

`sfs_fsync` copies the inode of a file to its inode block, which is a block of somebody else as far as the
block map is concerned.
-/

namespace Ucore

open SfsFs SfsCtx

variable {c c' : SfsCtx} {R : Set Nat} {b : Nat} {x : Bytes}

/-- A block that is not the file's may change. -/
theorem SfsCtx.FileInv.setOther (h : FileInv c R) (hb : b ∈ R) : FileInv (c.withFs (c.fs.setBlk b x)) R := by
  have hne : c.sin.din.indirect ≠ 0 → c.sin.din.indirect ≠ b := by
    rintro hz rfl
    exact h.apart .entryBlock hz hb
  have hblk : c.sin.din.indirect ≠ 0 →
      (c.withFs (c.fs.setBlk b x)).fs.dev.blk c.sin.din.indirect = c.fs.dev.blk c.sin.din.indirect := fun hz =>
    blk_setBlk_of_ne _ _ (hne hz)
  have hlook := @lookup_congr c (c.withFs (c.fs.setBlk b x)) rfl rfl hblk
  have hslot := @slot_congr c (c.withFs (c.fs.setBlk b x)) rfl rfl hblk
  refine ⟨h.ready.setBlk, fun t ht => ?_, fun t u => ?_, fun y hy => ?_, fun t => ?_, fun i hi => ?_, h.blocks_le⟩
  · rw [hslot] at ht ⊢
    exact (h.use t ht).setBlk
  · rw [hslot, hslot]
    exact h.inj t u
  · exact (h.reserved y hy).imp id fun hu => hu.setBlk
  · rw [hslot]
    exact h.apart t
  · rw [hlook]
    exact h.dense i hi

/-- What `sfs_fsync` leaves: the inode is in its block, and clean. -/
def SfsCtx.synced (c : SfsCtx) : SfsCtx where
  fs := c.fs.setBlk c.sin.ino
    (memcpy (c.fs.dev.blk c.sin.ino) 0 (c.sin.din.store fun _ => 0) 0 sfsDiskInodeSize)
  sin := { c.sin with dirty := false }

/-- **Writing back.** -/
theorem sfsFsync_cases (h : c.fs.Ready) (hino : c.fs.InUse c.sin.ino) :
    (c.sin.dirty = false ∧ sfsFsync c = .ok () c) ∨
    c.sin.dirty = true ∧ ∃ k x, sfsFsync c = .ok () (c.synced.scratch k x) ∨
      ∃ e, e ≠ 0 ∧ ¬ c.fs.Healthy ∧ sfsFsync c = .err e (c.scratch k x) := by
  unfold sfsFsync
  rw [Proc.get_bind]
  by_cases hd : c.sin.dirty = true
  · obtain ⟨k, x, hw⟩ := sfsWbuf_cases (c.sin.din.store fun _ => 0) 0 h hino.ne hino.lt (show 0 < 4096 by decide)
      (show 0 + sfsDiskInodeSize ≤ 4096 by decide)
    rw [if_pos hd]
    rcases hw with ⟨-, -, hrun⟩ | ⟨hf, e, he, hrun⟩
    · refine Or.inr ⟨hd, 2, x, Or.inl ?_⟩
      rw [setDirty, Proc.modify_bind]
      apply Proc.onErr_ok
      exact Proc.zoom_ok hrun
    · refine Or.inr ⟨hd, k, x, Or.inr ⟨e, he, fun hh => hf ⟨hh.fault 0, hh.fault 1⟩, ?_⟩⟩
      -- the flag goes back to what it was
      have hsin : { c.sin with dirty := true } = c.sin := by
        rw [← hd]
      let c₀ : SfsCtx := { c with sin := { c.sin with dirty := false } }
      have hfail : onFs (sfsWbuf (c.sin.din.store fun _ => 0) 0 sfsDiskInodeSize c.sin.ino 0) c₀
          = .err e (c₀.withFs (c.fs.scratch k x)) := Proc.zoom_err hrun
      have hundo : setDirty true (c₀.withFs (c.fs.scratch k x))
          = .ok () ⟨c.fs.scratch k x, { c.sin with dirty := true }⟩ := rfl
      show Proc.onErr _ (setDirty true) c₀ = _
      rw [Proc.onErr_err hfail hundo, hsin]
      rfl
  · rw [if_neg hd]
    exact Or.inl ⟨Bool.eq_false_iff.mpr hd, rfl⟩

end Ucore
