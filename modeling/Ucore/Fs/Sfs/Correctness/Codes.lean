import Ucore.Fs.Sfs.Correctness.IoLoop

/-!
# `Fs.Sfs.Correctness.Codes` — the error codes are those of a system call

A system call returns a count or a negative number. The codes of the file system are of this kind, but those of the device are
passed on as they are: `Coded` says that the device has no others, as `disk0_io` returns 0 or `-E_INVAL`. It is a property of
the device that no transfer changes.
-/

namespace Ucore

open SfsFs

/-- The device answers with 0 or with a negative code. -/
def SfsFs.Coded (s : SfsFs) : Prop := ∀ k, s.dev.ioRet k ≤ 0

def SfsCtx.Coded (c : SfsCtx) : Prop := c.fs.Coded

/-- On such a device the call fails with such a code. -/
abbrev Coding {α : Type} (m : SfsM α) : Prop := FailsUnder SfsFs.Coded (· ≤ 0) m

/-- The same, of a call on an inode. -/
abbrev CodingSin {α : Type} (m : SinM α) : Prop := FailsUnder SfsCtx.Coded (· ≤ 0) m

theorem onFs_coding {α : Type} {m : SfsM α} (h : Coding m) : CodingSin (onFs m) :=
  h.zoom (fun _ hc => hc) fun _ _ _ ht => ht

/-- What is done to the inode does not change the device. -/
theorem CodingSin.modify {f : SfsCtx → SfsCtx} (hf : ∀ c, (f c).fs = c.fs) :
    CodingSin (Proc.modify f : SinM Unit) :=
  .of_modify fun c hc => show (f c).fs.Coded from (hf c).symm ▸ hc

/-! ## Transfers -/

theorem dopIo_coding (buf : Bytes) (d offset : Nat) (write : Bool) :
    FailsUnder (fun dev : Device => ∀ k, dev.ioRet k ≤ 0) (· ≤ 0) (dopIo buf d offset write) := by
  intro dev h
  unfold dopIo
  rw [Proc.get_bind, Proc.modify_bind]
  split
  · exact ⟨h, by decide⟩
  · split
    · exact ⟨h, h dev.ticks⟩
    · split
      · exact h
      · exact h

theorem sfsRwblockNolock_coding (buf : Bytes) (d blkno : Nat) (write check : Bool) :
    Coding (sfsRwblockNolock buf d blkno write check) :=
  .bind .of_get fun _ => .bind (.of_check _ _) fun _ => (dopIo_coding _ _ _ _).zoom (fun _ h => h) fun _ _ _ h => h

theorem sfsRwblock_coding (write : Bool) (nblks : Nat) : ∀ (buf : Bytes) (d blkno : Nat),
    Coding (sfsRwblock buf d blkno write nblks) := by
  induction nblks with
  | zero => exact fun _ _ _ => .of_pure _
  | succ n ih => exact fun _ _ _ => .bind (sfsRwblockNolock_coding _ _ _ _ _) fun _ => ih _ _ _

theorem setSfsBuffer_coding (x : Bytes) : Coding (setSfsBuffer x) := .of_modify fun _ h => h

theorem sfsRbuf_coding (buf : Bytes) (d len blkno offset : Nat) : Coding (sfsRbuf buf d len blkno offset) :=
  .bind (.of_check _ _) fun _ => .bind .of_get fun _ => .bind (sfsRwblockNolock_coding _ _ _ _ _) fun _ =>
    .bind (setSfsBuffer_coding _) fun _ => .of_pure _

theorem sfsWbuf_coding (buf : Bytes) (d len blkno offset : Nat) : Coding (sfsWbuf buf d len blkno offset) :=
  .bind (.of_check _ _) fun _ => .bind .of_get fun _ => .bind (sfsRwblockNolock_coding _ _ _ _ _) fun _ =>
    .bind (setSfsBuffer_coding _) fun _ => .bind (sfsRwblockNolock_coding _ _ _ _ _) fun _ => .of_pure _

theorem sfsClearBlockLoop_coding (x : Bytes) (nblks : Nat) : ∀ blkno, Coding (sfsClearBlockLoop x blkno nblks) := by
  induction nblks with
  | zero => exact fun _ => .of_pure _
  | succ n ih => exact fun _ => .bind (sfsRwblockNolock_coding _ _ _ _ _) fun _ => ih _

/-! ## Blocks -/

/-- The free map has one code, `-E_NO_MEM`. -/
theorem onFreemap_coding {α : Type} {m : BitmapM α} (h : FailsUnder (fun _ => True) (· ≤ 0) m) : Coding (onFreemap m) :=
  h.zoom (fun _ _ => trivial) fun _ _ hs _ => hs

theorem bitmapAllocLoop_coding (n : Nat) : ∀ ix, FailsUnder (fun _ => True) (· ≤ 0) (bitmapAllocLoop ix n) := by
  induction n with
  | zero => exact fun _ => .of_fail (by decide)
  | succ n ih =>
    intro ix
    unfold bitmapAllocLoop
    refine .bind .of_get fun b => .of_ite ?_ (ih _)
    cases bitmapAllocWord (b.map ix) 0 32 with
    | some offset => exact .bind (.of_modify fun _ h => h) fun _ => .of_pure _
    | none => exact .of_stop _

theorem assertInuse_coding (p : SfsPanic) (ino : Nat) : Coding (assertInuse p ino) := by
  unfold assertInuse sfsBlockInuse
  refine .bind (.bind .of_get fun s => .of_ite ?_ (.of_stop _)) fun _ => .of_check _ _
  refine .bind (onFreemap_coding ?_) fun _ => .of_pure _
  exact .bind .of_get fun _ => .bind (.of_check _ _) fun _ => .of_pure _

theorem sfsBlockAlloc_coding : Coding sfsBlockAlloc :=
  .bind (onFreemap_coding (.bind .of_get fun _ => bitmapAllocLoop_coding _ _)) fun _ =>
    .bind .of_get fun _ => .bind (.of_check _ _) fun _ => .bind (.of_modify fun _ h => h) fun _ =>
      .bind (assertInuse_coding _ _) fun _ => .bind
        (.bind .of_get fun _ => .bind (setSfsBuffer_coding _) fun _ => sfsClearBlockLoop_coding _ _ _) fun _ => .of_pure _

theorem sfsBlockFree_coding (ino : Nat) : Coding (sfsBlockFree ino) :=
  .bind (assertInuse_coding _ _) fun _ => .bind
    (onFreemap_coding (.bind .of_get fun _ => .bind (.of_check _ _) fun _ => .bind (.of_check _ _) fun _ =>
      .of_modify fun _ h => h)) fun _ => .of_modify fun _ h => h

theorem bmapCleanup_coding (entp ent : Nat) : Coding (bmapCleanup entp ent) := .of_ite (sfsBlockFree_coding _) (.of_pure _)

theorem bmapNewEntry_coding (entp ent offset : Nat) : Coding (bmapNewEntry entp ent offset) :=
  .bind (.onErr sfsBlockAlloc_coding (bmapCleanup_coding _ _)) fun _ =>
    .bind (.onErr (sfsWbuf_coding _ _ _ _ _) (.bind (sfsBlockFree_coding _) fun _ => bmapCleanup_coding _ _)) fun _ =>
      .of_pure _

/-! ## The block map -/

theorem sfsBmapGetSubNolock_coding (entp index : Nat) (create : Bool) :
    Coding (sfsBmapGetSubNolock entp index create) := by
  unfold sfsBmapGetSubNolock sfsRbufEntry
  refine .bind (.of_check _ _) fun _ => .of_ite ?_ (.of_ite (.of_pure _) ?_)
  · refine .bind (.bind (sfsRbuf_coding _ _ _ _ _) fun _ => .of_pure _) fun _ => ?_
    exact .of_ite (.of_pure _) (bmapNewEntry_coding _ _ _)
  · exact .bind sfsBlockAlloc_coding fun _ => bmapNewEntry_coding _ _ _

theorem modifyDin_coding (f : SfsDiskInode → SfsDiskInode) : CodingSin (modifyDin f) := .modify fun _ => rfl

theorem setDirty_coding (dirty : Bool) : CodingSin (setDirty dirty) := .modify fun _ => rfl

theorem sfsBmapGetNolock_coding (index : Nat) (create : Bool) : CodingSin (sfsBmapGetNolock index create) := by
  have hend : ∀ ino, CodingSin (if ino = 0 then pure ino else do
      onFs (assertInuse .bmapGetInuse ino)
      pure ino) := fun ino =>
    .of_ite (.of_pure _) (.bind (onFs_coding (assertInuse_coding _ _)) fun _ => .of_pure _)
  unfold sfsBmapGetNolock
  by_cases h : index < 12
  · simp only [h, dite_true]
    refine .bind ?_ hend
    refine .bind .of_get fun c => .of_ite ?_ (.of_pure _)
    exact .bind (onFs_coding sfsBlockAlloc_coding) fun _ => .bind (modifyDin_coding _) fun _ =>
      .bind (setDirty_coding _) fun _ => .of_pure _
  · simp only [h, dite_false]
    refine .of_ite (.bind ?_ hend) (.bind (.of_stop _) hend)
    refine .bind .of_get fun c => .bind (onFs_coding (sfsBmapGetSubNolock_coding _ _ _)) fun r => .of_ite ?_ (.of_pure _)
    exact .bind (.of_check _ _) fun _ => .bind (modifyDin_coding _) fun _ => .bind (setDirty_coding _) fun _ => .of_pure _

theorem sfsBmapLoadNolock_coding (index : Nat) : CodingSin (sfsBmapLoadNolock index) := by
  unfold sfsBmapLoadNolock
  refine .bind .of_get fun c => .bind (.of_check _ _) fun _ => .bind (sfsBmapGetNolock_coding _ _) fun _ =>
    .bind (onFs_coding (assertInuse_coding _ _)) fun _ => .of_ite ?_ (.of_pure _)
  exact .bind (modifyDin_coding _) fun _ => .of_pure _

/-! ## The whole transfer -/

variable {write : Bool} {start endpos a : Nat} {buf b : Bytes} {c c' : SfsCtx}

theorem ioPiece_coding (write : Bool) (start endpos a : Nat) (buf : Bytes) :
    CodingSin (ioPiece write start endpos a buf) := by
  have hop : ∀ ino, Coding (pieceOp write start endpos a buf ino) := by
    intro ino
    unfold pieceOp sfsBlockOp sfsBufOp
    apply FailsUnder.of_ite
    · exact .of_ite (sfsRwblock_coding _ _ _ _ _) (sfsRwblock_coding _ _ _ _ _)
    · exact .of_ite (.bind (sfsWbuf_coding _ _ _ _ _) fun _ => .of_pure _) (sfsRbuf_coding _ _ _ _ _)
  exact .bind (sfsBmapLoadNolock_coding _) fun ino => onFs_coding (hop ino)

theorem IoDone.coded (h : c.Coded) (hd : IoDone write start endpos buf c a b c') : c'.Coded := by
  induction hd with
  | start => exact h
  | next _ _ hp ih => exact (ioPiece_coding _ _ _ _ _ _ ih).of_ok hp

theorem SfsCtx.Coded.reach (h : c.Coded) (n : Nat) : (c.reach n).Coded := by
  unfold SfsCtx.reach
  split
  · exact h
  · exact h

/-- **The return value** of `sfs_io_nolock` is 0 or a negative code. -/
theorem sfsIoNolock_coded {offset : Int} {len : Nat} {r : IoResult} (h : c.Coded) (htype : c.sin.din.type ≠ sfsTypeDir)
    (hlen : len < 2 ^ 64) (hrun : sfsIoNolock buf offset len write c = .ok r c') : r.ret ≤ 0 ∧ c'.Coded := by
  by_cases ht : IoTransfers c offset len write
  · rcases sfsIoNolock_cases buf htype ht rfl rfl with ⟨b, c₁, hd, hrun'⟩ | ⟨a, b, c₁, c₂, e, hd, -, hp, -, hrun'⟩ |
      ⟨a, b, c₁, p, -, -, -, hrun'⟩ <;> rw [hrun] at hrun' <;> cases hrun'
    · exact ⟨Int.le_refl 0, (hd.coded h).reach _⟩
    · have hend := (ioPiece_coding _ _ _ _ _ _ (hd.coded h)).of_err hp
      exact ⟨hend.2, SfsCtx.Coded.reach hend.1 _⟩
  · rcases sfsIoNolock_checks buf htype hlen ht with hrun' | ⟨hrun', -⟩ <;> rw [hrun] at hrun' <;> cases hrun'
    · exact ⟨(by decide : -eInval ≤ 0), h⟩
    · exact ⟨Int.le_refl 0, h⟩

end Ucore
