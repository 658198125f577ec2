import Ucore.Fs.Sfs.SfsInode

/-!
# `Fs.Sfs.Correctness.Ends` — which error codes and which failed assertions a call can end with

No function below `sfs_io_nolock` fails with the code 0, so that `ret != 0` tells success from failure.
And only `sfs_bmap_get_nolock` of an index past the block map runs into `index out of range`.
-/

namespace Ucore

/-- The call fails only with codes other than 0, and never with `index out of range`. -/
abbrev Plain {σ α : Type} (m : Proc SfsPanic Int σ α) : Prop := Fails (· ≠ 0) (· ≠ .indexOutOfRange) m

theorem dopIo_fails (buf : Bytes) (d offset : Nat) (write : Bool) :
    Plain (dopIo buf d offset write) := by
  unfold dopIo
  refine .bind .of_get fun dev => .bind (.of_modify _) fun _ => ?_
  refine .of_ite (.of_fail (by decide)) ?_
  by_cases hf : dev.ioRet dev.ticks ≠ 0
  · rw [if_pos hf]
    exact .of_fail hf
  · rw [if_neg hf]
    exact .of_ite (.bind (.of_modify _) fun _ => .of_pure _) (.of_pure _)

theorem sfsRwblockNolock_fails (buf : Bytes) (d blkno : Nat) (write check : Bool) :
    Plain (sfsRwblockNolock buf d blkno write check) :=
  .bind .of_get fun _ => .bind (.of_check (by decide) _) fun _ => .zoom (dopIo_fails _ _ _ _)

theorem sfsRwblock_fails (write : Bool) (nblks : Nat) : ∀ (buf : Bytes) (d blkno : Nat),
    Plain (sfsRwblock buf d blkno write nblks) := by
  induction nblks with
  | zero => exact fun _ _ _ => .of_pure _
  | succ n ih => exact fun _ _ _ => .bind (sfsRwblockNolock_fails _ _ _ _ _) fun _ => ih _ _ _

theorem sfsRbuf_fails (buf : Bytes) (d len blkno offset : Nat) :
    Plain (sfsRbuf buf d len blkno offset) :=
  .bind (.of_check (by decide) _) fun _ => .bind .of_get fun _ => .bind (sfsRwblockNolock_fails _ _ _ _ _) fun _ =>
    .bind (.of_modify _) fun _ => .of_pure _

theorem sfsWbuf_fails (buf : Bytes) (d len blkno offset : Nat) :
    Plain (sfsWbuf buf d len blkno offset) :=
  .bind (.of_check (by decide) _) fun _ => .bind .of_get fun _ => .bind (sfsRwblockNolock_fails _ _ _ _ _) fun _ =>
    .bind (.of_modify _) fun _ => .bind (sfsRwblockNolock_fails _ _ _ _ _) fun _ => .of_pure _

theorem sfsClearBlockLoop_fails (x : Bytes) (nblks : Nat) : ∀ blkno,
    Plain (sfsClearBlockLoop x blkno nblks) := by
  induction nblks with
  | zero => exact fun _ => .of_pure _
  | succ n ih => exact fun _ => .bind (sfsRwblockNolock_fails _ _ _ _ _) fun _ => ih _

theorem bitmapAllocLoop_fails (n : Nat) : ∀ ix, Plain (bitmapAllocLoop ix n) := by
  induction n with
  | zero => exact fun _ => .of_fail (by decide)
  | succ n ih =>
    intro ix
    unfold bitmapAllocLoop
    refine .bind .of_get fun b => .of_ite ?_ (ih _)
    cases bitmapAllocWord (b.map ix) 0 32 with
    | some offset => exact .bind (.of_modify _) fun _ => .of_pure _
    | none => exact .of_stop (by decide)

/-- A check stops the machine or lets the call go on. -/
theorem assertInuse_fails {Q : Int → Prop} {P : SfsPanic → Prop} {p : SfsPanic} (hp : P p) (h0 : P .blockInuse)
    (ht : P .bitmapTranslate) (ino : Nat) : Fails Q P (assertInuse p ino) := by
  unfold assertInuse sfsBlockInuse
  refine .bind (.bind .of_get fun s => .of_ite ?_ (.of_stop h0)) fun _ => .of_check hp _
  refine .bind (.zoom ?_) fun _ => .of_pure _
  exact .bind .of_get fun _ => .bind (.of_check ht _) fun _ => .of_pure _

theorem assertInuse_plain {p : SfsPanic} (hp : p ≠ .indexOutOfRange) (ino : Nat) : Plain (assertInuse p ino) :=
  assertInuse_fails (P := (· ≠ .indexOutOfRange)) hp (by decide) (by decide) ino

theorem sfsBlockAlloc_fails : Plain sfsBlockAlloc :=
  .bind (.zoom (.bind .of_get fun _ => bitmapAllocLoop_fails _ _)) fun _ =>
    .bind .of_get fun _ => .bind (.of_check (by decide) _) fun _ => .bind (.of_modify _) fun _ =>
      .bind (assertInuse_plain (by decide) _) fun _ => .bind
        (.bind .of_get fun _ => .bind (.of_modify _) fun _ => sfsClearBlockLoop_fails _ _ _) fun _ => .of_pure _

theorem sfsBlockFree_fails (ino : Nat) : Plain (sfsBlockFree ino) :=
  .bind (assertInuse_plain (by decide) _) fun _ => .bind
    (.zoom (.bind .of_get fun _ => .bind (.of_check (by decide) _) fun _ => .bind (.of_check (by decide) _) fun _ =>
      .of_modify _)) fun _ => .of_modify _

theorem bmapCleanup_fails (entp ent : Nat) : Plain (bmapCleanup entp ent) :=
  .of_ite (sfsBlockFree_fails _) (.of_pure _)

theorem bmapNewEntry_fails (entp ent offset : Nat) : Plain (bmapNewEntry entp ent offset) :=
  .bind (.onErr sfsBlockAlloc_fails (bmapCleanup_fails _ _)) fun _ =>
    .bind (.onErr (sfsWbuf_fails _ _ _ _ _) (.bind (sfsBlockFree_fails _) fun _ => bmapCleanup_fails _ _)) fun _ =>
      .of_pure _

theorem sfsBmapGetSubNolock_fails (entp index : Nat) (create : Bool) :
    Plain (sfsBmapGetSubNolock entp index create) := by
  unfold sfsBmapGetSubNolock sfsRbufEntry
  refine .bind (.of_check (by decide) _) fun _ => .of_ite ?_ (.of_ite (.of_pure _) ?_)
  · refine .bind (.bind (sfsRbuf_fails _ _ _ _ _) fun _ => .of_pure _) fun _ => ?_
    exact .of_ite (.of_pure _) (bmapNewEntry_fails _ _ _)
  · exact .bind sfsBlockAlloc_fails fun _ => bmapNewEntry_fails _ _ _

/-- Here is the one assertion that is not plain. -/
theorem sfsBmapGetNolock_fails (index : Nat) (create : Bool) :
    Fails (· ≠ 0) (fun p => p = .indexOutOfRange → 1036 ≤ index) (sfsBmapGetNolock index create) := by
  have hplain : ∀ {α : Type} {m : SinM α}, Plain m →
      Fails (· ≠ 0) (fun p => p = .indexOutOfRange → 1036 ≤ index) m := fun h =>
    h.mono (fun _ h => h) fun _ h he => absurd he h
  have hend : ∀ ino, Plain (if ino = 0 then pure ino else do
      onFs (assertInuse .bmapGetInuse ino)
      pure ino) := fun ino =>
    .of_ite (.of_pure _) (.bind (.zoom (assertInuse_plain (by decide) _)) fun _ => .of_pure _)
  unfold sfsBmapGetNolock
  by_cases h : index < 12
  · simp only [h, dite_true]
    refine hplain (.bind ?_ hend)
    refine .bind .of_get fun c => .of_ite ?_ (.of_pure _)
    exact .bind (.zoom sfsBlockAlloc_fails) fun _ => .bind (.of_modify _) fun _ =>
      .bind (.of_modify _) fun _ => .of_pure _
  · simp only [h, dite_false]
    by_cases hlt : index - sfsNdirect < sfsBlkNentry
    · rw [if_pos hlt]
      refine hplain (.bind ?_ hend)
      refine .bind .of_get fun c => .bind (.zoom (sfsBmapGetSubNolock_fails _ _ _)) fun r =>
        .of_ite ?_ (.of_pure _)
      exact .bind (.of_check (by decide) _) fun _ => .bind (.of_modify _) fun _ =>
        .bind (.of_modify _) fun _ => .of_pure _
    · rw [if_neg hlt]
      have hge : 1036 ≤ index := by
        have hlt' : ¬ index - 12 < 1024 := hlt
        omega
      exact .bind (.of_stop fun _ => hge) fun ino => hplain (hend ino)

theorem sfsBmapLoadNolock_fails (index : Nat) :
    Fails (· ≠ 0) (fun p => p = .indexOutOfRange → 1036 ≤ index) (sfsBmapLoadNolock index) := by
  unfold sfsBmapLoadNolock
  refine .bind .of_get fun c => .bind (.of_check nofun _) fun _ => .bind (sfsBmapGetNolock_fails _ _) fun _ =>
    .bind (.zoom (assertInuse_fails nofun nofun nofun _)) fun _ => .of_ite ?_ (.of_pure _)
  exact .bind (.of_modify _) fun _ => .of_pure _

theorem sfsBmapFreeSubNolock_fails (ent index : Nat) : Plain (sfsBmapFreeSubNolock ent index) := by
  unfold sfsBmapFreeSubNolock sfsRbufEntry
  refine .bind (assertInuse_plain (by decide) _) fun _ => .bind (.of_check (by decide) _) fun _ => ?_
  refine .bind (.bind (sfsRbuf_fails _ _ _ _ _) fun _ => .of_pure _) fun _ => .of_ite ?_ (.of_pure _)
  exact .bind (sfsWbuf_fails _ _ _ _ _) fun _ => sfsBlockFree_fails _

theorem sfsBmapFreeNolock_fails (index : Nat) : Plain (sfsBmapFreeNolock index) := by
  unfold sfsBmapFreeNolock
  refine .bind .of_get fun c => ?_
  by_cases h : index < 12
  · simp only [h, dite_true]
    apply Fails.of_ite
    · exact .bind (.zoom (sfsBlockFree_fails _)) fun _ => .bind (.of_modify _) fun _ => .of_modify _
    · exact .of_pure _
  · simp only [h, dite_false]
    exact .of_ite (.of_ite (.zoom (sfsBmapFreeSubNolock_fails _ _)) (.of_pure _)) (.of_pure _)

theorem truncfileShrink_fails (n : Nat) : Plain (truncfileShrink n) := by
  induction n with
  | zero => exact .of_pure _
  | succ n ih =>
    refine .bind (.bind .of_get fun _ => .bind (.of_check (by decide) _) fun _ => ?_) fun _ => ih
    exact .bind (sfsBmapFreeNolock_fails _) fun _ => .bind (.of_modify _) fun _ => .of_modify _

/-- Growing by `n` blocks from index `i` on. -/
theorem truncfileGrow_fails (n : Nat) : ∀ i,
    Fails (· ≠ 0) (fun p => p = .indexOutOfRange → 1036 < i + n) (truncfileGrow i n) := by
  induction n with
  | zero => exact fun _ => .of_pure _
  | succ n ih =>
    refine fun i => .bind ((sfsBmapLoadNolock_fails i).mono (fun _ h => h) fun _ h he => ?_) fun _ => ?_
    · have := h he
      omega
    · refine (ih (i + 1)).mono (fun _ h => h) fun _ h he => ?_
      have := h he
      omega

theorem sfsTruncfile_fails (len : Int) :
    Fails (· ≠ 0) (fun p => p = .indexOutOfRange → 1036 < roundupDiv len.toNat sfsBlksize) (sfsTruncfile len) := by
  have hrest : ∀ u : Unit, Fails (· ≠ 0) (fun p => p = .indexOutOfRange → 1036 < roundupDiv len.toNat sfsBlksize)
      (do
        let c ← Proc.get
        Proc.check .truncfileBlocks (c.sin.din.blocks = roundupDiv len.toNat sfsBlksize)
        modifyDin fun din => { din with size := len.toNat }
        setDirty true : SinM Unit) := fun _ =>
    .bind .of_get fun _ => .bind (.of_check nofun _) fun _ => .bind (.of_modify _) fun _ => .of_modify _
  unfold sfsTruncfile
  refine .of_ite (.of_fail (by decide)) (.bind .of_get fun c => .of_ite (.of_check nofun _) ?_)
  by_cases hlt : c.sin.din.blocks < roundupDiv len.toNat sfsBlksize
  · simp only [if_pos hlt]
    refine .bind ((truncfileGrow_fails _ _).mono (fun _ h => h) fun _ h he => ?_) hrest
    have := h he
    omega
  · simp only [if_neg hlt]
    exact .bind ((truncfileShrink_fails _).mono (fun _ h => h) fun _ h he => absurd he h) hrest

end Ucore
