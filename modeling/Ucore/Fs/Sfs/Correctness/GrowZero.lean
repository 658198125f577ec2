import Ucore.Fs.Sfs.Correctness.FileData
import Mathlib.Data.Set.Basic

/-!
# `Fs.Sfs.Correctness.GrowZero` — what a file reads where it has grown

`sfs_truncfile` gives and takes whole blocks. A new block is cleared, but the bytes behind the end of the file in its last
block stay what they are: a file that was longer before shows them again when it grows. `SfsCtx.stored` is the content of the
blocks of a file, behind its end too; growing changes nothing of it. The run carries the set of the positions that the file
has grown over and that nobody has written since, which the code does not keep.
-/

namespace Ucore

open SfsFs SfsCtx

variable {c c' : SfsCtx} {R : Set Nat} {i a start endpos p : Nat} {buf buf' : Bytes}

/-! ## What the blocks of a file hold -/

/-- Byte `p` of the blocks of a file, whether it lies before its end or behind; where there is no block, zero. -/
def SfsCtx.stored (c : SfsCtx) (p : Nat) : UInt8 := if p / 4096 < c.sin.din.blocks then c.byteAt p else 0

theorem stored_reach (n : Nat) : (c.reach n).stored p = c.stored p := by
  unfold SfsCtx.stored
  rw [blocks_reach, byteAt_reach]

/-- Loading an index changes nothing: the block that it may add is cleared. -/
theorem Loaded.stored {b : Nat} (h : FileInv c R) (hl : Loaded R i b c c') (hi : i ≤ c.sin.din.blocks) :
    c'.stored p = c.stored p := by
  have hblocks := hl.blocks
  unfold SfsCtx.stored
  by_cases hold : p / 4096 < c.sin.din.blocks
  · rw [if_pos hold, if_pos (by omega)]
    exact hl.byteAt h hi hold
  · rw [if_neg hold]
    split
    · next hnew =>
      have hp : p / 4096 = i := by omega
      have hib : i = c.sin.din.blocks := by omega
      unfold SfsCtx.byteAt
      rw [hp, hl.look]
      exact (hl.new hib).2.1 _ (Nat.mod_lt p (by decide))
    · rfl

theorem stored_setData (h : FileInv c R) (hi : i < c.sin.din.blocks) (x : Bytes) :
    (c.setData i x).stored p = if p / 4096 = i then x (p % 4096) else c.stored p := by
  have hblocks : (c.setData i x).sin.din.blocks = c.sin.din.blocks := rfl
  unfold SfsCtx.stored
  rw [hblocks]
  by_cases hp : p / 4096 < c.sin.din.blocks
  · rw [if_pos hp, if_pos hp]
    exact byteAt_setData h hi hp x
  · have hne : ¬ p / 4096 = i := by omega
    rw [if_neg hp, if_neg hp, if_neg hne]

/-! ## Transfers -/

/-- The rounds of a read: they give what is stored, and change none of it. -/
theorem IoDone.stored_read (h : FileInv c R) (hd : IoDone false start endpos buf c a buf' c') :
    (∀ p, c'.stored p = c.stored p) ∧ ∀ k, k < a → buf' k = c.stored (start + k) := by
  induction hd with
  | start => exact ⟨fun _ => rfl, fun k hk => absurd hk (Nat.not_lt_zero k)⟩
  | @next a buf' buf'' c' c'' hd hlt hp ih =>
    obtain ⟨b, c₁, k, x, hib, hi', hl, rfl, rfl⟩ := ioPiece_done (hd.grown h).inv hlt hp
    have hround : roundState false start endpos a buf' ((start + a) / 4096) c₁ = c₁ := if_neg Bool.false_ne_true
    have hsame : ∀ p, c₁.stored p = c.stored p := fun p => (hl.stored (hd.grown h).inv hib).trans (ih.1 p)
    rw [hround]
    refine ⟨hsame, fun j hj => ?_⟩
    unfold roundBuf
    rw [if_neg Bool.false_ne_true]
    have hsize : pieceSize start endpos a ≤ 4096 - (start + a) % 4096 := Nat.min_le_left ..
    by_cases hja : j < a
    · rw [memcpy_out (by omega)]
      exact ih.2 j hja
    · -- a byte of this round, in the block that has been loaded
      have hdiv : (start + j) / 4096 = (start + a) / 4096 := by omega
      have hmod : (start + a) % 4096 + (j - a) = (start + j) % 4096 := by omega
      have hblocks := hl.blocks
      rw [memcpy_in (by omega), hmod, ← hsame]
      unfold SfsCtx.stored SfsCtx.byteAt
      rw [hdiv, if_pos (by omega)]

/-- The rounds of a write: they replace what has been written. -/
theorem IoDone.stored_write (h : FileInv c R) (hd : IoDone true start endpos buf c a buf' c') :
    buf' = buf ∧ ∀ p, c'.stored p = if start ≤ p ∧ p < start + a then buf (p - start) else c.stored p := by
  induction hd with
  | start => exact ⟨rfl, fun p => (if_neg (by omega)).symm⟩
  | @next a buf' buf'' c' c'' hd hlt hp ih =>
    obtain ⟨b, c₁, k, x, hib, hi', hl, hbuf, rfl⟩ := ioPiece_done (hd.grown h).inv hlt hp
    have hround : roundState true start endpos a buf' ((start + a) / 4096) c₁ = c₁.setData ((start + a) / 4096)
        (memcpy (c₁.fs.dev.blk (c₁.lookup ((start + a) / 4096))) ((start + a) % 4096) buf' a (pieceSize start endpos a)) :=
      if_pos rfl
    have hsame' : buf'' = buf' := hbuf.trans (if_pos rfl)
    have hsize : pieceSize start endpos a ≤ 4096 - (start + a) % 4096 := Nat.min_le_left ..
    have hblocks := hl.blocks
    have hlt₁ : (start + a) / 4096 < c₁.sin.din.blocks := by omega
    have hsame : ∀ p, c₁.stored p = c'.stored p := fun p => hl.stored (hd.grown h).inv hib
    rw [hround]
    refine ⟨hsame'.trans ih.1, fun p => ?_⟩
    show (c₁.setData _ _).stored p = _
    rw [stored_setData hl.inv hlt₁, ih.1]
    by_cases hin : start + a ≤ p ∧ p < start + (a + pieceSize start endpos a)
    · have hmod : p % 4096 = (start + a) % 4096 + (p - (start + a)) := by omega
      have hsub : a + (p % 4096 - (start + a) % 4096) = p - start := by omega
      rw [if_pos (by omega), if_pos (by omega), memcpy_in (by omega), hsub]
    · have hrest : (if start ≤ p ∧ p < start + (a + pieceSize start endpos a) then buf (p - start) else c.stored p) =
          c₁.stored p := by
        rw [hsame, ih.2]
        by_cases hold : start ≤ p ∧ p < start + a
        · rw [if_pos hold, if_pos (by omega)]
        · rw [if_neg hold, if_neg (by omega)]
      rw [hrest]
      split
      · next he =>
        rw [memcpy_out (by omega)]
        unfold SfsCtx.stored SfsCtx.byteAt
        rw [he, if_pos hlt₁]
      · rfl

/-! ## Truncation -/

/-- Growing: the new blocks are cleared, and the others are left alone. -/
theorem truncfileGrow_stored (n : Nat) : ∀ c : SfsCtx, FileInv c R →
    truncfileGrow c.sin.din.blocks n c = .ok () c' → c'.stored p = c.stored p := by
  induction n with
  | zero =>
    intro c _ hrun
    cases hrun
    rfl
  | succ n ih =>
    intro c h hrun
    unfold truncfileGrow at hrun
    obtain ⟨b, c₁, hload, hrest⟩ := Proc.bind_eq_ok.mp hrun
    by_cases hfull : c.sin.din.blocks < 1036
    · rcases sfsBmapLoadNolock_cases h (Nat.le_refl _) hfull with ⟨b', c₂, hload', hl⟩ | ⟨e, s', -, hload', -⟩
      · rw [hload] at hload'
        cases hload'
        have hb : c₁.sin.din.blocks = c.sin.din.blocks + 1 := by
          have := hl.blocks
          omega
        rw [← hb] at hrest
        exact (ih c₁ hl.inv hrest).trans (hl.stored h (Nat.le_refl _))
      · rw [hload] at hload'
        cases hload'
    · rw [sfsBmapLoadNolock_outOfRange (Nat.le_refl _) (Nat.le_of_not_lt hfull)] at hload
      cases hload

/-- Shrinking: the bytes of the blocks that stay are left alone, those behind the new end of the file too. -/
theorem truncfileShrink_stored (n : Nat) : ∀ c : SfsCtx, FileInv c R → n ≤ c.sin.din.blocks →
    truncfileShrink n c = .ok () c' →
    c'.sin.din.blocks + n = c.sin.din.blocks ∧ (p / 4096 < c'.sin.din.blocks → c'.byteAt p = c.byteAt p) := by
  induction n with
  | zero =>
    intro c _ _ hrun
    cases hrun
    exact ⟨rfl, fun _ => rfl⟩
  | succ n ih =>
    intro c h hn hrun
    unfold truncfileShrink at hrun
    obtain ⟨_, c₁, htrunc, hrest⟩ := Proc.bind_eq_ok.mp hrun
    rcases sfsBmapTruncateNolock_cases h (by omega) with ⟨c₂, htrunc', ht⟩ | ⟨e, k, x, -, -, -, htrunc'⟩
    · rw [htrunc] at htrunc'
      cases htrunc'
      have hb := ht.blocks
      obtain ⟨hblocks, hsame⟩ := ih c₁ ht.inv (by omega) hrest
      refine ⟨by omega, fun hp => (hsame hp).trans ?_⟩
      -- the block is not the entry block, which is all that the step writes
      have hp' : p / 4096 < 1036 := by
        have := h.blocks_le
        omega
      have hne : c.lookup (p / 4096) ≠ 0 := (h.dense _ hp').mpr (by omega)
      unfold SfsCtx.byteAt
      rw [ht.lookup _ (by omega), ht.disk _ (h.lookup_inUse hp' hne) (h.lookup_ne_indirect hp' hne)]
    · rw [htrunc] at htrunc'
      cases htrunc'

/-- What a truncation that went through makes of a file. -/
structure Resized (R : Set Nat) (c c' : SfsCtx) : Prop where
  inv : FileInv c' R
  type : c'.sin.din.type = c.sin.din.type
  stored : ∀ p, c'.stored p = c.stored p ∨ c'.stored p = 0

namespace Resized

theorem refl (h : FileInv c R) : Resized R c c := ⟨h, rfl, fun _ => Or.inl rfl⟩

theorem setSize (h : Resized R c c') (n : Nat) : Resized R c (c'.setSize n) := ⟨h.inv.setSize n, h.type, h.stored⟩

theorem of_grow {n : Nat} (h : FileInv c R) (hrun : truncfileGrow c.sin.din.blocks n c = .ok () c') : Resized R c c' := by
  rcases truncfileGrow_cases n c h with ⟨c₁, hrun', hg, -⟩ | ⟨e, c₁, hrun', -⟩ | ⟨-, -, hrun'⟩ <;>
    rw [hrun] at hrun' <;> cases hrun'
  exact ⟨hg.inv, hg.type, fun p => Or.inl (truncfileGrow_stored n c h hrun)⟩

theorem of_shrink {n : Nat} (h : FileInv c R) (hn : n ≤ c.sin.din.blocks) (hrun : truncfileShrink n c = .ok () c') :
    Resized R c c' := by
  rcases truncfileShrink_cases n c h hn with ⟨c₁, hrun', hg, hb⟩ | ⟨e, c₁, hrun', -⟩ <;>
    rw [hrun] at hrun' <;> cases hrun'
  refine ⟨hg.inv, hg.type, fun p => ?_⟩
  unfold SfsCtx.stored
  by_cases hp : p / 4096 < c'.sin.din.blocks
  · rw [if_pos hp, if_pos (by omega)]
    exact Or.inl ((truncfileShrink_stored n c h hn hrun).2 hp)
  · exact Or.inr (if_neg hp)

end Resized

theorem sfsTruncfile_resized {len : Int} (h : FileInv c R) (hrun : sfsTruncfile len c = .ok () c') :
    Resized R c c' := by
  by_cases hbad : len < 0 ∨ (sfsMaxFileSize : Int) < len
  · rw [sfsTruncfile_invalid hbad] at hrun
    cases hrun
  unfold sfsTruncfile at hrun
  rw [if_neg hbad, Proc.get_bind] at hrun
  by_cases hs : c.sin.din.size = len.toNat
  · rw [if_pos hs, Proc.check_eq_ok] at hrun
    rw [hrun.2]
    exact .refl h
  rw [if_neg hs] at hrun
  -- the end of the call, which sets the size
  have hend : ∀ {c₁}, (do
      let c ← Proc.get
      Proc.check .truncfileBlocks (c.sin.din.blocks = blocksFor len.toNat)
      modifyDin fun din => { din with size := len.toNat }
      setDirty true : SinM Unit) c₁ = .ok () c' → c' = c₁.setSize len.toNat := by
    intro c₁ hrest
    obtain ⟨_, c₂, hget, hbody⟩ := Proc.bind_eq_ok.mp hrest
    obtain ⟨_, c₃, hcheck, -⟩ := Proc.bind_eq_ok.mp hbody
    cases hget
    rw [truncfileEnd_run (Proc.check_eq_ok.mp hcheck).1, Outcome.ok.injEq] at hrest
    exact hrest.2.symm
  by_cases hlt : c.sin.din.blocks < blocksFor len.toNat
  · simp only [if_pos hlt] at hrun
    obtain ⟨_, c₁, hloop, hrest⟩ := Proc.bind_eq_ok.mp hrun
    rw [hend hrest]
    exact (Resized.of_grow h hloop).setSize _
  · simp only [if_neg hlt] at hrun
    obtain ⟨_, c₁, hloop, hrest⟩ := Proc.bind_eq_ok.mp hrun
    rw [hend hrest]
    exact (Resized.of_shrink h (Nat.sub_le ..) hloop).setSize _

theorem sfsTryseek_resized {pos : Int} (h : FileInv c R) (hrun : sfsTryseek pos c = .ok () c') : Resized R c c' := by
  rw [sfsTryseek_run] at hrun
  split at hrun
  · exact sfsTruncfile_resized h hrun
  · split at hrun
    · cases hrun
      exact .refl h
    · cases hrun

/-! ## Calls that succeed -/

section Calls

variable {write : Bool} {offset : Int} {len : Nat} {r : IoResult}

/-- A transfer that goes through: it has nothing to do, or all rounds are done. -/
theorem sfsIoNolock_success (htype : c.sin.din.type ≠ sfsTypeDir) (hlen : len < 2 ^ 64)
    (hrun : sfsIoNolock buf offset len write c = .ok r c') (hret : r.ret = 0) :
    c' = c ∨ ∃ b c₁ n, IoDone write offset.toNat (ioLimit c offset.toNat len write) buf c
      (ioLimit c offset.toNat len write - offset.toNat) b c₁ ∧ c' = c₁.reach n := by
  by_cases ht : IoTransfers c offset len write
  · rcases sfsIoNolock_cases buf htype ht rfl rfl with ⟨b, c₁, hd, hrun'⟩ | ⟨a, b, c₁, c₂, e, -, -, -, he, hrun'⟩ |
      ⟨a, b, c₁, p, -, -, -, hrun'⟩ <;> rw [hrun] at hrun' <;> cases hrun'
    · exact Or.inr ⟨b, c₁, _, hd, rfl⟩
    · exact absurd hret he
  · obtain ⟨ret, hrun', -⟩ := sfsIoNolock_idle buf htype hlen ht
    rw [hrun] at hrun'
    cases hrun'
    exact Or.inl rfl

/-- What a read has transferred, whether or not it goes through in the end, is what the file holds there. -/
theorem sfsIoNolock_reads_stored (h : FileInv c R) (htype : c.sin.din.type ≠ sfsTypeDir) (hlen : len < 2 ^ 64)
    (hrun : sfsIoNolock buf offset len false c = .ok r c') {k : Nat} (hk : k < r.alen) :
    r.buf k = c.stored (offset.toNat + k) := by
  by_cases ht : IoTransfers c offset len false
  · rcases sfsIoNolock_cases buf htype ht rfl rfl with ⟨b, c₁, hd, hrun'⟩ | ⟨a, b, c₁, c₂, e, hd, -, -, -, hrun'⟩ |
      ⟨a, b, c₁, p, -, -, -, hrun'⟩ <;> rw [hrun] at hrun' <;> cases hrun'
    · exact (hd.stored_read h).2 k hk
    · exact (hd.stored_read h).2 k hk
  · obtain ⟨ret, hrun', -⟩ := sfsIoNolock_idle buf htype hlen ht
    rw [hrun] at hrun'
    cases hrun'
    exact absurd hk (Nat.not_lt_zero k)

end Calls

/-- The call returns success and leaves `c'`. Other files, and the device, leave the blocks of this one alone. -/
def FileOp.Succeeds (c : SfsCtx) (op : FileOp) (c' : SfsCtx) : Prop :=
  match op with
  | .read buf offset len  => len < 2 ^ 64 ∧ ∃ r, sfsIoNolock buf offset len false c = .ok r c' ∧ r.ret = 0
  | .write buf offset len => len < 2 ^ 64 ∧ ∃ r, sfsIoNolock buf offset len true c = .ok r c' ∧ r.ret = 0
  | .tryseek pos          => sfsTryseek pos c = .ok () c'
  | .truncfile len        => sfsTruncfile len c = .ok () c'
  | .other s              => c' = c.withFs s ∧ (∃ R, FileInv c' R) ∧ ∀ b ∈ c.owned, s.dev.blk b = c.fs.dev.blk b

/-- The positions that a call grows the file over with `sfs_truncfile`. -/
def FileOp.grownBy (c : SfsCtx) : FileOp → Set Nat
  | .tryseek pos   => {p | c.sin.din.size ≤ p ∧ (p : Int) < pos}
  | .truncfile len => {p | c.sin.din.size ≤ p ∧ (p : Int) < len}
  | .read ..       => ∅
  | .write ..      => ∅
  | .other _       => ∅

/-- The positions that a call writes. -/
def FileOp.writtenBy (c : SfsCtx) : FileOp → Set Nat
  | .write _ offset len => {p | offset.toNat ≤ p ∧ p < ioLimit c offset.toNat len true}
  | .read ..            => ∅
  | .tryseek _          => ∅
  | .truncfile _        => ∅
  | .other _            => ∅

/-- What a call that succeeds does to a byte of the blocks that it does not write. -/
structure KeepsBytes (c : SfsCtx) (op : FileOp) (c' : SfsCtx) : Prop where
  inv : ∃ R, FileInv c' R
  type : c'.sin.din.type = c.sin.din.type
  stored : ∀ p, p ∉ op.writtenBy c → c'.stored p = c.stored p ∨ c'.stored p = 0

theorem Resized.keeps {op : FileOp} (h : Resized R c c') : KeepsBytes c op c' := ⟨⟨R, h.inv⟩, h.type, fun p _ => h.stored p⟩

/-- Blocks that others leave alone hold what they did. -/
theorem stored_withFs {s : SfsFs} (h : FileInv c R) (hs : ∀ b ∈ c.owned, s.dev.blk b = c.fs.dev.blk b) :
    (c.withFs s).stored p = c.stored p := by
  have hlook : (c.withFs s).lookup (p / 4096) = c.lookup (p / 4096) :=
    @lookup_congr c (c.withFs s) rfl rfl (fun hne => hs _ ⟨hne, .entryBlock, rfl⟩) _
  have hblocks : (c.withFs s).sin.din.blocks = c.sin.din.blocks := rfl
  unfold SfsCtx.stored SfsCtx.byteAt
  rw [hlook, hblocks]
  by_cases hp : p / 4096 < c.sin.din.blocks
  · have hp' : p / 4096 < 1036 := Nat.lt_of_lt_of_le hp h.blocks_le
    have hown : c.lookup (p / 4096) ∈ c.owned := ⟨(h.dense _ hp').mpr hp, .data ⟨_, hp'⟩, rfl⟩
    rw [if_pos hp, if_pos hp, ← hs _ hown]
    rfl
  · rw [if_neg hp, if_neg hp]

theorem FileOp.Succeeds.keeps {op : FileOp} (h : FileInv c R) (htype : c.sin.din.type ≠ sfsTypeDir)
    (hs : op.Succeeds c c') : KeepsBytes c op c' := by
  cases op with
  | read buf offset len =>
    obtain ⟨hlen, r, hrun, hret⟩ := hs
    rcases sfsIoNolock_success htype hlen hrun hret with rfl | ⟨b, c₁, n, hd, rfl⟩
    · exact (Resized.refl h).keeps
    · have hg := hd.grown h
      refine ⟨⟨R, hg.inv.reach n⟩, (type_reach c₁ n).trans hg.type, fun p _ => Or.inl ?_⟩
      exact (stored_reach n).trans ((hd.stored_read h).1 p)
  | write buf offset len =>
    obtain ⟨hlen, r, hrun, hret⟩ := hs
    rcases sfsIoNolock_success htype hlen hrun hret with rfl | ⟨b, c₁, n, hd, rfl⟩
    · exact (Resized.refl h).keeps
    · have hg := hd.grown h
      refine ⟨⟨R, hg.inv.reach n⟩, (type_reach c₁ n).trans hg.type, fun p hp => Or.inl ?_⟩
      have hout : ¬ (offset.toNat ≤ p ∧
          p < offset.toNat + (ioLimit c offset.toNat len true - offset.toNat)) := fun hin => hp ⟨hin.1, by omega⟩
      rw [stored_reach, (hd.stored_write h).2, if_neg hout]
  | tryseek pos => exact (sfsTryseek_resized h hs).keeps
  | truncfile len => exact (sfsTruncfile_resized h hs).keeps
  | other s =>
    obtain ⟨rfl, hinv, hblk⟩ := hs
    exact ⟨hinv, rfl, fun p _ => Or.inl (stored_withFs h hblk)⟩

/-! ## Whole runs -/

/-- A file, and the positions that it has grown over and that nobody has written since. -/
structure GrownFile where
  c : SfsCtx
  grown : Set Nat

namespace GrownFile

variable {g g' : GrownFile}

/-- A regular file at the start of a run. -/
def Starts (g : GrownFile) : Prop := (∃ R, FileInv g.c R) ∧ g.c.sin.din.type ≠ sfsTypeDir ∧ g.grown = ∅

/-- A call that succeeds. -/
def Step (g : GrownFile) (op : FileOp) (g' : GrownFile) : Prop :=
  op.Succeeds g.c g'.c ∧ g'.grown = g.grown \ op.writtenBy g.c ∪ op.grownBy g.c

/-- The condition on a call that grows the file: the blocks of the file hold no other bytes than zero where it grows. -/
def Blank (g : GrownFile) (op : FileOp) : Prop := ∀ p ∈ op.grownBy g.c, g.c.stored p = 0

/-- Whatever is read where the file has grown is zero. -/
def ReadsZero (g : GrownFile) : Prop :=
  ∀ buf offset len r c', len < 2 ^ 64 → sfsIoNolock buf offset len false g.c = .ok r c' →
    ∀ k, k < r.alen → offset.toNat + k ∈ g.grown → r.buf k = 0

/-- The invariant of the runs under the condition. -/
structure Zeroed (g : GrownFile) : Prop where
  inv : ∃ R, FileInv g.c R
  type : g.c.sin.din.type ≠ sfsTypeDir
  zero : ∀ p ∈ g.grown, g.c.stored p = 0

theorem Starts.zeroed (h : g.Starts) : g.Zeroed := by
  obtain ⟨hinv, htype, hgrown⟩ := h
  refine ⟨hinv, htype, fun p hp => ?_⟩
  rw [hgrown] at hp
  exact absurd hp (Set.notMem_empty p)

/-- **One call.** -/
theorem Zeroed.step {op : FileOp} (h : g.Zeroed) (hok : g.Blank op) (hs : g.Step op g') : g'.Zeroed := by
  obtain ⟨hsucc, hgrown⟩ := hs
  obtain ⟨R, hinv⟩ := h.inv
  have hk := hsucc.keeps hinv h.type
  refine ⟨hk.inv, hk.type ▸ h.type, fun p hp => ?_⟩
  -- a byte that the call grows over, or one that was zero before and that it does not write
  have hzero : p ∉ op.writtenBy g.c ∧ g.c.stored p = 0 := by
    rw [hgrown] at hp
    rcases hp with ⟨hold, hout⟩ | hnew
    · exact ⟨hout, h.zero p hold⟩
    · refine ⟨fun hw => ?_, hok p hnew⟩
      cases op with
      | write buf offset len => exact hnew
      | read buf offset len => exact hw
      | tryseek pos => exact hw
      | truncfile len => exact hw
      | other s => exact hw
  rcases hk.stored p hzero.1 with he | he
  · rw [he, hzero.2]
  · exact he

theorem Zeroed.readsZero (h : g.Zeroed) : g.ReadsZero := by
  intro buf offset len r c' hlen hrun k hk hp
  obtain ⟨R, hinv⟩ := h.inv
  rw [sfsIoNolock_reads_stored hinv h.type hlen hrun hk]
  exact h.zero _ hp

end GrownFile

/-- **Growth reads as zeros.** In every run whose growing calls meet the condition, the bytes that the file has grown over
read as zero until they are written. -/
theorem grow_reads_zero {g : GrownFile} (h : Reaches GrownFile.Starts GrownFile.Step GrownFile.Blank g) : g.ReadsZero := by
  have hz : g.Zeroed := h.invariant (fun _ hs => hs.zeroed) fun _ _ _ hz hok hs => hz.step hok hs
  exact hz.readsZero

/-- Ten bytes are written to the empty file, which is then cut to five and grown to ten again: the old bytes are back. -/
theorem grow_reads_old : ¬ ∀ g, Reaches GrownFile.Starts GrownFile.Step (fun _ _ => True) g → g.ReadsZero := by
  intro h
  have heval : (sfsIoNolock (fun _ => 7) 0 10 true emptyFile).test (fun r c₁ => decide (r.ret = 0) &&
      (sfsTruncfile 5 c₁).test fun _ c₂ => decide (c₂.sin.din.size ≤ 5) &&
        (sfsTruncfile 10 c₂).test fun _ c₃ => (sfsIoNolock (fun _ => 0) 5 5 false c₃).test fun r _ =>
          decide (0 < r.alen ∧ r.buf 0 = 7)) = true := by decide +kernel
  obtain ⟨r₁, c₁, hwrite, hrest⟩ := Outcome.exists_of_test heval
  obtain ⟨hret, hrest⟩ := Bool.and_eq_true_iff.mp hrest
  obtain ⟨_, c₂, hcut, hrest⟩ := Outcome.exists_of_test hrest
  obtain ⟨hsize, hrest⟩ := Bool.and_eq_true_iff.mp hrest
  obtain ⟨_, c₃, hgrow, hrest⟩ := Outcome.exists_of_test hrest
  obtain ⟨r, c₄, hread, hold⟩ := Outcome.exists_of_test hrest
  obtain ⟨halen, hold⟩ := of_decide_eq_true hold
  have hlen : 10 < 2 ^ 64 := by decide
  let write : FileOp := .write (fun _ => 7) 0 10
  let cut : FileOp := .truncfile 5
  let grow : FileOp := .truncfile 10
  let g₀ : GrownFile := ⟨emptyFile, ∅⟩
  let g₁ : GrownFile := ⟨c₁, g₀.grown \ write.writtenBy g₀.c ∪ write.grownBy g₀.c⟩
  let g₂ : GrownFile := ⟨c₂, g₁.grown \ cut.writtenBy g₁.c ∪ cut.grownBy g₁.c⟩
  let g₃ : GrownFile := ⟨c₃, g₂.grown \ grow.writtenBy g₂.c ∪ grow.grownBy g₂.c⟩
  have h₀ : g₀.Starts := ⟨⟨∅, emptyFile_inv⟩, by decide, rfl⟩
  have h₁ : g₀.Step write g₁ := ⟨⟨hlen, r₁, hwrite, of_decide_eq_true hret⟩, rfl⟩
  have h₂ : g₁.Step cut g₂ := ⟨hcut, rfl⟩
  have h₃ : g₂.Step grow g₃ := ⟨hgrow, rfl⟩
  have hgrown : 5 + 0 ∈ g₃.grown := Or.inr ⟨of_decide_eq_true hsize, by decide⟩
  have hzero := h g₃ (((Reaches.start h₀).next trivial h₁ |>.next trivial h₂).next trivial h₃) _ 5 5 r c₄ (by decide)
    hread 0 halen hgrown
  rw [hold] at hzero
  exact absurd hzero (by decide)

/-- The empty file grown to ten bytes. -/
theorem grow_reads_zero_emptyFile : ∃ g : GrownFile, g.c.sin.din.size = 10 ∧ 0 ∈ g.grown ∧ g.ReadsZero := by
  have heval : (sfsTruncfile 10 emptyFile).test (fun _ c => decide (c.sin.din.size = 10)) = true := by decide +kernel
  obtain ⟨_, c, hgrow, hsize⟩ := Outcome.exists_of_test heval
  let grow : FileOp := .truncfile 10
  let g₀ : GrownFile := ⟨emptyFile, ∅⟩
  let g : GrownFile := ⟨c, g₀.grown \ grow.writtenBy g₀.c ∪ grow.grownBy g₀.c⟩
  have h₀ : g₀.Starts := ⟨⟨∅, emptyFile_inv⟩, by decide, rfl⟩
  have hblank : g₀.Blank grow := fun p _ => if_neg (Nat.not_lt_zero _)
  have hstep : g₀.Step grow g := ⟨hgrow, rfl⟩
  have hgrown : 0 ∈ g.grown := Or.inr ⟨Nat.le_refl 0, by decide⟩
  exact ⟨g, of_decide_eq_true hsize, hgrown, grow_reads_zero ((Reaches.start h₀).next hblank hstep)⟩

end Ucore
