import Ucore.Fs.Sfs.Correctness.IoLoop
import Ucore.Fs.Sfs.Correctness.Owned

/-!
# `Fs.Sfs.Correctness.IoSize` — what `sfs_io_nolock` does to the size and the dirty flag

Nothing is assumed of the inode here: its block map may be damaged and its `blocks` may not fit its
`size`. A round of the transfer changes `din->size` never, and sets the dirty flag only when it has to map
a block (`Kept`). At the label `out` the code adds `alen` to an `offset` that has already been advanced
over the head and the full blocks, so these bytes are counted twice; `sfsIoNolock_size` says for which
calls this shows.
-/

namespace Ucore

open SfsCtx

/-! ## One load, in any state -/

/-- Mapping the index `i` has to write a block number into the inode. -/
def SfsCtx.Missing (c : SfsCtx) (i : Nat) : Prop :=
  if h : i < 12 then c.sin.din.direct ⟨i, h⟩ = 0 else c.sin.din.indirect = 0

/-- What mapping an index leaves alone, `mark` saying whether it writes the inode. -/
structure GetKept (c : SfsCtx) (mark : Prop) (c' : SfsCtx) : Prop where
  size : c'.sin.din.size = c.sin.din.size
  type : c'.sin.din.type = c.sin.din.type
  blocks : c'.sin.din.blocks = c.sin.din.blocks
  dirty : c'.sin.dirty = true ↔ c.sin.dirty = true ∨ mark
  slots : c'.sin.dirty = false → c'.sin.din.direct = c.sin.din.direct ∧ c'.sin.din.indirect = c.sin.din.indirect

/-- What loading an index leaves alone. -/
structure Kept (c : SfsCtx) (i : Nat) (c' : SfsCtx) : Prop where
  index_le : i ≤ c.sin.din.blocks
  size : c'.sin.din.size = c.sin.din.size
  type : c'.sin.din.type = c.sin.din.type
  blocks : c'.sin.din.blocks = c.sin.din.blocks + (if i = c.sin.din.blocks then 1 else 0)
  dirty : c'.sin.dirty = true ↔ c.sin.dirty = true ∨ i = c.sin.din.blocks ∧ c.Missing i
  slots : c'.sin.dirty = false → c'.sin.din.direct = c.sin.din.direct ∧ c'.sin.din.indirect = c.sin.din.indirect

section Load

variable {c c' : SfsCtx} {i : Nat} {create : Bool}

theorem onFs_ok {α : Type} {x : SfsM α} {a : α} (h : onFs x c = .ok a c') :
    ∃ s, x c.fs = .ok a s ∧ c' = c.withFs s := by
  unfold onFs Proc.zoom at h
  cases hx : x c.fs with
  | ok b t =>
    simp only [hx, Outcome.ok.injEq] at h
    exact ⟨t, h.1 ▸ rfl, h.2.symm⟩
  | err e t => simp [hx] at h
  | panic p => simp [hx] at h

theorem onFs_err {α : Type} {x : SfsM α} {e : Int} (h : onFs x c = .err e c') :
    ∃ s, x c.fs = .err e s ∧ c' = c.withFs s := by
  unfold onFs Proc.zoom at h
  cases hx : x c.fs with
  | ok b t => simp [hx] at h
  | err e t =>
    simp only [hx, Outcome.err.injEq] at h
    exact ⟨t, h.1 ▸ rfl, h.2.symm⟩
  | panic p => simp [hx] at h

/-- Block 0 is never handed out: the check of the new block would stop the machine. -/
theorem sfsBlockAlloc_ne {s s' : SfsFs} {b : Nat} (h : sfsBlockAlloc s = .ok b s') : b ≠ 0 := by
  unfold sfsBlockAlloc at h
  obtain ⟨ino, s₁, -, h⟩ := Proc.bind_eq_ok.mp h
  obtain ⟨s₂, s₃, -, h⟩ := Proc.bind_eq_ok.mp h
  obtain ⟨-, s₄, -, h⟩ := Proc.bind_eq_ok.mp h
  obtain ⟨-, s₅, -, h⟩ := Proc.bind_eq_ok.mp h
  obtain ⟨_, s₆, huse, h⟩ := Proc.bind_eq_ok.mp h
  obtain ⟨-, s₇, -, h⟩ := Proc.bind_eq_ok.mp h
  simp only [Proc.pure_run, Outcome.ok.injEq] at h
  rintro rfl
  unfold assertInuse sfsBlockInuse at huse
  obtain ⟨t, s₈, ht, -⟩ := Proc.bind_eq_ok.mp huse
  rw [Proc.get_bind, if_neg (fun hc => hc.1 h.1)] at ht
  simp at ht

theorem bmapNewEntry_ent {s s' : SfsFs} {entp ent offset e b : Nat}
    (h : bmapNewEntry entp ent offset s = .ok (e, b) s') : e = ent := by
  unfold bmapNewEntry at h
  obtain ⟨ino, s₁, -, h⟩ := Proc.bind_eq_ok.mp h
  obtain ⟨-, s₂, -, h⟩ := Proc.bind_eq_ok.mp h
  simp only [Proc.pure_run, Outcome.ok.injEq, Prod.mk.injEq] at h
  exact h.1.1.symm

/-- The entry block changes exactly when there was none and one is wanted. -/
theorem sfsBmapGetSubNolock_ent {s s' : SfsFs} {entp j e b : Nat}
    (h : sfsBmapGetSubNolock entp j create s = .ok (e, b) s') :
    e ≠ entp ↔ entp = 0 ∧ create = true := by
  unfold sfsBmapGetSubNolock at h
  obtain ⟨_, s₁, -, h⟩ := Proc.bind_eq_ok.mp h
  by_cases hz : entp = 0
  · simp only [hz, ne_eq, not_true_eq_false, if_false] at h
    cases create with
    | false =>
      simp only [if_true, Proc.pure_run, Outcome.ok.injEq, Prod.mk.injEq] at h
      rw [← h.1.1, hz]
      simp
    | true =>
      simp only [Bool.true_eq_false, if_false] at h
      obtain ⟨ent, s₂, ha, h⟩ := Proc.bind_eq_ok.mp h
      rw [bmapNewEntry_ent h, hz]
      exact iff_of_true (sfsBlockAlloc_ne ha) ⟨rfl, rfl⟩
  · simp only [hz, ne_eq, not_false_eq_true, if_true] at h
    obtain ⟨ino, s₂, -, h⟩ := Proc.bind_eq_ok.mp h
    have he : e = entp := by
      split at h
      · simp only [Proc.pure_run, Outcome.ok.injEq, Prod.mk.injEq] at h
        exact h.1.1.symm
      · exact bmapNewEntry_ent h
    exact iff_of_false (not_not_intro he) fun hc => hz hc.1

theorem bmapGetDirect_kept {b : Nat} (hi : i < 12) (h : bmapGetDirect ⟨i, hi⟩ create c = .ok b c') :
    GetKept c (create = true ∧ c.Missing i) c' := by
  have hmiss : c.Missing i ↔ c.sin.din.direct ⟨i, hi⟩ = 0 := by
    unfold SfsCtx.Missing
    rw [dif_pos hi]
  unfold bmapGetDirect at h
  rw [Proc.get_bind] at h
  by_cases hc : c.sin.din.direct ⟨i, hi⟩ = 0 ∧ create = true
  · rw [if_pos hc] at h
    obtain ⟨ino, c₁, ha, h⟩ := Proc.bind_eq_ok.mp h
    obtain ⟨s, -, rfl⟩ := onFs_ok ha
    simp only [modifyDin, setDirty, Proc.modify_bind, Proc.pure_run, Outcome.ok.injEq] at h
    obtain ⟨-, rfl⟩ := h
    refine ⟨rfl, rfl, rfl, iff_of_true rfl (Or.inr ⟨hc.2, hmiss.mpr hc.1⟩), fun hd => ?_⟩
    exact Bool.noConfusion (show true = false from hd)
  · rw [if_neg hc] at h
    simp only [Proc.pure_run, Outcome.ok.injEq] at h
    obtain ⟨-, rfl⟩ := h
    refine ⟨rfl, rfl, rfl, ⟨Or.inl, fun hd => hd.resolve_right fun hm => ?_⟩, fun _ => ⟨rfl, rfl⟩⟩
    exact hc ⟨hmiss.mp hm.2, hm.1⟩

theorem bmapGetIndirect_kept {b j : Nat} (hi : ¬ i < 12) (h : bmapGetIndirect j create c = .ok b c') :
    GetKept c (create = true ∧ c.Missing i) c' := by
  have hmiss : c.Missing i ↔ c.sin.din.indirect = 0 := by
    unfold SfsCtx.Missing
    rw [dif_neg hi]
  unfold bmapGetIndirect at h
  rw [Proc.get_bind] at h
  obtain ⟨⟨ent, ino⟩, c₁, hs, h⟩ := Proc.bind_eq_ok.mp h
  obtain ⟨s, hsub, rfl⟩ := onFs_ok hs
  have hent := sfsBmapGetSubNolock_ent hsub
  by_cases he : ent ≠ c.sin.din.indirect
  · simp only [if_pos he] at h
    obtain ⟨_, c₂, hc, h⟩ := Proc.bind_eq_ok.mp h
    obtain ⟨-, rfl⟩ := Proc.check_eq_ok.mp hc
    simp only [modifyDin, setDirty, Proc.modify_bind, Proc.pure_run, Outcome.ok.injEq] at h
    obtain ⟨-, rfl⟩ := h
    have hc' := hent.mp he
    refine ⟨rfl, rfl, rfl, iff_of_true rfl (Or.inr ⟨hc'.2, hmiss.mpr hc'.1⟩), fun hd => ?_⟩
    exact Bool.noConfusion (show true = false from hd)
  · simp only [if_neg he, Proc.pure_run, Outcome.ok.injEq] at h
    obtain ⟨-, rfl⟩ := h
    refine ⟨rfl, rfl, rfl, ⟨Or.inl, fun hd => hd.resolve_right fun hm => ?_⟩, fun _ => ⟨rfl, rfl⟩⟩
    exact he (hent.mpr ⟨hmiss.mp hm.2, hm.1⟩)

/-- The check at the end of `sfs_bmap_get_nolock` does not touch the inode. -/
theorem bmapGetInuse_sin {b ino : Nat} {c₁ : SfsCtx}
    (h : (if ino = 0 then pure ino else do
      onFs (assertInuse .bmapGetInuse ino)
      pure ino : SinM Nat) c₁ = .ok b c') : c'.sin = c₁.sin := by
  split at h
  · simp only [Proc.pure_run, Outcome.ok.injEq] at h
    rw [← h.2]
  · obtain ⟨_, c₂, hu, h⟩ := Proc.bind_eq_ok.mp h
    obtain ⟨s, -, rfl⟩ := onFs_ok hu
    simp only [Proc.pure_run, Outcome.ok.injEq] at h
    rw [← h.2]
    rfl

theorem GetKept.congr {mark : Prop} {c₁ : SfsCtx} (h : GetKept c mark c₁) (hs : c'.sin = c₁.sin) :
    GetKept c mark c' := by
  obtain ⟨h1, h2, h3, h4, h5⟩ := h
  constructor <;> rw [hs]
  · exact h1
  · exact h2
  · exact h3
  · exact h4
  · exact h5

theorem sfsBmapGetNolock_kept {b : Nat} (h : sfsBmapGetNolock i create c = .ok b c') :
    GetKept c (create = true ∧ c.Missing i) c' := by
  unfold sfsBmapGetNolock at h
  by_cases hi : i < 12
  · simp only [hi, dite_true] at h
    obtain ⟨ino, c₁, hg, h⟩ := Proc.bind_eq_ok.mp h
    exact (bmapGetDirect_kept hi hg).congr (bmapGetInuse_sin h)
  · simp only [hi, dite_false] at h
    split at h
    · obtain ⟨ino, c₁, hg, h⟩ := Proc.bind_eq_ok.mp h
      exact (bmapGetIndirect_kept hi hg).congr (bmapGetInuse_sin h)
    · simp at h

theorem sfsBmapLoadNolock_kept {b : Nat} (h : sfsBmapLoadNolock i c = .ok b c') : Kept c i c' := by
  unfold sfsBmapLoadNolock at h
  rw [Proc.get_bind] at h
  obtain ⟨_, c₁, hle, h⟩ := Proc.bind_eq_ok.mp h
  obtain ⟨hle, rfl⟩ := Proc.check_eq_ok.mp hle
  obtain ⟨ino, c₂, hg, h⟩ := Proc.bind_eq_ok.mp h
  obtain ⟨_, c₃, hu, h⟩ := Proc.bind_eq_ok.mp h
  obtain ⟨s, -, rfl⟩ := onFs_ok hu
  have hk := sfsBmapGetNolock_kept hg
  simp only [decide_eq_true_eq] at hk h
  by_cases hi : i = c₁.sin.din.blocks
  · simp only [if_pos hi, modifyDin, Proc.modify_bind, Proc.pure_run, Outcome.ok.injEq] at h
    obtain ⟨-, rfl⟩ := h
    refine ⟨hle, hk.size, hk.type, ?_, hk.dirty, hk.slots⟩
    rw [if_pos hi]
    exact congrArg (· + 1) hk.blocks
  · simp only [if_neg hi, Proc.pure_run, Outcome.ok.injEq] at h
    obtain ⟨-, rfl⟩ := h
    refine ⟨hle, hk.size, hk.type, ?_, hk.dirty, hk.slots⟩
    rw [if_neg hi]
    exact hk.blocks

/-- An error comes from the file system part of the call, before the inode is written. -/
theorem sfsBmapGetNolock_err {e : Int} (h : sfsBmapGetNolock i create c = .err e c') : c'.sin = c.sin := by
  have hend : ∀ (ino : Nat) (c₁ : SfsCtx), (if ino = 0 then pure ino else do
      onFs (assertInuse .bmapGetInuse ino)
      pure ino : SinM Nat) c₁ ≠ .err e c' := by
    intro ino c₁ h
    have hf : Fails (fun _ : Int => False) (fun _ => True) (if ino = 0 then pure ino else do
        onFs (assertInuse .bmapGetInuse ino)
        pure ino : SinM Nat) :=
      .of_ite (.of_pure _) (.bind (.zoom (assertInuse_fails trivial trivial trivial _)) fun _ => .of_pure _)
    exact hf.err h
  unfold sfsBmapGetNolock at h
  by_cases hi : i < 12
  · simp only [hi, dite_true] at h
    rcases Proc.bind_eq_err.mp h with h | ⟨ino, c₁, -, h⟩
    · unfold bmapGetDirect at h
      rw [Proc.get_bind] at h
      split at h
      · rcases Proc.bind_eq_err.mp h with ha | ⟨ino, c₁, -, h⟩
        · obtain ⟨s, -, rfl⟩ := onFs_err ha
          rfl
        · simp [modifyDin, setDirty] at h
      · simp at h
    · exact absurd h (hend ino c₁)
  · simp only [hi, dite_false] at h
    split at h
    · rcases Proc.bind_eq_err.mp h with h | ⟨ino, c₁, -, h⟩
      · unfold bmapGetIndirect at h
        rw [Proc.get_bind] at h
        rcases Proc.bind_eq_err.mp h with hs | ⟨⟨ent, ino⟩, c₁, -, h⟩
        · obtain ⟨s, -, rfl⟩ := onFs_err hs
          rfl
        · have hf : Fails (fun _ : Int => False) (fun _ => True) (if ent ≠ c.sin.din.indirect then do
              Proc.check .bmapGetIndirect (c.sin.din.indirect = 0)
              modifyDin fun din => { din with indirect := ent }
              setDirty true
              pure ino
            else pure ino : SinM Nat) :=
            .of_ite (.bind (.of_check trivial _) fun _ => .bind (.of_modify _) fun _ =>
              .bind (.of_modify _) fun _ => .of_pure _) (.of_pure _)
          exact absurd (hf.err h) id
      · exact absurd h (hend ino c₁)
    · simp at h

theorem sfsBmapLoadNolock_err {e : Int} (h : sfsBmapLoadNolock i c = .err e c') : c'.sin = c.sin := by
  unfold sfsBmapLoadNolock at h
  rw [Proc.get_bind] at h
  rcases Proc.bind_eq_err.mp h with hc | ⟨_, c₁, hc, h⟩
  · exact absurd hc Proc.check_ne_err
  · obtain ⟨-, rfl⟩ := Proc.check_eq_ok.mp hc
    rcases Proc.bind_eq_err.mp h with hg | ⟨ino, c₂, -, h⟩
    · exact sfsBmapGetNolock_err hg
    · have hf : Fails (fun _ : Int => False) (fun _ => True) (do
          onFs (assertInuse .bmapLoadInuse ino)
          if decide (i = c₁.sin.din.blocks) = true then do
            modifyDin fun din => { din with blocks := din.blocks + 1 }
            pure ino
          else pure ino : SinM Nat) :=
        .bind (.zoom (assertInuse_fails trivial trivial trivial _)) fun _ =>
          .of_ite (.bind (.of_modify _) fun _ => .of_pure _) (.of_pure _)
      exact absurd (hf.err h) id

end Load

/-! ## A round, and the rounds so far -/

variable {write : Bool} {start endpos a : Nat} {buf buf' : Bytes} {c c' c'' : SfsCtx}

theorem ioPiece_kept (h : ioPiece write start endpos a buf c = .ok buf' c') :
    Kept c ((start + a) / 4096) c' := by
  unfold ioPiece at h
  obtain ⟨ino, c₁, hl, h⟩ := Proc.bind_eq_ok.mp h
  obtain ⟨s, -, rfl⟩ := onFs_ok h
  have hk := sfsBmapLoadNolock_kept hl
  exact ⟨hk.index_le, hk.size, hk.type, hk.blocks, hk.dirty, hk.slots⟩

/-- A round that fails has loaded its block, or nothing happened to the inode. -/
theorem ioPiece_err {e : Int} (h : ioPiece write start endpos a buf c = .err e c') :
    c'.sin = c.sin ∨ Kept c ((start + a) / 4096) c' := by
  unfold ioPiece at h
  rcases Proc.bind_eq_err.mp h with h | ⟨ino, c₁, hl, h⟩
  · exact Or.inl (sfsBmapLoadNolock_err h)
  · obtain ⟨s, -, rfl⟩ := onFs_err h
    have hk := sfsBmapLoadNolock_kept hl
    exact Or.inr ⟨hk.index_le, hk.size, hk.type, hk.blocks, hk.dirty, hk.slots⟩

/-- A transfer up to byte `pos` has to map a block at an index the file does not have, in a slot of the
    inode that is empty. -/
def SfsCtx.MapsMissing (c : SfsCtx) (start pos : Nat) : Prop :=
  start < pos ∧ ∃ i, start / 4096 ≤ i ∧ 4096 * i < pos ∧ c.sin.din.blocks ≤ i ∧ c.Missing i

theorem SfsCtx.MapsMissing.mono {pos pos' : Nat} (h : c.MapsMissing start pos) (hle : pos ≤ pos') :
    c.MapsMissing start pos' := by
  obtain ⟨hlt, i, h1, h2, h3, h4⟩ := h
  exact ⟨by omega, i, h1, by omega, h3, h4⟩

/-- What the rounds up to byte `a` have done to the inode. -/
structure RoundsKept (start : Nat) (c : SfsCtx) (a : Nat) (c' : SfsCtx) : Prop where
  size : c'.sin.din.size = c.sin.din.size
  blocks_le : c.sin.din.blocks ≤ c'.sin.din.blocks
  grown : c'.sin.din.blocks = c.sin.din.blocks ∨
    a ≠ 0 ∧ 4096 * c'.sin.din.blocks < start + a + 4096
  dirty : c'.sin.dirty = true ↔ c.sin.dirty = true ∨ c.MapsMissing start (start + a)
  slots : c'.sin.dirty = false → c'.sin.din.direct = c.sin.din.direct ∧ c'.sin.din.indirect = c.sin.din.indirect

theorem SfsCtx.missing_congr (hdir : c'.sin.din.direct = c.sin.din.direct)
    (hind : c'.sin.din.indirect = c.sin.din.indirect) (i : Nat) : c'.Missing i ↔ c.Missing i := by
  unfold SfsCtx.Missing
  rw [hdir, hind]

theorem RoundsKept.next {n : Nat} (h : RoundsKept start c a c') (hk : Kept c' ((start + a) / 4096) c'')
    (hal : a = 0 ∨ (start + a) % 4096 = 0) (hpos : 0 < n) (hn : (start + a) % 4096 + n ≤ 4096) :
    RoundsKept start c (a + n) c'' := by
  have hgrown := h.grown
  have hble := h.blocks_le
  have hile := hk.index_le
  -- the index loaded is new for this call exactly if the file did not have it at the start
  have hnew : (start + a) / 4096 = c'.sin.din.blocks ↔ c.sin.din.blocks ≤ (start + a) / 4096 := by
    omega
  refine ⟨hk.size.trans h.size, ?_, ?_, ?_, ?_⟩
  · rw [hk.blocks]
    split <;> omega
  · rw [hk.blocks]
    split <;> omega
  · cases hd : c'.sin.dirty with
    | true =>
      have hd' := h.dirty.mp hd
      refine iff_of_true (hk.dirty.mpr (Or.inl hd)) (hd'.imp id fun hm => hm.mono ?_)
      omega
    | false =>
      obtain ⟨hdir, hind⟩ := h.slots hd
      have hno : ¬ (c.sin.dirty = true ∨ c.MapsMissing start (start + a)) := by
        rw [← h.dirty, hd]
        exact Bool.false_ne_true
      have hcd : ¬ c.sin.dirty = true := fun hc => hno (Or.inl hc)
      rw [hk.dirty, hd, hnew, SfsCtx.missing_congr hdir hind]
      constructor
      · intro hc
        obtain ⟨hb, hm⟩ := hc.resolve_left Bool.false_ne_true
        exact Or.inr ⟨by omega, _, by omega, by omega, hb, hm⟩
      · intro hc
        obtain ⟨-, i, h1, h2, h3, h4⟩ := hc.resolve_left hcd
        have hi : i = (start + a) / 4096 := by
          by_contra hne
          apply hno
          exact Or.inr ⟨by omega, i, h1, by omega, h3, h4⟩
        exact Or.inr (hi ▸ ⟨h3, h4⟩)
  · intro hd
    have hd' : c'.sin.dirty = false := by
      cases hc : c'.sin.dirty with
      | false => rfl
      | true => exact absurd (hk.dirty.mpr (Or.inl hc)) (by rw [hd]; exact Bool.false_ne_true)
    obtain ⟨h1, h2⟩ := hk.slots hd
    obtain ⟨h3, h4⟩ := h.slots hd'
    exact ⟨h1.trans h3, h2.trans h4⟩

theorem pieceSize_le : (start + a) % 4096 + pieceSize start endpos a ≤ 4096 := by
  unfold pieceSize
  omega

theorem IoDone.kept (h : IoDone write start endpos buf c a buf' c') : RoundsKept start c a c' := by
  induction h with
  | start =>
    refine ⟨rfl, Nat.le_refl _, Or.inl rfl, ⟨Or.inl, fun hd => hd.resolve_right fun hm => ?_⟩, fun _ => ⟨rfl, rfl⟩⟩
    exact absurd hm.1 (Nat.lt_irrefl _)
  | next hd hlt hp ih => exact ih.next (ioPiece_kept hp) (hd.aligned hlt) (pieceSize_pos hlt) pieceSize_le

/-- The inode after a round that failed. -/
theorem IoDone.kept_err {e : Int} (h : IoDone write start endpos buf c a buf' c') (hlt : start + a < endpos)
    (hp : ioPiece write start endpos a buf' c' = .err e c'') :
    ∃ n, start + n ≤ endpos ∧ RoundsKept start c n c'' := by
  rcases ioPiece_err hp with hs | hk
  · have hr := h.kept
    refine ⟨a, Nat.le_of_lt hlt, ?_⟩
    constructor <;> rw [hs]
    · exact hr.size
    · exact hr.blocks_le
    · exact hr.grown
    · exact hr.dirty
    · exact hr.slots
  · refine ⟨a + pieceSize start endpos a, ?_, h.kept.next hk (h.aligned hlt) (pieceSize_pos hlt) pieceSize_le⟩
    unfold pieceSize
    omega

/-! ## The size after a call -/

/-- A write that returns 0 ends with `size = max(size, offset + *alenp)`; a read leaves the size and the
    dirty flag alone. -/
def IoKeepsSize (c : SfsCtx) (offset : Nat) (write : Bool) (r : IoResult) (c' : SfsCtx) : Prop :=
  if write = true then r.ret = 0 → c'.sin.din.size = max c.sin.din.size (offset + r.alen)
  else c'.sin.din.size = c.sin.din.size ∧ c'.sin.dirty = c.sin.dirty

/-- The bytes that `offset` is advanced over either are none, or still lie inside the file when they are
    counted a second time; and a read finds all the blocks it needs. -/
def IoCountsOnce (c : SfsCtx) (offset len : Nat) (write : Bool) : Prop :=
  (ioStepped offset (ioLimit c offset len write) = 0 ∨
    ioLimit c offset len write + ioStepped offset (ioLimit c offset len write) ≤ c.sin.din.size) ∧
  (write = true ∨ c.sin.dirty = true ∨ ¬ c.MapsMissing offset (ioLimit c offset len write))

theorem size_reach (c : SfsCtx) (n : Nat) : (c.reach n).sin.din.size = max c.sin.din.size n := by
  unfold SfsCtx.reach
  split
  · exact (Nat.max_eq_right (Nat.le_of_lt ‹_›)).symm
  · exact (Nat.max_eq_left (Nat.le_of_not_lt ‹_›)).symm

theorem dirty_reach (c : SfsCtx) (n : Nat) :
    (c.reach n).sin.dirty = true ↔ c.sin.dirty = true ∨ c.sin.din.size < n := by
  unfold SfsCtx.reach
  split
  · exact iff_of_true rfl (Or.inr ‹_›)
  · exact ⟨Or.inl, fun h => h.resolve_right ‹_›⟩

/-- A read never goes past the end of the file. -/
theorem ioLimit_read_le (c : SfsCtx) (offset len : Nat) : ioLimit c offset len false ≤ c.sin.din.size := by
  unfold ioLimit
  rw [if_pos rfl]
  exact Nat.min_le_right ..

/-- Rounds that went through before another one have been stepped over. -/
theorem IoDone.le_stepped (h : IoDone write start endpos buf c a buf' c') (hlt : start + a < endpos) :
    a ≤ ioStepped start endpos := by
  have hal := h.aligned hlt
  unfold ioStepped ioTailSize
  split <;> omega

theorem ioStepped_zero (h : endpos ≤ start) : ioStepped start endpos = 0 := by
  unfold ioStepped
  omega

theorem not_mapsMissing (h : endpos ≤ start) : ¬ c.MapsMissing start endpos := fun hm =>
  absurd hm.1 (Nat.not_lt.mpr h)

/-- A call without bytes to transfer meets the condition, and keeps the size. -/
theorem ioKeepsSize_idle (write : Bool) (buf : Bytes) {offset : Nat} (len : Nat) (ret : Int) (hoff : offset ≤ c.sin.din.size) :
    IoKeepsSize c offset write ⟨ret, 0, buf⟩ c ∧
      (ioLimit c offset len write ≤ offset → IoCountsOnce c offset len write) := by
  constructor
  · unfold IoKeepsSize
    split
    · exact fun _ => (Nat.max_eq_left hoff).symm
    · exact ⟨rfl, rfl⟩
  · exact fun hle => ⟨Or.inl (ioStepped_zero hle), Or.inr (Or.inr (not_mapsMissing hle))⟩

/-- A transfer that went through keeps the size exactly under the condition. -/
theorem ioKeepsSize_done {offset len : Nat} {b : Bytes} (hlt : start < endpos) (hs : offset = start)
    (hend : ioLimit c start len write = endpos) (hr : RoundsKept start c (endpos - start) c') :
    IoKeepsSize c offset write ⟨0, endpos - start, b⟩ (c'.reach (endpos + ioStepped start endpos)) ↔
      IoCountsOnce c offset len write := by
  subst hs
  unfold IoKeepsSize IoCountsOnce
  rw [hend, size_reach, hr.size]
  cases write with
  | true =>
    rw [if_pos rfl]
    simp only [forall_const, true_or, and_true]
    omega
  | false =>
    have hle : endpos ≤ c.sin.din.size := hend ▸ ioLimit_read_le c offset len
    have hpos : offset + (endpos - offset) = endpos := by omega
    have hd := hr.dirty
    rw [hpos] at hd
    have hreach := dirty_reach c' (endpos + ioStepped offset endpos)
    rw [hr.size, hd] at hreach
    have hsize : max c.sin.din.size (endpos + ioStepped offset endpos) = c.sin.din.size ↔
        ioStepped offset endpos = 0 ∨ endpos + ioStepped offset endpos ≤ c.sin.din.size := by
      omega
    rw [if_neg Bool.false_ne_true, hsize]
    apply and_congr_right
    intro hc
    have hc' : ¬ c.sin.din.size < endpos + ioStepped offset endpos := by omega
    rw [Bool.eq_iff_iff, hreach]
    by_cases hdirty : c.sin.dirty = true
    · simp [hdirty]
    · simp [hdirty, hc']

/-- A transfer that failed keeps the size under the condition. -/
theorem ioKeepsSize_err {offset len n : Nat} {b : Bytes} {r : Int} (hr : r ≠ 0) (hs : offset = start)
    (hoff : offset ≤ c.sin.din.size) (hend : ioLimit c start len write = endpos) (hlt : start + a < endpos)
    (hstep : a ≤ ioStepped start endpos) (hn : start + n ≤ endpos) (hk : RoundsKept start c n c'')
    (hc : IoCountsOnce c offset len write) :
    IoKeepsSize c offset write ⟨r, a, b⟩ (c''.reach (start + a + a)) := by
  subst hs
  unfold IoCountsOnce at hc
  rw [hend] at hc
  unfold IoKeepsSize
  cases write with
  | true =>
    rw [if_pos rfl]
    exact fun h0 => absurd h0 hr
  | false =>
    have hsmall : offset + a + a ≤ c.sin.din.size := by omega
    rw [if_neg Bool.false_ne_true, size_reach, hk.size, Bool.eq_iff_iff, dirty_reach, hk.size, hk.dirty]
    refine ⟨Nat.max_eq_left hsmall, ?_⟩
    rcases hc.2 with hw | hd | hm
    · exact absurd hw Bool.false_ne_true
    · simp [hd]
    · have hm' : ¬ c.MapsMissing offset (offset + n) := fun h => hm (h.mono hn)
      simp [hm', Nat.not_lt.mpr hsmall]

end Ucore
