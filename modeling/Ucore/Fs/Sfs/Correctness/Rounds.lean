import Ucore.Fs.Sfs.Correctness.IoLoop
import Ucore.Fs.Sfs.Correctness.Load

/-!
# `Fs.Sfs.Correctness.Rounds` — a transfer on a file that satisfies the file invariant

On a sound file (`FileInv`) a round of `sfs_io_nolock` has three ends: its block is there and is read or
written, its block cannot be loaded, or its block is loaded and the transfer fails (`ioPiece_cases`). It
stops the machine exactly when its index is past the end of the file or past the block map. `Rounds` is
what any number of rounds keeps, and `needAll` counts the free blocks they use.
-/

namespace Ucore

open SfsFs SfsCtx

variable {c c' c'' : SfsCtx} {R : Set Nat} {i a n start endpos : Nat} {buf buf' : Bytes} {write : Bool}

/-! ## The data transfer of a round -/

theorem pieceOp_write {s : SfsFs} {b : Nat} (buf : Bytes) (h : s.Ready) (hb : s.InUse b) (hlt : start + a < endpos) : ∃ k x,
    (pieceOp true start endpos a buf b s = .ok buf ((s.setBlk b (memcpy (s.dev.blk b) ((start + a) % 4096) buf a
      (pieceSize start endpos a))).scratch k x)) ∨
    ∃ e, e ≠ 0 ∧ ¬ s.Healthy ∧ pieceOp true start endpos a buf b s = .err e (s.scratch k x) := by
  have hle : (start + a) % 4096 + pieceSize start endpos a ≤ 4096 := by
    unfold pieceSize
    omega
  unfold pieceOp
  by_cases hfull : (start + a) % 4096 = 0 ∧ start + a + 4096 ≤ endpos
  · have hn : pieceSize start endpos a = 4096 := by
      unfold pieceSize
      omega
    obtain ⟨x, hc⟩ := sfsWblock_cases buf a h hb.ne hb.lt
    rw [if_pos hfull, hfull.1, hn]
    refine ⟨1, x, ?_⟩
    rcases hc with ⟨-, hrun⟩ | ⟨hf, hrun⟩
    · exact Or.inl hrun
    · exact Or.inr ⟨_, hf, fun hh => hf (hh.fault 0), hrun⟩
  · obtain ⟨k, x, hc⟩ := sfsWbuf_cases buf a h hb.ne hb.lt (Nat.mod_lt _ (by decide)) hle
    rw [if_neg hfull]
    unfold sfsBufOp
    rw [if_pos rfl]
    rcases hc with ⟨-, -, hrun⟩ | ⟨hf, e, he, hrun⟩
    · exact ⟨2, x, Or.inl (Proc.bind_ok hrun)⟩
    · exact ⟨k, x, Or.inr ⟨e, he, fun hh => hf ⟨hh.fault 0, hh.fault 1⟩, Proc.bind_err hrun⟩⟩

theorem pieceOp_read {s : SfsFs} {b : Nat} (buf : Bytes) (h : s.Ready) (hb : s.InUse b) (hlt : start + a < endpos) : ∃ k x,
    (pieceOp false start endpos a buf b s = .ok (memcpy buf a (s.dev.blk b) ((start + a) % 4096)
      (pieceSize start endpos a)) (s.scratch k x)) ∨
    ∃ e, e ≠ 0 ∧ ¬ s.Healthy ∧ pieceOp false start endpos a buf b s = .err e (s.scratch k x) := by
  have hle : (start + a) % 4096 + pieceSize start endpos a ≤ 4096 := by
    unfold pieceSize
    omega
  unfold pieceOp
  by_cases hfull : (start + a) % 4096 = 0 ∧ start + a + 4096 ≤ endpos
  · have hn : pieceSize start endpos a = 4096 := by
      unfold pieceSize
      omega
    obtain ⟨x, hc⟩ := sfsRblock_cases buf a h hb.ne hb.lt
    rw [if_pos hfull, hfull.1, hn]
    refine ⟨1, x, ?_⟩
    rcases hc with ⟨-, hrun⟩ | ⟨hf, hrun⟩
    · exact Or.inl hrun
    · exact Or.inr ⟨_, hf, fun hh => hf (hh.fault 0), hrun⟩
  · obtain ⟨x, hc⟩ := sfsRbuf_cases buf a h hb.ne hb.lt (Nat.mod_lt _ (by decide)) hle
    rw [if_neg hfull]
    refine ⟨1, x, ?_⟩
    rcases hc with ⟨-, hrun⟩ | ⟨hf, hrun⟩
    · exact Or.inl hrun
    · exact Or.inr ⟨_, hf, fun hh => hf (hh.fault 0), hrun⟩

/-! ## Writing a data block -/

/-- The data block at index `i` gets the content `x`. -/
def SfsCtx.setData (c : SfsCtx) (i : Nat) (x : Bytes) : SfsCtx := c.withFs (c.fs.setBlk (c.lookup i) x)

namespace SfsCtx.FileInv

/-- Data blocks are not part of the block map. -/
theorem lookup_setData (h : FileInv c R) (hi : i < 1036) (hz : c.lookup i ≠ 0) (x : Bytes) (j : Nat) :
    (c.setData i x).lookup j = c.lookup j :=
  @lookup_congr c (c.setData i x) rfl rfl
    (fun _ => blk_setBlk_of_ne _ _ (Ne.symm (h.lookup_ne_indirect hi hz))) j

theorem setData (h : FileInv c R) (hi : i < 1036) (hz : c.lookup i ≠ 0) (x : Bytes) :
    FileInv (c.setData i x) R := by
  have hlook : ∀ j, (c.setData i x).lookup j = c.lookup j := h.lookup_setData hi hz x
  have hslot : ∀ t, (c.setData i x).slot t = c.slot t := by
    intro t
    cases t with
    | data j => exact hlook j
    | entryBlock => rfl
  refine ⟨h.ready.setBlk, fun t ht => ?_, fun t u => ?_, fun b hb => ?_, fun t => ?_, fun j hj => ?_, h.blocks_le⟩
  · rw [hslot] at ht ⊢
    exact (h.use t ht).setBlk
  · rw [hslot, hslot]
    exact h.inj t u
  · exact (h.reserved b hb).imp id fun hu => hu.setBlk
  · rw [hslot]
    exact h.apart t
  · rw [hlook]
    exact h.dense j hj

theorem grows_setData (h : FileInv c R) (x : Bytes) : Grows {c.lookup i} c.fs (c.setData i x).fs :=
  (Grows.refl h.ready).setBlk (Or.inl rfl)

end SfsCtx.FileInv

/-! ## One round -/

theorem sfsBmapLoadNolock_beyond (h : c.sin.din.blocks < i) : sfsBmapLoadNolock i c = .panic .bmapLoadIndex := by
  unfold sfsBmapLoadNolock
  rw [Proc.get_bind]
  exact Proc.check_bind_neg (Nat.not_le.mpr h) _ _

theorem sfsBmapLoadNolock_outOfRange (h : i ≤ c.sin.din.blocks) (hi : 1036 ≤ i) :
    sfsBmapLoadNolock i c = .panic .indexOutOfRange := by
  unfold sfsBmapLoadNolock
  rw [Proc.get_bind, Proc.check_bind_pos h]
  exact Proc.bind_panic (sfsBmapGetNolock_outOfRange _ hi)

/-- What a round leaves when its block `b`, at the index `i` of the loaded file `c₁`, was transferred. -/
def roundState (write : Bool) (start endpos a : Nat) (buf : Bytes) (i : Nat) (c₁ : SfsCtx) : SfsCtx :=
  if write = true then
    c₁.setData i (memcpy (c₁.fs.dev.blk (c₁.lookup i)) ((start + a) % 4096) buf a (pieceSize start endpos a))
  else c₁

def roundBuf (write : Bool) (start endpos a : Nat) (buf : Bytes) (i : Nat) (c₁ : SfsCtx) : Bytes :=
  if write = true then buf
  else memcpy buf a (c₁.fs.dev.blk (c₁.lookup i)) ((start + a) % 4096) (pieceSize start endpos a)

/-- **The ends of a round** whose index is within the file, or the next one, and within the block map. -/
theorem ioPiece_cases (write : Bool) (buf : Bytes) (h : FileInv c R) (hlt : start + a < endpos)
    (hi : i = (start + a) / 4096) (hib : i ≤ c.sin.din.blocks) (hi' : i < 1036) :
    (∃ b c₁ k x, Loaded R i b c c₁ ∧ ioPiece write start endpos a buf c
      = .ok (roundBuf write start endpos a buf i c₁) ((roundState write start endpos a buf i c₁).scratch k x)) ∨
    (∃ b c₁ k x e, Loaded R i b c c₁ ∧ e ≠ 0 ∧ ¬ c.fs.Healthy ∧
      ioPiece write start endpos a buf c = .err e (c₁.scratch k x)) ∨
    ∃ e s', e ≠ 0 ∧ LoadFails c i s' ∧ sfsBmapLoadNolock i c = .err e (c.withFs s') ∧
      ioPiece write start endpos a buf c = .err e (c.withFs s') := by
  unfold ioPiece
  rw [← hi]
  rcases sfsBmapLoadNolock_cases h hib hi' with ⟨b, c₁, hrun, hl⟩ | ⟨e, s', he, hrun, hf⟩
  · rw [Proc.bind_ok hrun]
    have hsick : ∀ {e : Int} {k : Nat} {x : Bytes}, e ≠ 0 ∧ ¬ c₁.fs.Healthy ∧
        pieceOp write start endpos a buf b c₁.fs = .err e (c₁.fs.scratch k x) →
        e ≠ 0 ∧ ¬ c.fs.Healthy ∧ onFs (pieceOp write start endpos a buf b) c₁ = .err e (c₁.scratch k x) := by
      rintro e k x ⟨he, hn, hp⟩
      exact ⟨he, fun hh => hn (hl.grows.static.healthy hh), Proc.zoom_err hp⟩
    cases write with
    | true =>
      obtain ⟨k, x, hp | ⟨e, hp⟩⟩ := pieceOp_write buf hl.inv.ready hl.inUse hlt
      · refine Or.inl ⟨b, c₁, k, x, hl, ?_⟩
        unfold roundBuf roundState SfsCtx.setData
        rw [hl.look, if_pos rfl, if_pos rfl]
        exact Proc.zoom_ok hp
      · exact Or.inr (Or.inl ⟨b, c₁, k, x, e, hl, hsick hp⟩)
    | false =>
      obtain ⟨k, x, hp | ⟨e, hp⟩⟩ := pieceOp_read buf hl.inv.ready hl.inUse hlt
      · refine Or.inl ⟨b, c₁, k, x, hl, ?_⟩
        unfold roundBuf roundState
        rw [hl.look, if_neg Bool.false_ne_true, if_neg Bool.false_ne_true]
        exact Proc.zoom_ok hp
      · exact Or.inr (Or.inl ⟨b, c₁, k, x, e, hl, hsick hp⟩)
  · exact Or.inr (Or.inr ⟨e, s', he, hf, hrun, Proc.bind_err hrun⟩)

/-- A round that goes through had its index in range. -/
theorem ioPiece_done (h : FileInv c R) (hlt : start + a < endpos)
    (hp : ioPiece write start endpos a buf c = .ok buf' c') :
    ∃ b c₁ k x, (start + a) / 4096 ≤ c.sin.din.blocks ∧ (start + a) / 4096 < 1036 ∧
      Loaded R ((start + a) / 4096) b c c₁ ∧
      buf' = roundBuf write start endpos a buf ((start + a) / 4096) c₁ ∧
      c' = (roundState write start endpos a buf ((start + a) / 4096) c₁).scratch k x := by
  have hstop : ∀ p, sfsBmapLoadNolock ((start + a) / 4096) c ≠ .panic p := by
    intro p hc
    unfold ioPiece at hp
    rw [Proc.bind_panic hc] at hp
    cases hp
  have hib : (start + a) / 4096 ≤ c.sin.din.blocks :=
    Nat.le_of_not_lt fun hgt => hstop _ (sfsBmapLoadNolock_beyond hgt)
  have hi' : (start + a) / 4096 < 1036 :=
    Nat.lt_of_not_le fun hge => hstop _ (sfsBmapLoadNolock_outOfRange hib hge)
  rcases ioPiece_cases write buf h hlt rfl hib hi' with
    ⟨b, c₁, k, x, hl, hrun⟩ | ⟨b, c₁, k, x, e, -, -, -, hrun⟩ | ⟨e, s', -, -, -, hrun⟩
  · rw [hp, Outcome.ok.injEq] at hrun
    exact ⟨b, c₁, k, x, hib, hi', hl, hrun⟩
  · rw [hp] at hrun
    cases hrun
  · rw [hp] at hrun
    cases hrun

/-! ## Growing a file -/

namespace SfsCtx

/-- The blocks a file owns. -/
def owned (c : SfsCtx) : Set Nat := {x | x ≠ 0 ∧ ∃ t, c.slot t = x}

/-- How many free blocks it takes to have `t` blocks. -/
def needAll (c : SfsCtx) (t : Nat) : Nat :=
  t - c.sin.din.blocks + if c.sin.din.blocks < t ∧ 12 < t ∧ c.sin.din.indirect = 0 then 1 else 0

end SfsCtx

/-- What loading indices and writing their blocks does to a file. -/
structure Grown (R : Set Nat) (c c' : SfsCtx) : Prop where
  inv : FileInv c' R
  grows : Grows c.owned c.fs c'.fs
  blocks_le : c.sin.din.blocks ≤ c'.sin.din.blocks
  lookup : ∀ j, j < c.sin.din.blocks → c'.lookup j = c.lookup j
  fresh : ∀ t, c'.slot t = c.slot t ∨ c.fs.Free (c'.slot t)
  size : c'.sin.din.size = c.sin.din.size
  type : c'.sin.din.type = c.sin.din.type
  nlinks : c'.sin.din.nlinks = c.sin.din.nlinks
  ino : c'.sin.ino = c.sin.ino
  room : ∀ t, c'.sin.din.blocks ≤ t →
    c.fs.freemap.setBits + c'.needAll t = c'.fs.freemap.setBits + c.needAll t
  complete : Complete c R → Complete c' R
  clean : c'.sin.dirty = false → c.sin.dirty = false ∧ c'.sin.din.direct = c.sin.din.direct ∧
    c'.sin.din.indirect = c.sin.din.indirect

namespace Grown

theorem refl (h : FileInv c R) : Grown R c c :=
  ⟨h, .refl h.ready, Nat.le_refl _, fun _ _ => rfl, fun _ => Or.inl rfl, rfl, rfl, rfl, rfl, fun _ _ => rfl, id,
    fun hd => ⟨hd, rfl, rfl⟩⟩

theorem trans (h : Grown R c c') (h' : Grown R c' c'') : Grown R c c'' := by
  refine ⟨h'.inv, ?_, Nat.le_trans h.blocks_le h'.blocks_le, fun j hj => ?_, fun t => ?_, h'.size.trans h.size,
    h'.type.trans h.type, h'.nlinks.trans h.nlinks, h'.ino.trans h.ino, fun t ht => ?_,
    fun hc => h'.complete (h.complete hc), fun hd => ?_⟩
  · apply h.grows.andThen h'.grows
    rintro _ ⟨hne, t, rfl⟩
    rcases h.fresh t with he | hf
    · exact Or.inl ⟨hne, t, he.symm⟩
    · exact Or.inr hf
  · rw [h'.lookup j (Nat.lt_of_lt_of_le hj h.blocks_le), h.lookup j hj]
  · rcases h'.fresh t with he | hf
    · rw [he]
      exact h.fresh t
    · exact Or.inr (h.grows.free hf)
  · have h1 := h.room t (Nat.le_trans h'.blocks_le ht)
    have h2 := h'.room t ht
    omega
  · obtain ⟨hd', h1, h2⟩ := h'.clean hd
    obtain ⟨hd'', h3, h4⟩ := h.clean hd'
    exact ⟨hd'', h1.trans h3, h2.trans h4⟩

theorem scratch (h : Grown R c c') {k : Nat} {x : Bytes} : Grown R c (c'.scratch k x) :=
  ⟨h.inv.scratch, h.grows.scratch, h.blocks_le, h.lookup, h.fresh, h.size, h.type, h.nlinks, h.ino, h.room,
    fun hc y hy => h.complete hc y ⟨hy.ne, hy.lt, hy.bit⟩, h.clean⟩

end Grown

theorem Loaded.room {b t : Nat} (hl : Loaded R i b c c') (hib : i ≤ c.sin.din.blocks)
    (hle : c'.sin.din.blocks ≤ t) :
    c.fs.freemap.setBits + c'.needAll t = c'.fs.freemap.setBits + c.needAll t := by
  have hblocks := hl.blocks
  rcases Nat.lt_or_eq_of_le hib with hlt | heq
  · obtain ⟨hclean, -, hsin⟩ := hl.old hlt
    unfold SfsCtx.needAll
    rw [hsin, hclean.1]
  · obtain ⟨-, -, hbits⟩ := hl.new heq
    unfold SfsCtx.need at hbits
    unfold SfsCtx.needAll
    by_cases h12 : i < 12
    · rw [hl.indirect (Or.inl h12)]
      rw [if_pos h12] at hbits
      split <;> split <;> omega
    · by_cases hz : c.sin.din.indirect = 0
      · have hne : c'.sin.din.indirect ≠ 0 := by
          intro h0
          have hlook := hl.look
          rw [lookup_missing h12 h0] at hlook
          exact hl.inUse.ne hlook.symm
        rw [if_neg h12, if_pos hz] at hbits
        rw [if_neg (fun hc => hne hc.2.2), if_pos ⟨by omega, by omega, hz⟩]
        omega
      · rw [hl.indirect (Or.inr hz)]
        rw [if_neg h12, if_neg hz] at hbits
        rw [if_neg (fun hc => hz hc.2.2), if_neg (fun hc => hz hc.2.2)]
        omega

/-- One index. -/
theorem Loaded.grown {b : Nat} (h : FileInv c R) (hi' : i < 1036) (hib : i ≤ c.sin.din.blocks)
    (hl : Loaded R i b c c') : Grown R c c' := by
  have hblocks := hl.blocks
  refine ⟨hl.inv, ?_, by omega, fun j hj => ?_, fun t => ?_, hl.size, hl.type, hl.nlinks, hl.ino,
    fun t ht => hl.room hib ht, hl.complete, hl.clean⟩
  · apply hl.grows.mono
    rintro x ⟨-, hne, rfl⟩
    exact ⟨hne, .entryBlock, rfl⟩
  · rcases Nat.lt_or_eq_of_le hib with hlt | heq
    · by_cases hji : j = i
      · obtain ⟨-, hblk, hsin⟩ := hl.old hlt
        exact lookup_congr (by rw [hsin]) (by rw [hsin]) (fun _ => by rw [hblk]) j
      · exact hl.other j (by have := h.blocks_le; omega) hji
    · exact hl.other j (by have := h.blocks_le; omega) (by omega)
  · cases t with
    | entryBlock => exact hl.entryBlock
    | data j =>
      by_cases hji : j.val = i
      · rcases Nat.lt_or_eq_of_le hib with hlt | heq
        · obtain ⟨-, hblk, hsin⟩ := hl.old hlt
          exact Or.inl (lookup_congr (by rw [hsin]) (by rw [hsin]) (fun _ => by rw [hblk]) j)
        · refine Or.inr ?_
          show c.fs.Free (c'.lookup j)
          rw [hji, hl.look]
          exact (hl.new heq).1
      · exact Or.inl (hl.other j j.isLt hji)

/-- Writing a data block. -/
theorem Grown.setData (h : FileInv c R) (hi' : i < 1036) (hz : c.lookup i ≠ 0) (x : Bytes) :
    Grown R c (c.setData i x) := by
  have hlook := h.lookup_setData hi' hz x
  have hslot : ∀ t, (c.setData i x).slot t = c.slot t := by
    intro t
    cases t with
    | data j => exact hlook j
    | entryBlock => rfl
  refine ⟨h.setData hi' hz x, ?_, Nat.le_refl _, fun j _ => hlook j, fun t => Or.inl (hslot t), rfl, rfl, rfl, rfl,
    fun _ _ => rfl, fun hc y hy => ?_, fun hd => ⟨hd, rfl, rfl⟩⟩
  · apply (h.grows_setData x).mono
    rintro y rfl
    exact ⟨hz, .data ⟨i, hi'⟩, rfl⟩
  · refine (hc y ⟨hy.ne, hy.lt, hy.bit⟩).imp id ?_
    rintro ⟨t, ht⟩
    exact ⟨t, (hslot t).trans ht⟩

/-! ## The rounds so far -/

theorem ioPiece_grown (h : FileInv c R) (hlt : start + a < endpos)
    (hp : ioPiece write start endpos a buf c = .ok buf' c') :
    Grown R c c' ∧ c'.sin.din.blocks = max c.sin.din.blocks ((start + a) / 4096 + 1) := by
  obtain ⟨b, c₁, k, x, hib, hi', hl, -, rfl⟩ := ioPiece_done h hlt hp
  have hg := hl.grown h hi' hib
  unfold roundState
  cases write with
  | true =>
    have hz : c₁.lookup ((start + a) / 4096) ≠ 0 := by
      rw [hl.look]
      exact hl.inUse.ne
    rw [if_pos rfl]
    exact ⟨(hg.trans (.setData hl.inv hi' hz _)).scratch, hl.blocks⟩
  | false =>
    rw [if_neg Bool.false_ne_true]
    exact ⟨hg.scratch, hl.blocks⟩

/-- **What any number of rounds does to the file.** -/
theorem IoDone.grown (h : FileInv c R) (hd : IoDone write start endpos buf c a buf' c') : Grown R c c' := by
  induction hd with
  | start => exact .refl h
  | next hd hlt hp ih => exact ih.trans (ioPiece_grown ih.inv hlt hp).1

theorem IoDone.blocks (h : FileInv c R) (hd : IoDone write start endpos buf c a buf' c') :
    c'.sin.din.blocks = if a = 0 then c.sin.din.blocks else max c.sin.din.blocks ((start + a + 4095) / 4096) := by
  induction hd with
  | start => rw [if_pos rfl]
  | @next a _ _ _ _ hd hlt hp ih =>
    have hal := hd.aligned hlt
    have hne : a + pieceSize start endpos a ≠ 0 := by
      have := pieceSize_pos hlt
      omega
    have hceil : (start + (a + pieceSize start endpos a) + 4095) / 4096 = (start + a) / 4096 + 1 := by
      unfold pieceSize
      omega
    rw [(ioPiece_grown (hd.grown h).inv hlt hp).2, ih, if_neg hne, hceil]
    split <;> omega

/-- The next round's index is one the file has, or the next one. -/
theorem IoDone.index_le (h : FileInv c R) (hd : IoDone write start endpos buf c a buf' c')
    (hlt : start + a < endpos) (hs : start / 4096 ≤ c.sin.din.blocks) :
    (start + a) / 4096 ≤ c'.sin.din.blocks := by
  have hal := hd.aligned hlt
  rw [hd.blocks h]
  split <;> omega

/-! ## Enough free blocks -/

theorem SfsCtx.need_le_needAll {t : Nat} (hi : i = c.sin.din.blocks) (ht : i < t) : c.need i ≤ c.needAll t := by
  unfold SfsCtx.need SfsCtx.needAll
  by_cases h12 : i < 12
  · rw [if_pos h12]
    omega
  · by_cases hz : c.sin.din.indirect = 0
    · rw [if_neg h12, if_pos hz, if_pos ⟨by omega, by omega, hz⟩]
      omega
    · rw [if_neg h12, if_neg hz]
      omega

/-- On a healthy device with the free blocks to have `t` blocks, loading below `t` goes through. -/
theorem LoadFails.absurd {s' : SfsFs} {t : Nat} (hh : c.fs.Healthy) (ht : i < t)
    (hroom : c.needAll t ≤ c.fs.freemap.setBits) (hf : LoadFails c i s') : False := by
  obtain ⟨hi, hlt⟩ := hf.short hh
  have := c.need_le_needAll hi ht
  omega

/-- The same for a round that fails. -/
theorem IoDone.not_err {e : Int} {t : Nat} (h : FileInv c R) (hd : IoDone write start endpos buf c a buf' c')
    (hlt : start + a < endpos) (hs : start / 4096 ≤ c.sin.din.blocks) (hh : c.fs.Healthy)
    (ht : (start + a) / 4096 < 1036 → (start + a) / 4096 < t) (hroom : c.needAll t ≤ c.fs.freemap.setBits) :
    ioPiece write start endpos a buf' c' ≠ .err e c'' := by
  intro hp
  have hg := hd.grown h
  have hile := hd.index_le h hlt hs
  have hh' : c'.fs.Healthy := hg.grows.static.healthy hh
  by_cases hi : (start + a) / 4096 < 1036
  · rcases ioPiece_cases write buf' hg.inv hlt rfl hile hi with
      ⟨b, c₁, k, x, -, hrun⟩ | ⟨b, c₁, k, x, e', -, -, hn, -⟩ | ⟨e', s', -, hf, -, -⟩
    · rw [hp] at hrun
      cases hrun
    · exact hn hh'
    · by_cases hb : c'.sin.din.blocks ≤ t
      · refine hf.absurd hh' (ht hi) ?_
        have := hg.room t hb
        omega
      · have := (hf.short hh').1
        omega
  · unfold ioPiece at hp
    rw [Proc.bind_panic (sfsBmapLoadNolock_outOfRange hile (by omega))] at hp
    cases hp

/-- A round with its index in range does not stop the machine. -/
theorem ioPiece_ne_panic {p : SfsPanic} (h : FileInv c R) (hlt : start + a < endpos)
    (hib : (start + a) / 4096 ≤ c.sin.din.blocks) (hi : (start + a) / 4096 < 1036) :
    ioPiece write start endpos a buf c ≠ .panic p := by
  intro hp
  rcases ioPiece_cases write buf h hlt rfl hib hi with
    ⟨b, c₁, k, x, -, hrun⟩ | ⟨b, c₁, k, x, e, -, -, -, hrun⟩ | ⟨e, s', -, -, -, hrun⟩ <;> rw [hp] at hrun <;> cases hrun

/-- What a failed round leaves: nothing was loaded, or an index was loaded and its transfer failed. -/
theorem ioPiece_failed {e : Int} (h : FileInv c R) (hlt : start + a < endpos)
    (hib : (start + a) / 4096 ≤ c.sin.din.blocks) (hp : ioPiece write start endpos a buf c = .err e c') :
    (∃ s', c' = c.withFs s' ∧ LoadFails c ((start + a) / 4096) s' ∧
      sfsBmapLoadNolock ((start + a) / 4096) c = .err e c') ∨
    ¬ c.fs.Healthy ∧ Grown R c c' ∧ c'.sin.din.blocks = max c.sin.din.blocks ((start + a) / 4096 + 1) ∧
      ((start + a) / 4096 < c.sin.din.blocks → c'.sin = c.sin) := by
  by_cases hi : (start + a) / 4096 < 1036
  · rcases ioPiece_cases write buf h hlt rfl hib hi with
      ⟨b, c₁, k, x, -, hrun⟩ | ⟨b, c₁, k, x, e', hl, -, hn, hrun⟩ | ⟨e', s', -, hf, hload, hrun⟩
    · rw [hp] at hrun
      cases hrun
    · rw [hp, Outcome.err.injEq] at hrun
      obtain ⟨-, rfl⟩ := hrun
      exact Or.inr ⟨hn, (hl.grown h hi hib).scratch, hl.blocks, fun hlt => (hl.old hlt).2.2⟩
    · rw [hp, Outcome.err.injEq] at hrun
      obtain ⟨rfl, rfl⟩ := hrun
      exact Or.inl ⟨s', rfl, hf, hload⟩
  · unfold ioPiece at hp
    rw [Proc.bind_panic (sfsBmapLoadNolock_outOfRange hib (by omega))] at hp
    cases hp

theorem LoadFails.inv {s' : SfsFs} (h : FileInv c R) (hf : LoadFails c i s') : FileInv (c.withFs s') R :=
  @FileInv.congr c (c.withFs s') R h hf.failed.grows rfl rfl rfl

theorem SfsCtx.FileInv.reach (h : FileInv c R) (n : Nat) : FileInv (c.reach n) R := by
  unfold SfsCtx.reach
  split
  · exact @FileInv.congr c _ R h (.refl h.ready) rfl rfl rfl
  · exact h

end Ucore
