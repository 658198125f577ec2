import Ucore.Fs.Sfs.Correctness.Atomic
import Ucore.Fs.Sfs.Correctness.Rounds

/-!
# `Fs.Sfs.Correctness.Trunc` — `sfs_truncfile` and `sfs_tryseek` on a file that satisfies the file invariant

The growing loop loads one index after the other (`truncfileGrow_cases`), the shrinking loop drops one
(`truncfileShrink_cases`). `sfsTruncfile_cases` puts the two together with the checks around them.
-/

namespace Ucore

open SfsFs SfsCtx

variable {c c' c'' : SfsCtx} {R : Set Nat} {n : Nat}

/-! ## Growing -/

/-- A growing loop that stopped: some indices were loaded, and loading the next one failed. -/
def GrowFailed (R : Set Nat) (c : SfsCtx) (t : Nat) (e : Int) (c' : SfsCtx) : Prop :=
  ∃ c₁ s', Grown R c c₁ ∧ c₁.sin.din.blocks < t ∧ LoadFails c₁ c₁.sin.din.blocks s' ∧ c' = c₁.withFs s' ∧
    sfsBmapLoadNolock c₁.sin.din.blocks c₁ = .err e c' ∧ (c₁ = c ∨ ¬ c.GetFails c.sin.din.blocks)

theorem truncfileGrow_cases (n : Nat) : ∀ c : SfsCtx, FileInv c R →
    (∃ c', truncfileGrow c.sin.din.blocks n c = .ok () c' ∧ Grown R c c' ∧
      c'.sin.din.blocks = c.sin.din.blocks + n) ∨
    (∃ e c', truncfileGrow c.sin.din.blocks n c = .err e c' ∧ GrowFailed R c (c.sin.din.blocks + n) e c') ∨
    1036 < c.sin.din.blocks + n ∧ c.needAll 1036 ≤ c.fs.freemap.setBits ∧
      truncfileGrow c.sin.din.blocks n c = .panic .indexOutOfRange := by
  induction n with
  | zero => exact fun c h => Or.inl ⟨c, rfl, .refl h, rfl⟩
  | succ n ih =>
    intro c h
    have hle := h.blocks_le
    unfold truncfileGrow
    by_cases hfull : c.sin.din.blocks < 1036
    · rcases sfsBmapLoadNolock_cases h (Nat.le_refl _) hfull with ⟨b, c₁, hrun, hl⟩ | ⟨e, s', -, hrun, hf⟩
      · have hg := hl.grown h hfull (Nat.le_refl _)
        have hb : c₁.sin.din.blocks = c.sin.din.blocks + 1 := by
          have := hl.blocks
          omega
        have hsum : c₁.sin.din.blocks + n = c.sin.din.blocks + (n + 1) := by omega
        have hi := ih c₁ hl.inv
        rw [hsum] at hi
        rw [Proc.bind_ok hrun, ← hb]
        rcases hi with ⟨c', hrun', hg', hb'⟩ | ⟨e, c', hrun', hf⟩ | ⟨hgt, hroom, hrun'⟩
        · exact Or.inl ⟨c', hrun', hg.trans hg', hb'⟩
        · refine Or.inr (Or.inl ⟨e, c', hrun', ?_⟩)
          obtain ⟨c₂, s', hg₂, hlt, hf₂, hc', hload, -⟩ := hf
          exact ⟨c₂, s', hg.trans hg₂, hlt, hf₂, hc', hload, Or.inr (sfsBmapLoadNolock_post.of_ok hrun rfl).1⟩
        · have := hg.room 1036 hl.inv.blocks_le
          exact Or.inr (Or.inr ⟨hgt, by omega, hrun'⟩)
      · refine Or.inr (Or.inl ⟨e, c.withFs s', Proc.bind_err hrun, ?_⟩)
        exact ⟨c, s', .refl h, by omega, hf, rfl, hrun, Or.inl rfl⟩
    · have h0 : c.needAll 1036 = 0 := by
        unfold SfsCtx.needAll
        rw [if_neg (fun hc => hfull hc.1)]
        omega
      refine Or.inr (Or.inr ⟨by omega, by omega, ?_⟩)
      exact Proc.bind_panic (sfsBmapLoadNolock_outOfRange (Nat.le_refl _) (Nat.le_of_not_lt hfull))

theorem GrowFailed.inv {t : Nat} {e : Int} (h : GrowFailed R c t e c') : FileInv c' R := by
  obtain ⟨c₁, s', hg, -, hf, rfl, -⟩ := h
  exact hf.inv hg.inv

/-- On a healthy device with enough free blocks the growing loop does not fail. -/
theorem GrowFailed.absurd {t : Nat} {e : Int} (h : GrowFailed R c t e c') (hh : c.fs.Healthy)
    (hroom : c.needAll t ≤ c.fs.freemap.setBits) : False := by
  obtain ⟨c₁, s', hg, hlt, hf, -⟩ := h
  have heq := hg.room t (Nat.le_of_lt hlt)
  exact hf.absurd (hg.grows.static.healthy hh) hlt (by omega)

/-! ## Shrinking -/

/-- What dropping blocks does to a file. -/
structure Shrunk (R : Set Nat) (c c' : SfsCtx) : Prop where
  inv : FileInv c' R
  static : Static c.fs c'.fs
  blocks_le : c'.sin.din.blocks ≤ c.sin.din.blocks
  lookup : ∀ j, j < c'.sin.din.blocks → c'.lookup j = c.lookup j
  indirect : c'.sin.din.indirect = c.sin.din.indirect
  others : ∀ x, c.fs.InUse x → x ∉ c.owned → c'.fs.InUse x ∧ c'.fs.dev.blk x = c.fs.dev.blk x
  size : c'.sin.din.size = c.sin.din.size
  type : c'.sin.din.type = c.sin.din.type
  nlinks : c'.sin.din.nlinks = c.sin.din.nlinks
  ino : c'.sin.ino = c.sin.ino
  complete : Complete c R → Complete c' R
  clean : c'.sin.dirty = false → c'.sin = c.sin
  superDirty : c'.fs.superDirty = false → c.fs.superDirty = false ∧ Clean c.fs c'.fs

namespace Shrunk

theorem refl (h : FileInv c R) : Shrunk R c c :=
  ⟨h, .refl _, Nat.le_refl _, fun _ _ => rfl, rfl, fun _ hx _ => ⟨hx, rfl⟩, rfl, rfl, rfl, rfl, id, fun _ => rfl,
    fun hd => ⟨hd, rfl, rfl⟩⟩

theorem owned_subset (h : Shrunk R c c') : c'.owned ⊆ c.owned := by
  rintro _ ⟨hne, t, rfl⟩
  cases t with
  | data j =>
    have hj : j.val < c'.sin.din.blocks := (h.inv.dense j j.isLt).mp hne
    exact ⟨hne, .data j, (h.lookup j hj).symm⟩
  | entryBlock => exact ⟨hne, .entryBlock, h.indirect.symm⟩

theorem trans (h : Shrunk R c c') (h' : Shrunk R c' c'') : Shrunk R c c'' where
  inv := h'.inv
  static := h.static.trans h'.static
  blocks_le := Nat.le_trans h'.blocks_le h.blocks_le
  lookup := fun j hj => by rw [h'.lookup j hj, h.lookup j (Nat.lt_of_lt_of_le hj h'.blocks_le)]
  indirect := h'.indirect.trans h.indirect
  others := fun x hx hn => by
    obtain ⟨hx', hb⟩ := h.others x hx hn
    obtain ⟨hx'', hb'⟩ := h'.others x hx' fun hm => hn (h.owned_subset hm)
    exact ⟨hx'', hb'.trans hb⟩
  size := h'.size.trans h.size
  type := h'.type.trans h.type
  nlinks := h'.nlinks.trans h.nlinks
  ino := h'.ino.trans h.ino
  complete := fun hc => h'.complete (h.complete hc)
  clean := fun hd => by
    have h1 := h'.clean hd
    rw [h1]
    exact h.clean (h1 ▸ hd)
  superDirty := fun hd => by
    obtain ⟨hd', h1⟩ := h'.superDirty hd
    obtain ⟨hd'', h2⟩ := h.superDirty hd'
    exact ⟨hd'', h2.trans h1⟩

theorem scratch (h : FileInv c R) {k : Nat} {x : Bytes} : Shrunk R c (c.scratch k x) :=
  ⟨h.scratch, ⟨rfl, rfl, rfl, rfl, rfl, rfl, rfl⟩, Nat.le_refl _, fun _ _ => rfl, rfl,
    fun _ hx _ => ⟨hx.scratch, rfl⟩, rfl, rfl, rfl, rfl, fun hc y hy => hc y ⟨hy.ne, hy.lt, hy.bit⟩, fun _ => rfl,
    fun hd => ⟨hd, rfl, rfl⟩⟩

end Shrunk

theorem Trimmed.shrunk (h : FileInv c R) (ht : Trimmed R c c') : Shrunk R c c' := by
  have hb := ht.blocks
  have hle := h.blocks_le
  refine ⟨ht.inv, ht.static, by omega, ht.lookup, ht.indirect, fun x hx hn => ⟨ht.keeps x hx ?_, ht.disk x hx ?_⟩,
    ht.size, ht.type, ht.nlinks, ht.ino, ht.complete, fun hd => ?_, fun hd => ?_⟩
  · rintro rfl
    exact hn ⟨hx.ne, .data ⟨c'.sin.din.blocks, by omega⟩, rfl⟩
  · rintro rfl
    exact hn ⟨hx.ne, .entryBlock, rfl⟩
  · exact absurd (ht.dirty.symm.trans hd) Bool.noConfusion
  · exact absurd (ht.superDirty.symm.trans hd) Bool.noConfusion

theorem truncfileShrink_cases (n : Nat) : ∀ c : SfsCtx, FileInv c R → n ≤ c.sin.din.blocks →
    (∃ c', truncfileShrink n c = .ok () c' ∧ Shrunk R c c' ∧ c'.sin.din.blocks + n = c.sin.din.blocks) ∨
    ∃ e c', truncfileShrink n c = .err e c' ∧ Shrunk R c c' ∧ ¬ c.fs.Healthy ∧ 12 < c.sin.din.blocks ∧
      (c'.sin = c.sin ∨ ¬ c.FreeFails (c.sin.din.blocks - 1)) := by
  induction n with
  | zero => exact fun c h _ => Or.inl ⟨c, rfl, .refl h, rfl⟩
  | succ n ih =>
    intro c h hn
    unfold truncfileShrink
    rcases sfsBmapTruncateNolock_cases h (by omega) with ⟨c₁, hrun, ht⟩ | ⟨e, k, x, -, hgt, hs, hrun⟩
    · have hb := ht.blocks
      have hg := ht.shrunk h
      rw [Proc.bind_ok hrun]
      rcases ih c₁ ht.inv (by omega) with ⟨c', hrun', hg', hb'⟩ | ⟨e, c', hrun', hg', hs', hgt', -⟩
      · exact Or.inl ⟨c', hrun', hg.trans hg', by omega⟩
      · refine Or.inr ⟨e, c', hrun', hg.trans hg', fun hh => hs' (hg.static.healthy hh), by omega, Or.inr ?_⟩
        exact (sfsBmapTruncateNolock_post.of_ok hrun).1
    · exact Or.inr ⟨e, _, Proc.bind_err hrun, Shrunk.scratch h, hs, hgt, Or.inl rfl⟩

/-! ## The whole call -/

/-- How many blocks a file of `size` bytes has. -/
abbrev blocksFor (size : Nat) : Nat := roundupDiv size sfsBlksize

/-- The end of `sfs_truncfile`. -/
def SfsCtx.setSize (c : SfsCtx) (n : Nat) : SfsCtx :=
  { c with sin := { c.sin with din := { c.sin.din with size := n }, dirty := true } }

theorem SfsCtx.FileInv.setSize (h : FileInv c R) (n : Nat) : FileInv (c.setSize n) R :=
  @FileInv.congr c (c.setSize n) R h (.refl h.ready) rfl rfl rfl

theorem sfsTruncfile_invalid {len : Int} (h : len < 0 ∨ (sfsMaxFileSize : Int) < len) :
    sfsTruncfile len c = .err (-eInval) c := by
  unfold sfsTruncfile
  rw [if_pos h]
  rfl

/-- The fast path. -/
theorem sfsTruncfile_same {len : Int} (h : ¬ (len < 0 ∨ (sfsMaxFileSize : Int) < len))
    (hs : c.sin.din.size = len.toNat) :
    sfsTruncfile len c = if blocksFor len.toNat = c.sin.din.blocks then .ok () c else .panic .truncfileSame := by
  unfold sfsTruncfile
  rw [if_neg h, Proc.get_bind, if_pos hs]
  rfl

theorem truncfileEnd_run {len : Int} (hb : c.sin.din.blocks = blocksFor len.toNat) :
    (do
      let c ← Proc.get
      Proc.check .truncfileBlocks (c.sin.din.blocks = blocksFor len.toNat)
      modifyDin fun din => { din with size := len.toNat }
      setDirty true : SinM Unit) c = .ok () (c.setSize len.toNat) := by
  rw [Proc.get_bind, Proc.check_bind_pos hb]
  rfl

/-- A truncation to a longer file. -/
theorem sfsTruncfile_grow {len : Int} (hinv : FileInv c R) (h : ¬ (len < 0 ∨ (sfsMaxFileSize : Int) < len))
    (hs : c.sin.din.size ≠ len.toNat) (hlt : c.sin.din.blocks < blocksFor len.toNat) :
    (∃ c', Grown R c c' ∧ c'.sin.din.blocks = blocksFor len.toNat ∧
      sfsTruncfile len c = .ok () (c'.setSize len.toNat)) ∨
    (∃ e c', GrowFailed R c (blocksFor len.toNat) e c' ∧ sfsTruncfile len c = .err e c') ∨
    1036 < blocksFor len.toNat ∧ c.needAll 1036 ≤ c.fs.freemap.setBits ∧
      sfsTruncfile len c = .panic .indexOutOfRange := by
  have hsum : c.sin.din.blocks + (blocksFor len.toNat - c.sin.din.blocks) = blocksFor len.toNat := by omega
  have hcases := truncfileGrow_cases (blocksFor len.toNat - c.sin.din.blocks) c hinv
  rw [hsum] at hcases
  unfold sfsTruncfile
  rw [if_neg h, Proc.get_bind, if_neg hs]
  simp only [if_pos hlt]
  rcases hcases with ⟨c', hrun, hg, hb⟩ | ⟨e, c', hrun, hf⟩ | ⟨hgt, hroom, hrun⟩
  · refine Or.inl ⟨c', hg, hb, ?_⟩
    rw [Proc.bind_ok hrun]
    exact truncfileEnd_run hb
  · exact Or.inr (Or.inl ⟨e, c', hf, Proc.bind_err hrun⟩)
  · exact Or.inr (Or.inr ⟨hgt, hroom, Proc.bind_panic hrun⟩)

/-- A truncation to a file with no more blocks. -/
theorem sfsTruncfile_shrink {len : Int} (hinv : FileInv c R) (h : ¬ (len < 0 ∨ (sfsMaxFileSize : Int) < len))
    (hs : c.sin.din.size ≠ len.toNat) (hle : ¬ c.sin.din.blocks < blocksFor len.toNat) :
    (∃ c', Shrunk R c c' ∧ c'.sin.din.blocks = blocksFor len.toNat ∧
      sfsTruncfile len c = .ok () (c'.setSize len.toNat)) ∨
    ∃ e c', Shrunk R c c' ∧ ¬ c.fs.Healthy ∧ 12 < c.sin.din.blocks ∧ blocksFor len.toNat < c.sin.din.blocks ∧
      (c'.sin = c.sin ∨ ¬ c.FreeFails (c.sin.din.blocks - 1)) ∧ sfsTruncfile len c = .err e c' := by
  have hcases := truncfileShrink_cases (c.sin.din.blocks - blocksFor len.toNat) c hinv (by omega)
  unfold sfsTruncfile
  rw [if_neg h, Proc.get_bind, if_neg hs]
  simp only [if_neg hle]
  rcases hcases with ⟨c', hrun, hg, hb⟩ | ⟨e, c', hrun, hg, hn, hgt, hsin⟩
  · have hb' : c'.sin.din.blocks = blocksFor len.toNat := by omega
    refine Or.inl ⟨c', hg, hb', ?_⟩
    rw [Proc.bind_ok hrun]
    exact truncfileEnd_run hb'
  · refine Or.inr ⟨e, c', hg, hn, hgt, ?_, hsin, Proc.bind_err hrun⟩
    by_contra hnlt
    have hz : c.sin.din.blocks - blocksFor len.toNat = 0 := by omega
    rw [hz] at hrun
    cases hrun

/-- The two assertions a truncation of a sound file can run into. -/
theorem sfsTruncfile_panic {len : Int} {p : SfsPanic} (hinv : FileInv c R) (hp : sfsTruncfile len c = .panic p) :
    (0 ≤ len ∧ len ≤ sfsMaxFileSize) ∧
      (p = .truncfileSame ∧ c.sin.din.size = len.toNat ∧ blocksFor len.toNat ≠ c.sin.din.blocks ∨
        p = .indexOutOfRange ∧ c.sin.din.size ≠ len.toNat ∧ 1036 < blocksFor len.toNat ∧
          c.needAll 1036 ≤ c.fs.freemap.setBits) := by
  by_cases hbad : len < 0 ∨ (sfsMaxFileSize : Int) < len
  · rw [sfsTruncfile_invalid hbad] at hp
    cases hp
  refine ⟨by omega, ?_⟩
  by_cases hs : c.sin.din.size = len.toNat
  · rw [sfsTruncfile_same hbad hs] at hp
    split at hp
    · cases hp
    · next hne =>
      cases hp
      exact Or.inl ⟨rfl, hs, hne⟩
  · by_cases hlt : c.sin.din.blocks < blocksFor len.toNat
    · rcases sfsTruncfile_grow hinv hbad hs hlt with ⟨c₁, -, -, hrun⟩ | ⟨e, c₁, -, hrun⟩ | ⟨hgt, hroom, hrun⟩ <;>
        rw [hrun] at hp <;> cases hp
      exact Or.inr ⟨rfl, hs, hgt, hroom⟩
    · rcases sfsTruncfile_shrink hinv hbad hs hlt with ⟨c₁, -, -, hrun⟩ | ⟨e, c₁, -, -, -, -, -, hrun⟩ <;>
        rw [hrun] at hp <;> cases hp

/-- Seeking past the end is a truncation, and any other seek changes nothing. -/
theorem sfsTryseek_run (pos : Int) (c : SfsCtx) :
    sfsTryseek pos c = if 0 ≤ pos ∧ pos < sfsMaxFileSize ∧ c.sin.din.size < pos then sfsTruncfile pos c
      else if 0 ≤ pos ∧ pos < sfsMaxFileSize then .ok () c else .err (-eInval) c := by
  unfold sfsTryseek
  by_cases hbad : pos < 0 ∨ (sfsMaxFileSize : Int) ≤ pos
  · rw [if_pos hbad, if_neg (by omega), if_neg (by omega)]
    rfl
  · rw [if_neg hbad, Proc.get_bind]
    by_cases hlt : (c.sin.din.size : Int) < pos
    · rw [if_pos hlt, if_pos (by omega)]
    · rw [if_neg hlt, if_neg (by omega), if_pos (by omega)]
      rfl

end Ucore
