import Ucore.Fs.Sfs.Correctness.Dirent
import Ucore.Fs.Sfs.Correctness.SizeBlocks

/-!
# `Fs.Sfs.Correctness.FileStep` — what a call on one file leaves of the rest

`FileStep R c c'` collects what every call on a file keeps, however it returns and whatever the device does: the file
invariant, and everything in the blocks `R` of others. Steps compose, and each operation of `FileOp` is one
(`FileOp.fileStep`).
-/

namespace Ucore

open SfsFs SfsCtx

variable {c c' c'' : SfsCtx} {R : Set Nat}

/-- `c` and `c'` are the states before and after a call on one file, with `R` the blocks of others. -/
structure FileStep (R : Set Nat) (c c' : SfsCtx) : Prop where
  inv : FileInv c' R
  static : Static c.fs c'.fs
  others : ∀ b ∈ R, c.fs.InUse b → c'.fs.dev.blk b = c.fs.dev.blk b
  ino : c'.sin.ino = c.sin.ino
  type : c'.sin.din.type = c.sin.din.type
  nlinks : c'.sin.din.nlinks = c.sin.din.nlinks
  size : c'.sin.din.size ≤ max c.sin.din.size (2 ^ 28)
  books : c'.fs.superDirty = false →
    c.fs.superDirty = false ∧ Clean c.fs c'.fs ∧ c'.fs.dev.blk 0 = c.fs.dev.blk 0
  clean : c'.sin.dirty = false → c.sin.dirty = false ∧ c'.sin.din.size = c.sin.din.size ∧
    c'.sin.din.direct = c.sin.din.direct ∧ c'.sin.din.indirect = c.sin.din.indirect
  complete : c.fs.Healthy → Complete c R → Complete c' R

namespace FileStep

theorem refl (h : FileInv c R) : FileStep R c c :=
  ⟨h, .refl _, fun _ _ _ => rfl, rfl, rfl, rfl, Nat.le_max_left .., fun hd => ⟨hd, .refl _, rfl⟩,
    fun hd => ⟨hd, rfl, rfl, rfl⟩, fun _ hc => hc⟩

theorem trans (hR : ∀ b ∈ R, b = 0 ∨ c'.fs.InUse b) (h : FileStep R c c') (h' : FileStep R c' c'') : FileStep R c c'' where
  inv := h'.inv
  static := h.static.trans h'.static
  others := fun b hb hu => by
    have hu' : c'.fs.InUse b := (hR b hb).resolve_left hu.ne
    rw [h'.others b hb hu', h.others b hb hu]
  ino := h'.ino.trans h.ino
  type := h'.type.trans h.type
  nlinks := h'.nlinks.trans h.nlinks
  size := by
    have h₁ := h.size
    have h₂ := h'.size
    omega
  books := fun hd => by
    obtain ⟨hd', hc', h0'⟩ := h'.books hd
    obtain ⟨hd'', hc, h0⟩ := h.books hd'
    exact ⟨hd'', hc.trans hc', h0'.trans h0⟩
  clean := fun hd => by
    obtain ⟨hd', hs', hdir', hind'⟩ := h'.clean hd
    obtain ⟨hd'', hs, hdir, hind⟩ := h.clean hd'
    exact ⟨hd'', hs'.trans hs, hdir'.trans hdir, hind'.trans hind⟩
  complete := fun hh hc => h'.complete (h.static.healthy hh) (h.complete hh hc)

/-- The transfers of a call, and nothing else. -/
theorem looked (h : FileInv c R) (hl : Looked c c') : FileStep R c c' := by
  obtain ⟨k, x, rfl⟩ := hl
  have hstep := FileStep.refl h
  exact ⟨h.scratch, ⟨rfl, rfl, rfl, rfl, rfl, rfl, rfl⟩, fun _ _ _ => rfl, rfl, rfl, rfl, hstep.size, hstep.books,
    hstep.clean, fun _ hc b hb => hc b ⟨hb.ne, hb.lt, hb.bit⟩⟩

/-- A later state with another size, which is then to be written back. -/
theorem setSize (h : FileStep R c c') {n : Nat} (hn : n ≤ 2 ^ 28) : FileStep R c (c'.setSize n) :=
  ⟨h.inv.setSize n, h.static, h.others, h.ino, h.type, h.nlinks, Nat.le_trans hn (Nat.le_max_right ..), h.books,
    fun hd => Bool.noConfusion hd, h.complete⟩

theorem reach (h : FileStep R c c') {n : Nat} (hn : n ≤ 2 ^ 28) : FileStep R c (c'.reach n) := by
  unfold SfsCtx.reach
  split
  · exact h.setSize hn
  · exact h

end FileStep

/-! ## The effects of the operations -/

/-- A block of somebody else is neither free nor one of the file's. -/
theorem SfsCtx.FileInv.outside (h : FileInv c R) {b : Nat} (hb : b ∈ R) : ¬ c.fs.Free b ∧ b ∉ c.owned := by
  constructor
  · intro hf
    rcases h.reserved b hb with h0 | hu
    · exact hf.ne h0
    · exact hf.not_inUse hu
  · rintro ⟨hne, t, rfl⟩
    exact h.apart t hne hb

/-- Neither is the superblock. -/
theorem SfsCtx.zero_outside (c : SfsCtx) : ¬ c.fs.Free 0 ∧ 0 ∉ c.owned := by
  constructor
  · intro hf
    exact hf.ne rfl
  · rintro ⟨hne, -⟩
    exact hne rfl

theorem Grown.fileStep (h : FileInv c R) (hg : Grown R c c') : FileStep R c c' where
  inv := hg.inv
  static := hg.grows.static
  others := fun b hb _ => hg.grows.keep b (h.outside hb).1 (h.outside hb).2
  ino := hg.ino
  type := hg.type
  nlinks := hg.nlinks
  size := by
    rw [hg.size]
    exact Nat.le_max_left ..
  books := fun hd => by
    obtain ⟨hd', hc⟩ := hg.grows.dirty hd
    exact ⟨hd', hc, hg.grows.keep 0 c.zero_outside.1 c.zero_outside.2⟩
  clean := fun hd => by
    obtain ⟨hd', hdir, hind⟩ := hg.clean hd
    exact ⟨hd', hg.size, hdir, hind⟩
  complete := fun _ => hg.complete

theorem LoadFails.fileStep {i : Nat} {s' : SfsFs} (h : FileInv c R) (hf : LoadFails c i s') :
    FileStep R c (c.withFs s') where
  inv := hf.inv h
  static := hf.failed.grows.static
  others := fun b hb _ => hf.failed.grows.keep b (h.outside hb).1 (Set.notMem_empty b)
  ino := rfl
  type := rfl
  nlinks := rfl
  size := Nat.le_max_left ..
  books := fun hd => by
    obtain ⟨hd', hc⟩ := hf.failed.grows.dirty hd
    exact ⟨hd', hc, hf.failed.grows.keep 0 c.zero_outside.1 (Set.notMem_empty 0)⟩
  clean := fun hd => ⟨hd, rfl, rfl, rfl⟩
  complete := fun hh hc b hb => by
    -- on a device that works no block is lost
    have hkeep : Clean c.fs s' := by
      apply hf.failed.clean.mpr
      rintro ⟨-, hcl⟩
      unfold ClearFails at hcl
      simp [hh.fault] at hcl
    have hslot : ∀ t, (c.withFs s').slot t = c.slot t := slot_congr rfl rfl fun hz =>
      hf.failed.grows.disk _ (h.indirect_inUse hz) (Set.notMem_empty _)
    have hu : c.fs.InUse b := by
      refine ⟨hb.ne, ?_, ?_⟩
      · have hlt : b < s'.super.blocks := hb.lt
        rwa [hkeep.2] at hlt
      · have hbit : s'.freemap.bit b = false := hb.bit
        rwa [hkeep.1] at hbit
    rcases hc b hu with hR | ⟨t, ht⟩
    · exact Or.inl hR
    · exact Or.inr ⟨t, (hslot t).trans ht⟩

theorem GrowFailed.fileStep {t : Nat} {e : Int} (h : FileInv c R) (hf : GrowFailed R c t e c') : FileStep R c c' := by
  obtain ⟨c₁, s', hg, -, hf, rfl, -⟩ := hf
  exact (hg.fileStep h).trans hg.inv.reserved (hf.fileStep hg.inv)

theorem Shrunk.fileStep (h : FileInv c R) (hs : Shrunk R c c')
    (h0 : c'.fs.superDirty = false → c'.fs.dev.blk 0 = c.fs.dev.blk 0) : FileStep R c c' where
  inv := hs.inv
  static := hs.static
  others := fun b hb hu => (hs.others b hu (h.outside hb).2).2
  ino := hs.ino
  type := hs.type
  nlinks := hs.nlinks
  size := by
    rw [hs.size]
    exact Nat.le_max_left ..
  books := fun hd => by
    obtain ⟨hd', hc⟩ := hs.superDirty hd
    exact ⟨hd', hc, h0 hd⟩
  clean := fun hd => by
    have hsin := hs.clean hd
    rw [hsin] at hd ⊢
    exact ⟨hd, rfl, rfl, rfl⟩
  complete := fun _ => hs.complete

/-- The shrinking loop notes its first step in `super_dirty`. -/
theorem truncfileShrink_zero {n : Nat} (h : FileInv c R) (hn : n ≤ c.sin.din.blocks)
    (hrun : truncfileShrink n c = .ok () c' ∨ ∃ e, truncfileShrink n c = .err e c') (hd : c'.fs.superDirty = false) :
    c'.fs.dev.blk 0 = c.fs.dev.blk 0 := by
  cases n with
  | zero =>
    rcases hrun with hrun | ⟨e, hrun⟩ <;> cases hrun
    rfl
  | succ n =>
    unfold truncfileShrink at hrun
    rcases sfsBmapTruncateNolock_cases h (by omega) with ⟨c₁, h₁, ht⟩ | ⟨e, k, x, -, -, -, h₁⟩
    · -- the rest of the loop leaves the flag set
      have hb := ht.blocks
      have hrest : Shrunk R c₁ c' := by
        rw [Proc.bind_ok h₁] at hrun
        rcases truncfileShrink_cases n c₁ ht.inv (by omega) with ⟨c₂, h₂, hs, -⟩ | ⟨e, c₂, h₂, hs, -⟩ <;>
          rw [h₂] at hrun <;> rcases hrun with hrun | ⟨e', hrun⟩ <;> cases hrun <;> exact hs
      exact absurd ((hrest.superDirty hd).1.symm.trans ht.superDirty) Bool.noConfusion
    · rw [Proc.bind_err h₁] at hrun
      rcases hrun with hrun | ⟨e', hrun⟩ <;> cases hrun
      rfl

/-! ## The operations -/

theorem sfsTruncfile_zero {len : Int} (h : FileInv c R) (hbad : ¬ (len < 0 ∨ (sfsMaxFileSize : Int) < len))
    (hs : c.sin.din.size ≠ len.toNat) (hle : ¬ c.sin.din.blocks < blocksFor len.toNat)
    (hrun : sfsTruncfile len c = .ok () c' ∨ ∃ e, sfsTruncfile len c = .err e c') (hd : c'.fs.superDirty = false) :
    c'.fs.dev.blk 0 = c.fs.dev.blk 0 := by
  unfold sfsTruncfile at hrun
  rw [if_neg hbad, Proc.get_bind, if_neg hs] at hrun
  simp only [if_neg hle] at hrun
  rcases truncfileShrink_cases (c.sin.din.blocks - blocksFor len.toNat) c h (by omega) with
    ⟨c₁, h₁, -, hb⟩ | ⟨e, c₁, h₁, -⟩
  · have hblocks : c₁.sin.din.blocks = blocksFor len.toNat := by omega
    have hend := truncfileEnd_run hblocks
    rw [Proc.bind_ok h₁] at hrun
    rw [hend] at hrun
    rcases hrun with hrun | ⟨e, hrun⟩ <;> cases hrun
    have hzero := truncfileShrink_zero h (Nat.sub_le ..) (Or.inl h₁) hd
    exact hzero
  · rw [Proc.bind_err h₁] at hrun
    rcases hrun with hrun | ⟨e', hrun⟩ <;> cases hrun
    exact truncfileShrink_zero h (Nat.sub_le ..) (Or.inr ⟨e, h₁⟩) hd

theorem sfsTruncfile_fileStep {len : Int} (h : FileInv c R)
    (hrun : sfsTruncfile len c = .ok () c' ∨ ∃ e, sfsTruncfile len c = .err e c') : FileStep R c c' := by
  by_cases hbad : len < 0 ∨ (sfsMaxFileSize : Int) < len
  · rw [sfsTruncfile_invalid hbad] at hrun
    rcases hrun with hrun | ⟨e, hrun⟩ <;> cases hrun
    exact .refl h
  have hmax : len.toNat ≤ 2 ^ 28 := by
    have hle : len.toNat ≤ sfsMaxFileSize := by omega
    exact Nat.le_trans hle (by decide)
  by_cases hs : c.sin.din.size = len.toNat
  · rw [sfsTruncfile_same hbad hs] at hrun
    split at hrun <;> rcases hrun with hrun | ⟨e, hrun⟩ <;> cases hrun
    exact .refl h
  by_cases hlt : c.sin.din.blocks < blocksFor len.toNat
  · rcases sfsTruncfile_grow h hbad hs hlt with ⟨c₁, hg, -, h₁⟩ | ⟨e, c₁, hf, h₁⟩ | ⟨-, -, h₁⟩ <;>
      rw [h₁] at hrun <;> rcases hrun with hrun | ⟨e', hrun⟩ <;> cases hrun
    · exact (hg.fileStep h).setSize hmax
    · exact hf.fileStep h
  · have h0 := sfsTruncfile_zero h hbad hs hlt hrun
    rcases sfsTruncfile_shrink h hbad hs hlt with ⟨c₁, hg, -, h₁⟩ | ⟨e, c₁, hg, -, -, -, -, h₁⟩ <;>
      rw [h₁] at hrun <;> rcases hrun with hrun | ⟨e', hrun⟩ <;> cases hrun
    · exact (hg.fileStep h h0).setSize hmax
    · exact hg.fileStep h h0

theorem sfsTryseek_fileStep {pos : Int} (h : FileInv c R)
    (hrun : sfsTryseek pos c = .ok () c' ∨ ∃ e, sfsTryseek pos c = .err e c') : FileStep R c c' := by
  rw [sfsTryseek_run] at hrun
  split at hrun
  · exact sfsTruncfile_fileStep h hrun
  · split at hrun <;> rcases hrun with hrun | ⟨e, hrun⟩ <;> cases hrun <;> exact .refl h

theorem ioLimit_le (c : SfsCtx) (start len : Nat) (write : Bool) : ioLimit c start len write ≤ sfsMaxFileSize := by
  unfold ioLimit
  split <;> omega

theorem sfsIoNolock_fileStep {buf : Bytes} {offset : Int} {len : Nat} {write : Bool} {r : IoResult} (h : FileInv c R)
    (htype : c.sin.din.type ≠ sfsTypeDir) (hlen : len < 2 ^ 64) (hrun : sfsIoNolock buf offset len write c = .ok r c') :
    FileStep R c c' := by
  by_cases ht : IoTransfers c offset len write
  · have hmax := ioLimit_le c offset.toNat len write
    have hbound : sfsMaxFileSize + sfsMaxFileSize ≤ 2 ^ 28 := by decide
    rcases sfsIoNolock_cases buf htype ht rfl rfl with
      ⟨b, c₁, hd, h₁⟩ | ⟨a, b, c₁, c₂, e, hd, hl, hp, -, h₁⟩ | ⟨a, b, c₁, p, -, -, -, h₁⟩ <;> rw [h₁] at hrun <;> cases hrun
    · apply ((hd.grown h).fileStep h).reach
      unfold ioStepped
      omega
    · -- the rounds so far, and what the failed one has left
      have hg := hd.grown h
      have hstep := hg.fileStep h
      have hn : offset.toNat + a + a ≤ 2 ^ 28 := by omega
      rcases ioPiece_failed hg.inv hl (hd.index_le h hl (hd.start_le hp)) hp with ⟨s', rfl, hf, -⟩ | ⟨-, hg', -⟩
      · exact (hstep.trans hg.inv.reserved (hf.fileStep hg.inv)).reach hn
      · exact (hstep.trans hg.inv.reserved (hg'.fileStep hg.inv)).reach hn
  · obtain ⟨ret, h₁, -⟩ := sfsIoNolock_idle buf htype hlen ht
    rw [h₁] at hrun
    cases hrun
    exact .refl h

/-- What comes from the file itself. -/
def FileOp.Own : FileOp → Prop
  | .other _ => False
  | _        => True

/-- **A call on a file** keeps the file invariant and what belongs to others. -/
theorem FileOp.fileStep {op : FileOp} (h : FileInv c R) (htype : c.sin.din.type ≠ sfsTypeDir) (hown : op.Own)
    (hs : op.Step c c') : FileStep R c c' := by
  obtain ⟨hgiven, hrun⟩ := hs
  have hio : ∀ {buf offset len write}, len < 2 ^ 64 →
      (FileOp.io buf offset len write c = .ok () c' ∨ ∃ e, FileOp.io buf offset len write c = .err e c') →
      FileStep R c c' := by
    intro buf offset len write hlen hrun
    rcases hrun with hrun | ⟨e, hrun⟩
    · obtain ⟨r, c₁, h₁, h₂⟩ := Proc.bind_eq_ok.mp hrun
      cases h₂
      exact sfsIoNolock_fileStep h htype hlen h₁
    · -- a transfer hands its code back as a result
      rcases Proc.bind_eq_err.mp hrun with h₁ | ⟨r, c₁, -, h₂⟩
      · exact absurd h₁ (sfsIoNolock_ne_err htype hlen)
      · cases h₂
  cases op with
  | read buf offset len => exact hio hgiven hrun
  | write buf offset len => exact hio hgiven hrun
  | tryseek pos => exact sfsTryseek_fileStep h hrun
  | truncfile len => exact sfsTruncfile_fileStep h hrun
  | other s => exact hown.elim

end Ucore
