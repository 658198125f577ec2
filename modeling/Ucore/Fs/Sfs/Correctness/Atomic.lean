import Ucore.Fs.Sfs.Correctness.Owned

/-!
# `Fs.Sfs.Correctness.Atomic` — what a failed call leaves behind

When `sfs_bmap_get_nolock`, `sfs_bmap_load_nolock` or `sfs_truncfile` fails, is everything as before? Two
things speak against it. `sfs_block_alloc` marks its block as used before it clears it, and keeps the mark
when the clearing fails, so the block is lost. And `sfs_truncfile` does not take back the blocks its loop
has already added or dropped.

Nothing is assumed of the file system here: it may be damaged, and the device may be too small. A call
that stops the machine leaves no state, so all statements are postconditions (`Outcome.Post`).
-/

namespace Ucore

/-! ## Transfers that fail -/

namespace SfsFs

/-- The block a transfer reaches, its byte offset being a `uint32_t`. -/
def ioBlk (b : Nat) : Nat := b * sfsBlksize % 2 ^ 32 / sfsBlksize

/-- The `k`-th transfer from now on fails if it is one of block `b`. -/
def XferFails (s : SfsFs) (k b : Nat) : Prop := s.dev.dBlocks < ioBlk b + 1 ∨ s.fault k ≠ 0

/-- Entry `j` of the entry block `e`, as a transfer reads it. -/
def entryRead (s : SfsFs) (e j : Nat) : Nat := getLe (s.dev.blk (ioBlk e)) (j * 4) 4

/-- `k` transfers lie between the two states. -/
structure Later (k : Nat) (s s' : SfsFs) : Prop where
  dBlocks : s'.dev.dBlocks = s.dev.dBlocks
  ioRet : s'.dev.ioRet = s.dev.ioRet
  ticks : s'.dev.ticks = s.dev.ticks + k

/-- The free map and the superblock are as before. -/
structure Books (s s' : SfsFs) : Prop where
  freemap : s'.freemap = s.freemap
  super : s'.super = s.super

variable {s s' s'' : SfsFs} {k j b : Nat}

theorem Later.xferFails (h : Later k s s') : s'.XferFails j b ↔ s.XferFails (k + j) b := by
  unfold XferFails fault
  rw [h.dBlocks, h.ioRet, h.ticks, Nat.add_assoc]

theorem Later.fault (h : Later k s s') : s'.fault j = s.fault (k + j) := by
  unfold SfsFs.fault
  rw [h.ioRet, h.ticks, Nat.add_assoc]

theorem Later.trans (h : Later k s s') (h' : Later j s' s'') : Later (k + j) s s'' := by
  refine ⟨h'.dBlocks.trans h.dBlocks, h'.ioRet.trans h.ioRet, ?_⟩
  rw [h'.ticks, h.ticks, Nat.add_assoc]

theorem Books.refl (s : SfsFs) : Books s s := ⟨rfl, rfl⟩

theorem Books.trans (h : Books s s') (h' : Books s' s'') : Books s s'' :=
  ⟨h'.freemap.trans h.freemap, h'.super.trans h.super⟩

theorem Books.give (h : Books s s') (b : Nat) : Books (s.give b) (s'.give b) := by
  constructor
  · show s'.freemap.raise b = s.freemap.raise b
    rw [h.freemap]
  · show { s'.super with unusedBlocks := s'.super.unusedBlocks + 1 } = _
    rw [h.super]
    rfl

theorem Books.take (h : Books s s') (b : Nat) : Books (s.take b) (s'.take b) := by
  constructor
  · show s'.freemap.flip b = s.freemap.flip b
    rw [h.freemap]
  · show { s'.super with unusedBlocks := s'.super.unusedBlocks - 1 } = _
    rw [h.super]
    rfl

/-- Giving back what was taken. -/
theorem books_give_take (hb : s.freemap.bit b = true) (h0 : 0 < s.super.unusedBlocks) :
    Books s ((s.take b).give b) := ⟨give_take_freemap hb, give_take_super h0⟩

end SfsFs

/-- The block `bitmap_alloc` finds. -/
def Bitmap.Lowest (m : Bitmap) (b : Nat) : Prop :=
  b < 32 * m.nwords ∧ m.bit b = true ∧ ∀ j, j < b → m.bit j = false

theorem Bitmap.Lowest.eq {m : Bitmap} {b b' : Nat} (h : m.Lowest b) (h' : m.Lowest b') : b = b' := by
  rcases Nat.lt_trichotomy b b' with hlt | he | hgt
  · exact Bool.noConfusion ((h'.2.2 b hlt).symm.trans h.2.1)
  · exact he
  · exact Bool.noConfusion ((h.2.2 b' hgt).symm.trans h'.2.1)

open SfsFs

variable {s : SfsFs} {b d len off ent entp j : Nat} {buf : Bytes}

theorem sfsRwblockNolock_post (write check : Bool) :
    (sfsRwblockNolock buf d b write check s).Post
      (fun x s' => ¬ s.XferFails 0 b ∧ Books s s' ∧ Later 1 s s' ∧
        (write = false → s'.dev.blk = s.dev.blk ∧ x = memcpy buf d (s.dev.blk (ioBlk b)) 0 4096))
      (fun _ s' => s.XferFails 0 b ∧ Books s s' ∧ Later 1 s s') := by
  unfold sfsRwblockNolock
  rw [Proc.get_bind]
  apply Outcome.Post.check_bind
  intro _
  apply Outcome.Post.zoom
  unfold dopIo
  rw [Proc.get_bind, Proc.modify_bind]
  by_cases hd : s.dev.dBlocks < ioBlk b + 1
  · have hd' : s.dev.dBlocks < b * sfsBlksize % 2 ^ 32 / sfsBlksize + 1 := hd
    rw [if_pos hd']
    exact ⟨Or.inl hd, ⟨rfl, rfl⟩, ⟨rfl, rfl, rfl⟩⟩
  · have hd' : ¬ s.dev.dBlocks < b * sfsBlksize % 2 ^ 32 / sfsBlksize + 1 := hd
    rw [if_neg hd']
    by_cases hf : s.dev.ioRet s.dev.ticks ≠ 0
    · rw [if_pos hf]
      exact ⟨Or.inr hf, ⟨rfl, rfl⟩, ⟨rfl, rfl, rfl⟩⟩
    · have hx : ¬ s.XferFails 0 b := fun hc => hc.elim hd hf
      rw [if_neg hf]
      cases write with
      | false =>
        rw [if_neg Bool.false_ne_true]
        exact ⟨hx, ⟨rfl, rfl⟩, ⟨rfl, rfl, rfl⟩, fun _ => ⟨rfl, rfl⟩⟩
      | true =>
        rw [if_pos rfl]
        exact ⟨hx, ⟨rfl, rfl⟩, ⟨rfl, rfl, rfl⟩, fun hc => Bool.noConfusion hc⟩

theorem sfsRbufEntry_post :
    (sfsRbufEntry ent (j * 4) s).Post
      (fun x s' => ¬ s.XferFails 0 ent ∧ Books s s' ∧ Later 1 s s' ∧ s'.dev.blk = s.dev.blk ∧
        x = s.entryRead ent j)
      (fun _ s' => s.XferFails 0 ent ∧ Books s s') := by
  unfold sfsRbufEntry
  refine Outcome.Post.seq (Q := fun x s' => ¬ s.XferFails 0 ent ∧ Books s s' ∧ Later 1 s s' ∧
    s'.dev.blk = s.dev.blk ∧ getLe x 0 4 = s.entryRead ent j) ?_ fun x s' h => ?_
  · unfold sfsRbuf
    apply Outcome.Post.check_bind
    rintro ⟨-, hl⟩
    rw [Proc.get_bind]
    apply Outcome.Post.bind (sfsRwblockNolock_post false true) (fun _ _ h => ⟨h.1, h.2.1⟩)
    rintro x s' ⟨hx, hbk, hlt, hr⟩
    obtain ⟨hblk, rfl⟩ := hr rfl
    rw [setSfsBuffer, Proc.modify_bind]
    refine ⟨hx, ⟨hbk.freemap, hbk.super⟩, ⟨hlt.dBlocks, hlt.ioRet, hlt.ticks⟩, hblk, ?_⟩
    have hl' : j * 4 + 4 ≤ 4096 := hl
    rw [memcpy_from_read hl', getLe_memcpy_in (Nat.le_refl _) (Nat.le_refl _)]
    rfl
  · exact ⟨h.1, h.2.1, h.2.2.1, h.2.2.2.1, h.2.2.2.2⟩

theorem sfsWbuf_post :
    (sfsWbuf buf d len b off s).Post
      (fun _ s' => ¬ s.XferFails 0 b ∧ ¬ s.XferFails 1 b ∧ Books s s' ∧ Later 2 s s')
      (fun _ s' => (s.XferFails 0 b ∨ s.XferFails 1 b) ∧ Books s s') := by
  unfold sfsWbuf
  apply Outcome.Post.check_bind
  intro _
  rw [Proc.get_bind]
  apply Outcome.Post.bind (sfsRwblockNolock_post false true) (fun _ _ h => ⟨Or.inl h.1, h.2.1⟩)
  rintro x s₁ ⟨hx, hbk, hlt, -⟩
  simp only [setSfsBuffer, Proc.modify_bind]
  let s₂ : SfsFs := { s₁ with sfsBuffer := memcpy x off buf d len }
  have hlt₂ : Later 1 s s₂ := ⟨hlt.dBlocks, hlt.ioRet, hlt.ticks⟩
  have hbk₂ : Books s s₂ := ⟨hbk.freemap, hbk.super⟩
  apply Outcome.Post.bind (sfsRwblockNolock_post (s := s₂) true true)
  · exact fun _ _ h => ⟨Or.inr (hlt₂.xferFails.mp h.1), hbk₂.trans h.2.1⟩
  · rintro _ s₃ ⟨hx', hbk', hlt', -⟩
    exact ⟨hx, fun hc => hx' (hlt₂.xferFails.mpr hc), hbk₂.trans hbk', hlt₂.trans hlt'⟩

theorem sfsClearBlock_post :
    (sfsClearBlock b 1 s).Post
      (fun _ s' => ¬ s.XferFails 0 b ∧ Books s s' ∧ Later 1 s s')
      (fun _ s' => s.XferFails 0 b ∧ Books s s') := by
  unfold sfsClearBlock sfsClearBlockLoop
  rw [Proc.get_bind, setSfsBuffer, Proc.modify_bind]
  let s₁ : SfsFs := { s with sfsBuffer := memzero s.sfsBuffer sfsBlksize }
  apply Outcome.Post.bind (sfsRwblockNolock_post (s := s₁) true true)
  · exact fun _ _ h => ⟨h.1, ⟨h.2.1.freemap, h.2.1.super⟩⟩
  · rintro _ s₂ ⟨hx, hbk, hlt, -⟩
    exact ⟨hx, ⟨hbk.freemap, hbk.super⟩, ⟨hlt.dBlocks, hlt.ioRet, hlt.ticks⟩⟩

theorem bitmapTest_post {m : Bitmap} :
    (bitmapTest b m).Post (fun t m' => m' = m ∧ t = m.bit b) (fun _ _ => False) := by
  by_cases hb : b < m.nbits
  · rw [bitmapTest_run hb]
    exact ⟨rfl, rfl⟩
  · unfold bitmapTest
    rw [Proc.get_bind, Proc.check_bind_neg hb]
    trivial

theorem assertInuse_post (p : SfsPanic) :
    (assertInuse p b s).Post (fun _ s' => s' = s ∧ b ≠ 0 ∧ s.freemap.bit b = false) (fun _ _ => False) := by
  unfold assertInuse sfsBlockInuse
  refine Outcome.Post.seq (Q := fun t s' => s' = s ∧ b ≠ 0 ∧ t = !s.freemap.bit b) ?_ ?_
  · rw [Proc.get_bind]
    by_cases hc : b ≠ 0 ∧ b < s.super.blocks
    · rw [if_pos hc]
      apply Outcome.Post.seq (Q := fun t s' => s' = s ∧ t = s.freemap.bit b)
      · apply Outcome.Post.zoom
        refine bitmapTest_post.imp ?_ fun _ _ h => h
        rintro t m ⟨rfl, rfl⟩
        exact ⟨rfl, rfl⟩
      · rintro t s' ⟨rfl, rfl⟩
        exact ⟨rfl, hc.1, rfl⟩
    · rw [if_neg hc]
      trivial
  · rintro t s' ⟨rfl, h0, rfl⟩
    apply Outcome.Post.check
    intro ht
    exact ⟨rfl, h0, by simpa using ht⟩

theorem sfsBlockFree_post :
    (sfsBlockFree b s).Post (fun _ s' => s.freemap.bit b = false ∧ s' = s.give b) (fun _ _ => False) := by
  unfold sfsBlockFree
  apply Outcome.Post.bind (assertInuse_post _) (fun _ _ h => h)
  rintro _ s' ⟨rfl, -, hb⟩
  apply Outcome.Post.seq (Q := fun _ s₁ => s₁ = { s' with freemap := s'.freemap.raise b })
  · apply Outcome.Post.zoom
    unfold bitmapFree
    rw [Proc.get_bind]
    apply Outcome.Post.check_bind
    intro _
    apply Outcome.Post.check_bind
    intro _
    rfl
  · rintro _ s₁ rfl
    exact ⟨hb, rfl⟩

/-- **Allocation.** It fails without a free block, leaving everything as before, or when the clearing
    fails, and then the block is gone. -/
theorem sfsBlockAlloc_post :
    (sfsBlockAlloc s).Post
      (fun b s' => s.freemap.Lowest b ∧ b ≠ 0 ∧ 0 < s.super.unusedBlocks ∧ ¬ s.XferFails 0 b ∧
        Books (s.take b) s' ∧ Later 1 s s')
      (fun _ s' => (∀ b, ¬ s.freemap.Lowest b) ∧ Books s s' ∨
        ∃ b, s.freemap.Lowest b ∧ s.XferFails 0 b ∧ Books (s.take b) s') := by
  unfold sfsBlockAlloc
  rcases bitmapAlloc_cases s.freemap with ⟨h0, hrun⟩ | ⟨b, hb, hbit, hmin, hrun⟩
  · have hzoom : onFreemap bitmapAlloc s = .err (-eNoMem) s := Proc.zoom_err hrun
    rw [Proc.bind_err hzoom]
    refine Or.inl ⟨fun b hl => ?_, Books.refl s⟩
    exact absurd h0 (Nat.pos_iff_ne_zero.mp (Bitmap.setBits_pos.mpr ⟨b, hl.1, hl.2.1⟩))
  · have hzoom : onFreemap bitmapAlloc s = .ok b { s with freemap := s.freemap.flip b } := Proc.zoom_ok hrun
    have hlow : s.freemap.Lowest b := ⟨hb, hbit, hmin⟩
    rw [Proc.bind_ok hzoom, Proc.get_bind]
    apply Outcome.Post.check_bind
    intro hpos
    rw [Proc.modify_bind]
    show ((assertInuse .blockAllocInuse b >>= fun _ => sfsClearBlock b 1 >>= fun _ => pure b) (s.take b)).Post _ _
    apply Outcome.Post.bind (assertInuse_post _) (fun _ _ h => absurd h id)
    rintro _ s' ⟨rfl, hne, -⟩
    apply Outcome.Post.bind sfsClearBlock_post
    · exact fun _ s' h => Or.inr ⟨b, hlow, h.1, h.2⟩
    · rintro _ s' ⟨hx, hbk, hlt⟩
      exact ⟨hlow, hne, hpos, hx, hbk, ⟨hlt.dBlocks, hlt.ioRet, hlt.ticks⟩⟩

/-! ## Mapping a block -/

theorem bmapCleanup_post :
    (bmapCleanup entp ent s).Post (fun _ s' => s' = s.cleanup entp ent) (fun _ _ => False) := by
  unfold bmapCleanup SfsFs.cleanup
  by_cases h : ent ≠ entp
  · rw [if_pos h, if_pos h]
    exact sfsBlockFree_post.imp (fun _ _ h => h.2) fun _ _ h => h
  · rw [if_neg h, if_neg h]
    rfl

theorem SfsFs.Books.cleanup {s s' : SfsFs} (h : Books s s') (entp ent : Nat) :
    Books (s.cleanup entp ent) (s'.cleanup entp ent) := by
  unfold SfsFs.cleanup
  split
  · exact h.give ent
  · exact h

/-- Entering a new block, with the free map `m` and from the `k`-th transfer on, fails. -/
def SfsFs.NewEntryFails (s : SfsFs) (m : Bitmap) (k ent : Nat) : Prop :=
  (∀ b, ¬ m.Lowest b) ∨
    ∃ b, m.Lowest b ∧ (s.XferFails k b ∨ s.XferFails (k + 1) ent ∨ s.XferFails (k + 2) ent)

/-- Clearing the block that the free map `m` has next fails, in the `k`-th transfer from now on. -/
def SfsFs.Leaks (s : SfsFs) (m : Bitmap) (k : Nat) : Prop := ∃ b, m.Lowest b ∧ s.XferFails k b

theorem bmapNewEntry_post :
    (bmapNewEntry entp ent off s).Post
      (fun r _ => r.1 = ent ∧ ¬ s.NewEntryFails s.freemap 0 ent)
      (fun _ s' => s.NewEntryFails s.freemap 0 ent ∧
        (¬ s.Leaks s.freemap 0 ∧ Books (s.cleanup entp ent) s' ∨
          ∃ b, s.freemap.Lowest b ∧ s.XferFails 0 b ∧ Books ((s.take b).cleanup entp ent) s')) := by
  unfold bmapNewEntry
  apply Outcome.Post.seq (Q := fun b s' => s.freemap.Lowest b ∧ b ≠ 0 ∧ 0 < s.super.unusedBlocks ∧
    ¬ s.XferFails 0 b ∧ Books (s.take b) s' ∧ Later 1 s s')
  · apply Outcome.Post.onErr sfsBlockAlloc_post
    intro _ s₁ h
    refine bmapCleanup_post.imp (fun _ s₂ h₂ => ?_) (fun _ _ h => absurd h id)
    subst h₂
    rcases h with ⟨hno, hbk⟩ | ⟨b, hlow, hx, hbk⟩
    · refine ⟨Or.inl hno, Or.inl ⟨?_, hbk.cleanup entp ent⟩⟩
      rintro ⟨b, hlow, -⟩
      exact hno b hlow
    · exact ⟨Or.inr ⟨b, hlow, Or.inl hx⟩, Or.inr ⟨b, hlow, hx, hbk.cleanup entp ent⟩⟩
  · rintro b s₁ ⟨hlow, hne, hpos, hx, hbk, hlt⟩
    have hleak : ¬ s.Leaks s.freemap 0 := by
      rintro ⟨b', hlow', hx'⟩
      exact hx (hlow.eq hlow' ▸ hx')
    have hwrite : (sfsWbufEntry b ent off s₁).Post (fun _ _ => ¬ s.XferFails 1 ent ∧ ¬ s.XferFails 2 ent)
        (fun _ s₂ => (s.XferFails 1 ent ∨ s.XferFails 2 ent) ∧ Books s₁ s₂) := by
      refine sfsWbuf_post.imp (fun _ s₂ h => ?_) fun _ s₂ h => ?_
      · exact ⟨fun hc => h.1 (hlt.xferFails.mpr hc), fun hc => h.2.1 (hlt.xferFails.mpr hc)⟩
      · exact ⟨h.1.imp hlt.xferFails.mp hlt.xferFails.mp, h.2⟩
    apply Outcome.Post.seq (Q := fun _ _ => ¬ s.XferFails 1 ent ∧ ¬ s.XferFails 2 ent)
    · apply Outcome.Post.onErr hwrite
      rintro _ s₂ ⟨hw, hbk₂⟩
      -- the data block goes back first, then the entry block
      apply Outcome.Post.bind sfsBlockFree_post (fun _ _ h => absurd h id)
      rintro _ s₃ ⟨-, rfl⟩
      refine bmapCleanup_post.imp (fun _ s₄ h₄ => ?_) (fun _ _ h => absurd h id)
      subst h₄
      have hback : Books s (s₂.give b) :=
        (books_give_take hlow.2.1 hpos).trans ((hbk.trans hbk₂).give b)
      exact ⟨Or.inr ⟨b, hlow, Or.inr hw⟩, Or.inl ⟨hleak, hback.cleanup entp ent⟩⟩
    · rintro _ s₂ ⟨hw₁, hw₂⟩
      refine ⟨rfl, ?_⟩
      rintro (hno | ⟨b', hlow', hf⟩)
      · exact hno b hlow
      · obtain rfl := hlow.eq hlow'
        exact hf.elim hx fun hf => hf.elim hw₁ hw₂

/-- Mapping entry `j` below the entry block `entp` fails. -/
def SfsFs.SubFails (s : SfsFs) (entp j : Nat) : Prop :=
  if entp = 0 then
    (∀ e, ¬ s.freemap.Lowest e) ∨
      ∃ e, s.freemap.Lowest e ∧ (s.XferFails 0 e ∨ s.NewEntryFails (s.freemap.flip e) 1 e)
  else s.XferFails 0 entp ∨ s.entryRead entp j = 0 ∧ s.NewEntryFails s.freemap 1 entp

/-- Mapping entry `j` below the entry block `entp` loses a block. -/
def SfsFs.SubLeaks (s : SfsFs) (entp j : Nat) : Prop :=
  if entp = 0 then
    ∃ e, s.freemap.Lowest e ∧ (s.XferFails 0 e ∨ s.Leaks (s.freemap.flip e) 1)
  else ¬ s.XferFails 0 entp ∧ s.entryRead entp j = 0 ∧ s.Leaks s.freemap 1

theorem SfsFs.Later.leaks {s s' : SfsFs} {k i : Nat} {m : Bitmap} (h : Later k s s') :
    s'.Leaks m i ↔ s.Leaks m (k + i) := by
  unfold SfsFs.Leaks
  simp only [h.xferFails]

theorem SfsFs.Later.newEntryFails {s s' : SfsFs} {k i : Nat} {m : Bitmap} (h : Later k s s') :
    s'.NewEntryFails m i ent ↔ s.NewEntryFails m (k + i) ent := by
  unfold SfsFs.NewEntryFails
  simp only [h.xferFails, Nat.add_assoc]

/-- The failure is clean, or a block is lost, which shows in the free map. -/
def SfsFs.Ends (s s' : SfsFs) (leak : Prop) : Prop :=
  ¬ leak ∧ Books s s' ∨ leak ∧ s'.freemap ≠ s.freemap

/-- A block that is marked and not given back changes the free map. -/
theorem freemap_ne {s s' : SfsFs} {b : Nat} (hb : s.freemap.bit b = true) (hb' : s'.freemap.bit b = false) :
    s'.freemap ≠ s.freemap := by
  intro h
  rw [h, hb] at hb'
  exact Bool.noConfusion hb'

theorem sfsBmapGetSubNolock_existing {create : Bool} (h0 : entp ≠ 0) :
    (sfsBmapGetSubNolock entp j create s).Post (fun _ _ => create = true → ¬ s.SubFails entp j)
      (fun _ s' => (create = true → s.SubFails entp j) ∧ s.Ends s' (create = true ∧ s.SubLeaks entp j)) := by
  unfold sfsBmapGetSubNolock SfsFs.SubFails SfsFs.SubLeaks
  rw [if_neg h0, if_neg h0]
  apply Outcome.Post.check_bind
  intro _
  rw [if_pos h0]
  apply Outcome.Post.bind sfsRbufEntry_post
  · rintro _ s' ⟨hx, hbk⟩
    exact ⟨fun _ => Or.inl hx, Or.inl ⟨fun hc => hc.2.1 hx, hbk⟩⟩
  · rintro ino s₁ ⟨hx, hbk, hlt, -, rfl⟩
    by_cases hc : s.entryRead entp j ≠ 0 ∨ create = false
    · rw [if_pos hc]
      rintro rfl (hf | hf)
      · exact hx hf
      · exact hc.elim (fun hne => hne hf.1) Bool.noConfusion
    · rw [if_neg hc]
      obtain ⟨hz, hcr⟩ := not_or.mp hc
      have hz' : s.entryRead entp j = 0 := not_not.mp hz
      have hcr' : create = true := by simpa using hcr
      have hclean : ∀ t : SfsFs, t.cleanup entp entp = t := fun t => if_neg (not_not_intro rfl)
      refine bmapNewEntry_post.imp (fun r _ h => ?_) fun _ s' h => ?_
      · rw [hlt.newEntryFails, hbk.freemap] at h
        exact fun _ hf => hf.elim hx fun hf => h.2 hf.2
      · rw [hlt.newEntryFails, hlt.leaks, hbk.freemap] at h
        obtain ⟨hfail, h⟩ := h
        refine ⟨fun _ => Or.inr ⟨hz', hfail⟩, ?_⟩
        rcases h with ⟨hleak, hb⟩ | ⟨b, hlow, hxb, hb⟩
        · rw [hclean] at hb
          exact Or.inl ⟨fun hc => hleak hc.2.2.2, hbk.trans hb⟩
        · rw [hclean] at hb
          refine Or.inr ⟨⟨hcr', hx, hz', b, hlow, hlt.xferFails.mp hxb⟩, ?_⟩
          apply freemap_ne hlow.2.1
          rw [hb.freemap, freemap_take, Bitmap.bit_flip, if_pos rfl, hbk.freemap, hlow.2.1]
          rfl

theorem sfsBmapGetSubNolock_missing {create : Bool} :
    (sfsBmapGetSubNolock 0 j create s).Post (fun _ _ => create = true → ¬ s.SubFails 0 j)
      (fun _ s' => (create = true → s.SubFails 0 j) ∧ s.Ends s' (create = true ∧ s.SubLeaks 0 j)) := by
  unfold sfsBmapGetSubNolock SfsFs.SubFails SfsFs.SubLeaks
  simp only [if_true]
  apply Outcome.Post.check_bind
  intro _
  simp only [ne_eq, not_true_eq_false, if_false]
  cases create with
  | false =>
    rw [if_pos rfl]
    exact fun hc => Bool.noConfusion hc
  | true =>
    rw [if_neg (Bool.noConfusion)]
    apply Outcome.Post.bind sfsBlockAlloc_post
    · rintro _ s' (⟨hno, hbk⟩ | ⟨e, hlow, hx, hbk⟩)
      · exact ⟨fun _ => Or.inl hno, Or.inl ⟨fun hc => hc.2.elim fun e he => hno e he.1, hbk⟩⟩
      · refine ⟨fun _ => Or.inr ⟨e, hlow, Or.inl hx⟩, Or.inr ⟨⟨rfl, e, hlow, Or.inl hx⟩, ?_⟩⟩
        apply freemap_ne hlow.2.1
        rw [hbk.freemap, freemap_take, Bitmap.bit_flip, if_pos rfl, hlow.2.1]
        rfl
    · rintro e s₁ ⟨hlow, hne, hpos, hx, hbk, hlt⟩
      have hmap : s₁.freemap = s.freemap.flip e := hbk.freemap
      have hclean : ∀ t : SfsFs, t.cleanup 0 e = t.give e := fun t => if_pos hne
      have hback : Books s (s₁.give e) := (books_give_take hlow.2.1 hpos).trans (hbk.give e)
      refine bmapNewEntry_post.imp (fun r _ h => ?_) fun _ s' h => ?_
      · rw [hlt.newEntryFails, hmap] at h
        rintro - (hno | ⟨e', hlow', hf⟩)
        · exact hno e hlow
        · obtain rfl := hlow.eq hlow'
          exact hf.elim hx h.2
      · rw [hlt.newEntryFails, hlt.leaks, hmap] at h
        obtain ⟨hfail, h⟩ := h
        refine ⟨fun _ => Or.inr ⟨e, hlow, Or.inr hfail⟩, ?_⟩
        rcases h with ⟨hleak, hb⟩ | ⟨b, hlow', hxb, hb⟩
        · rw [hclean] at hb
          refine Or.inl ⟨?_, hback.trans hb⟩
          rintro ⟨-, e', hlow', hf⟩
          obtain rfl := hlow.eq hlow'
          exact hf.elim hx hleak
        · rw [hclean] at hb
          refine Or.inr ⟨⟨rfl, e, hlow, Or.inr ⟨b, hlow', hlt.xferFails.mp hxb⟩⟩, ?_⟩
          -- the lost block is not the entry block, which was given back
          have hbit := hlow'.2.1
          have hbe : b ≠ e := by
            rintro rfl
            rw [Bitmap.bit_flip, if_pos rfl, hlow.2.1] at hbit
            exact Bool.noConfusion hbit
          rw [Bitmap.bit_flip, if_neg hbe] at hbit
          apply freemap_ne hbit
          rw [hb.freemap, freemap_give, freemap_take, Bitmap.bit_raise, Bitmap.bit_flip, if_pos rfl, hmap,
            Bitmap.bit_flip, if_neg hbe, hbit, decide_eq_false hbe]
          rfl

theorem sfsBmapGetSubNolock_post {create : Bool} :
    (sfsBmapGetSubNolock entp j create s).Post (fun _ _ => create = true → ¬ s.SubFails entp j)
      (fun _ s' => (create = true → s.SubFails entp j) ∧ s.Ends s' (create = true ∧ s.SubLeaks entp j)) := by
  by_cases h0 : entp = 0
  · subst h0
    exact sfsBmapGetSubNolock_missing
  · exact sfsBmapGetSubNolock_existing h0

/-! ## The three functions -/

namespace SfsCtx

/-- What the caller of a failed function finds as it was. -/
structure Same (c c' : SfsCtx) : Prop where
  freemap : c'.fs.freemap = c.fs.freemap
  unusedBlocks : c'.fs.super.unusedBlocks = c.fs.super.unusedBlocks
  direct : c'.sin.din.direct = c.sin.din.direct
  indirect : c'.sin.din.indirect = c.sin.din.indirect
  blocks : c'.sin.din.blocks = c.sin.din.blocks
  size : c'.sin.din.size = c.sin.din.size

/-- Mapping the index `i` fails. -/
def GetFails (c : SfsCtx) (i : Nat) : Prop :=
  if h : i < 12 then
    c.sin.din.direct ⟨i, h⟩ = 0 ∧ ((∀ b, ¬ c.fs.freemap.Lowest b) ∨ c.fs.Leaks c.fs.freemap 0)
  else c.fs.SubFails c.sin.din.indirect (i - 12)

/-- Mapping the index `i` loses a block. -/
def GetLeaks (c : SfsCtx) (i : Nat) : Prop :=
  if h : i < 12 then c.sin.din.direct ⟨i, h⟩ = 0 ∧ c.fs.Leaks c.fs.freemap 0
  else c.fs.SubLeaks c.sin.din.indirect (i - 12)

/-- Dropping the index `i` fails. -/
def FreeFails (c : SfsCtx) (i : Nat) : Prop :=
  12 ≤ i ∧ i < 1036 ∧ c.sin.din.indirect ≠ 0 ∧
    (c.fs.XferFails 0 c.sin.din.indirect ∨ c.fs.entryRead c.sin.din.indirect (i - 12) ≠ 0 ∧
      (c.fs.XferFails 1 c.sin.din.indirect ∨ c.fs.XferFails 2 c.sin.din.indirect))

/-- A failure that leaves the inode alone. -/
structure FailsClean (c c' : SfsCtx) (leak : Prop) : Prop where
  sin : c'.sin = c.sin
  ends : c.fs.Ends c'.fs leak

theorem FailsClean.same {c c' : SfsCtx} {leak : Prop} (h : FailsClean c c' leak) : c.Same c' ↔ ¬ leak := by
  rcases h.ends with ⟨hno, hb⟩ | ⟨hl, hne⟩
  · refine iff_of_true ⟨hb.freemap, by rw [hb.super], ?_, ?_, ?_, ?_⟩ hno <;> rw [h.sin]
  · exact iff_of_false (fun hs => hne hs.freemap) (not_not_intro hl)

end SfsCtx

variable {c : SfsCtx} {i : Nat} {create : Bool}

/-- A check of a block stops the machine or changes nothing. -/
theorem onFs_assertInuse_post (p : SfsPanic) (b : Nat) :
    (onFs (assertInuse p b) c).Post (fun _ c' => c'.sin = c.sin) (fun _ _ => False) := by
  apply Outcome.Post.zoom
  exact (assertInuse_post p).imp (fun _ _ _ => rfl) fun _ _ h => h

theorem bmapGetDirect_post (hi : i < 12) :
    (bmapGetDirect ⟨i, hi⟩ create c).Post
      (fun _ c' => (create = true → ¬ c.GetFails i) ∧ c'.sin.din.blocks = c.sin.din.blocks)
      (fun _ c' => (create = true → c.GetFails i) ∧ c.FailsClean c' (create = true ∧ c.GetLeaks i)) := by
  unfold bmapGetDirect SfsCtx.GetFails SfsCtx.GetLeaks
  rw [dif_pos hi, dif_pos hi, Proc.get_bind]
  by_cases hc : c.sin.din.direct ⟨i, hi⟩ = 0 ∧ create = true
  · rw [if_pos hc]
    have hzoom : (onFs sfsBlockAlloc c).Post
        (fun _ c' => (∃ b, c.fs.freemap.Lowest b ∧ ¬ c.fs.XferFails 0 b) ∧ c'.sin = c.sin)
        (fun _ c' => c'.sin = c.sin ∧ ((∀ b, ¬ c.fs.freemap.Lowest b) ∧ Books c.fs c'.fs ∨
          ∃ b, c.fs.freemap.Lowest b ∧ c.fs.XferFails 0 b ∧ Books (c.fs.take b) c'.fs)) := by
      apply Outcome.Post.zoom
      exact sfsBlockAlloc_post.imp (fun b _ h => ⟨⟨b, h.1, h.2.2.2.1⟩, rfl⟩) fun _ _ h => ⟨rfl, h⟩
    apply Outcome.Post.bind hzoom
    · rintro _ c' ⟨hsin, ⟨hno, hbk⟩ | ⟨b, hlow, hx, hbk⟩⟩
      · exact ⟨fun _ => ⟨hc.1, Or.inl hno⟩, hsin, Or.inl ⟨fun hl => hl.2.2.elim fun b hb => hno b hb.1, hbk⟩⟩
      · refine ⟨fun _ => ⟨hc.1, Or.inr ⟨b, hlow, hx⟩⟩, hsin, Or.inr ⟨⟨hc.2, hc.1, b, hlow, hx⟩, ?_⟩⟩
        apply freemap_ne hlow.2.1
        rw [hbk.freemap, freemap_take, Bitmap.bit_flip, if_pos rfl, hlow.2.1]
        rfl
    · rintro _ c' ⟨⟨b, hlow, hx⟩, hsin⟩
      simp only [modifyDin, setDirty, Proc.modify_bind]
      refine ⟨fun _ hf => ?_, by rw [hsin]⟩
      rcases hf.2 with hno | ⟨b', hlow', hx'⟩
      · exact hno b hlow
      · exact hx (hlow.eq hlow' ▸ hx')
  · rw [if_neg hc]
    exact ⟨fun hcr hf => hc ⟨hf.1, hcr⟩, rfl⟩

theorem bmapGetIndirect_post (hi : ¬ i < 12) :
    (bmapGetIndirect (i - 12) create c).Post
      (fun _ c' => (create = true → ¬ c.GetFails i) ∧ c'.sin.din.blocks = c.sin.din.blocks)
      (fun _ c' => (create = true → c.GetFails i) ∧ c.FailsClean c' (create = true ∧ c.GetLeaks i)) := by
  unfold bmapGetIndirect SfsCtx.GetFails SfsCtx.GetLeaks
  rw [dif_neg hi, dif_neg hi, Proc.get_bind]
  have hzoom : (onFs (sfsBmapGetSubNolock c.sin.din.indirect (i - 12) create) c).Post
      (fun _ c' => (create = true → ¬ c.fs.SubFails c.sin.din.indirect (i - 12)) ∧ c'.sin = c.sin)
      (fun _ c' => (create = true → c.fs.SubFails c.sin.din.indirect (i - 12)) ∧
        c.FailsClean c' (create = true ∧ c.fs.SubLeaks c.sin.din.indirect (i - 12))) := by
    apply Outcome.Post.zoom
    exact sfsBmapGetSubNolock_post.imp (fun _ _ h => ⟨h, rfl⟩) fun _ _ h => ⟨h.1, rfl, h.2⟩
  apply Outcome.Post.seq hzoom
  rintro ⟨ent, ino⟩ c' ⟨hno, hsin⟩
  by_cases he : ent ≠ c.sin.din.indirect
  · simp only [if_pos he]
    apply Outcome.Post.check_bind
    intro _
    simp only [modifyDin, setDirty, Proc.modify_bind]
    exact ⟨hno, by rw [hsin]⟩
  · simp only [if_neg he]
    exact ⟨hno, by rw [hsin]⟩

theorem sfsBmapGetNolock_post :
    (sfsBmapGetNolock i create c).Post
      (fun _ c' => (create = true → ¬ c.GetFails i) ∧ c'.sin.din.blocks = c.sin.din.blocks)
      (fun _ c' => (create = true → c.GetFails i) ∧ c.FailsClean c' (create = true ∧ c.GetLeaks i)) := by
  have hend : ∀ (ino : Nat) (c₁ : SfsCtx),
      (create = true → ¬ c.GetFails i) ∧ c₁.sin.din.blocks = c.sin.din.blocks →
      ((if ino = 0 then pure ino else do
        onFs (assertInuse .bmapGetInuse ino)
        pure ino : SinM Nat) c₁).Post
      (fun _ c' => (create = true → ¬ c.GetFails i) ∧ c'.sin.din.blocks = c.sin.din.blocks)
      (fun _ c' => (create = true → c.GetFails i) ∧ c.FailsClean c' (create = true ∧ c.GetLeaks i)) := by
    intro ino c₁ h
    split
    · exact h
    · apply (onFs_assertInuse_post _ ino).bind (fun _ _ h => absurd h id)
      intro _ c' hs
      exact ⟨h.1, by rw [hs, h.2]⟩
  unfold sfsBmapGetNolock
  by_cases hi : i < 12
  · simp only [hi, dite_true]
    exact (bmapGetDirect_post hi).seq hend
  · simp only [hi, dite_false]
    split
    · exact (bmapGetIndirect_post hi).seq hend
    · trivial

theorem sfsBmapLoadNolock_post :
    (sfsBmapLoadNolock i c).Post
      (fun _ c' => (i = c.sin.din.blocks → ¬ c.GetFails i ∧ c'.sin.din.blocks = c.sin.din.blocks + 1))
      (fun _ c' => (i = c.sin.din.blocks → c.GetFails i) ∧
        c.FailsClean c' (i = c.sin.din.blocks ∧ c.GetLeaks i)) := by
  unfold sfsBmapLoadNolock
  rw [Proc.get_bind]
  apply Outcome.Post.check_bind
  intro _
  have hget := @sfsBmapGetNolock_post c i (decide (i = c.sin.din.blocks))
  simp only [decide_eq_true_eq] at hget ⊢
  apply Outcome.Post.seq hget
  rintro ino c₁ ⟨hno, hb⟩
  apply (onFs_assertInuse_post _ ino).bind (fun _ _ h => absurd h id)
  intro _ c₂ hs
  by_cases hi : i = c.sin.din.blocks
  · simp only [if_pos hi, modifyDin, Proc.modify_bind]
    refine fun _ => ⟨hno hi, ?_⟩
    show c₂.sin.din.blocks + 1 = _
    rw [hs, hb]
  · simp only [if_neg hi]
    exact fun hc => absurd hc hi

theorem sfsBmapFreeSubNolock_post :
    (sfsBmapFreeSubNolock ent j s).Post
      (fun _ _ => ¬ (s.XferFails 0 ent ∨ s.entryRead ent j ≠ 0 ∧ (s.XferFails 1 ent ∨ s.XferFails 2 ent)))
      (fun _ s' => (s.XferFails 0 ent ∨ s.entryRead ent j ≠ 0 ∧ (s.XferFails 1 ent ∨ s.XferFails 2 ent)) ∧
        Books s s') := by
  unfold sfsBmapFreeSubNolock
  apply Outcome.Post.bind (assertInuse_post _) (fun _ _ h => absurd h id)
  rintro _ s' ⟨rfl, -, -⟩
  apply Outcome.Post.check_bind
  intro _
  apply Outcome.Post.bind sfsRbufEntry_post (fun _ _ h => ⟨Or.inl h.1, h.2⟩)
  rintro ino s₁ ⟨hx, hbk, hlt, -, rfl⟩
  by_cases hz : s'.entryRead ent j ≠ 0
  · rw [if_pos hz]
    apply Outcome.Post.bind sfsWbuf_post
    · rintro _ s₂ ⟨hw, hbk₂⟩
      exact ⟨Or.inr ⟨hz, hw.imp hlt.xferFails.mp hlt.xferFails.mp⟩, hbk.trans hbk₂⟩
    · rintro _ s₂ ⟨hw₁, hw₂, -⟩
      refine sfsBlockFree_post.imp (fun _ _ _ => ?_) fun _ _ h => absurd h id
      rintro (hf | ⟨-, hf | hf⟩)
      · exact hx hf
      · exact hw₁ (hlt.xferFails.mpr hf)
      · exact hw₂ (hlt.xferFails.mpr hf)
  · rw [if_neg hz]
    rintro (hf | ⟨hne, -⟩)
    · exact hx hf
    · exact hz hne

theorem sfsBmapFreeNolock_post :
    (sfsBmapFreeNolock i c).Post
      (fun _ c' => ¬ c.FreeFails i ∧ c'.sin.din.blocks = c.sin.din.blocks)
      (fun _ c' => c.FreeFails i ∧ c.FailsClean c' False) := by
  unfold sfsBmapFreeNolock
  rw [Proc.get_bind]
  by_cases hi : i < 12
  · have hno : ¬ c.FreeFails i := fun hf => absurd hf.1 (Nat.not_le.mpr hi)
    rw [dif_pos hi]
    by_cases hz : c.sin.din.direct ⟨i, hi⟩ ≠ 0
    · rw [if_pos hz]
      have hzoom : (onFs (sfsBlockFree (c.sin.din.direct ⟨i, hi⟩)) c).Post
          (fun _ c' => c'.sin = c.sin) (fun _ _ => False) := by
        apply Outcome.Post.zoom
        exact sfsBlockFree_post.imp (fun _ _ _ => rfl) fun _ _ h => h
      apply hzoom.bind (fun _ _ h => absurd h id)
      intro _ c₁ hs
      simp only [modifyDin, setDirty, Proc.modify_bind]
      exact ⟨hno, by rw [hs]⟩
    · rw [if_neg hz]
      exact ⟨hno, rfl⟩
  · rw [dif_neg hi]
    by_cases hlt : i - sfsNdirect < sfsBlkNentry
    · have hi' : i < 1036 := by
        have : i - 12 < 1024 := hlt
        omega
      rw [if_pos hlt]
      by_cases hz : c.sin.din.indirect ≠ 0
      · rw [if_pos hz]
        apply Outcome.Post.zoom
        refine sfsBmapFreeSubNolock_post.imp (fun _ _ h => ⟨fun hf => h hf.2.2.2, rfl⟩) fun _ _ h => ?_
        exact ⟨⟨Nat.le_of_not_lt hi, hi', hz, h.1⟩, rfl, Or.inl ⟨id, h.2⟩⟩
      · rw [if_neg hz]
        exact ⟨fun hf => hz hf.2.2.1, rfl⟩
    · rw [if_neg hlt]
      refine ⟨fun hf => hlt ?_, rfl⟩
      show i - 12 < 1024
      have := hf.2.1
      omega

theorem sfsBmapTruncateNolock_post :
    (sfsBmapTruncateNolock c).Post
      (fun _ c' => ¬ c.FreeFails (c.sin.din.blocks - 1) ∧ c'.sin.din.blocks < c.sin.din.blocks)
      (fun _ c' => c.FreeFails (c.sin.din.blocks - 1) ∧ c.FailsClean c' False) := by
  unfold sfsBmapTruncateNolock
  rw [Proc.get_bind]
  apply Outcome.Post.check_bind
  intro h0
  apply Outcome.Post.seq sfsBmapFreeNolock_post
  rintro _ c₁ ⟨hno, hb⟩
  simp only [modifyDin, setDirty, Proc.modify_bind]
  refine ⟨hno, ?_⟩
  show c₁.sin.din.blocks - 1 < _
  omega

/-! ## `sfs_truncfile` -/

/-- A loop that fails has either failed in its first step, cleanly unless `leak`, or moved `blocks`. -/
structure SfsCtx.LoopFails (c c' : SfsCtx) (first leak : Prop) : Prop where
  clean : first → c.FailsClean c' leak
  moved : ¬ first → c'.sin.din.blocks ≠ c.sin.din.blocks

theorem truncfileGrow_post (n : Nat) : ∀ c : SfsCtx,
    (truncfileGrow c.sin.din.blocks n c).Post (fun _ _ => True)
      (fun _ c' => c.sin.din.blocks ≤ c'.sin.din.blocks ∧
        c.LoopFails c' (c.GetFails c.sin.din.blocks) (c.GetLeaks c.sin.din.blocks)) := by
  induction n with
  | zero => exact fun _ => trivial
  | succ n ih =>
    intro c
    unfold truncfileGrow
    apply Outcome.Post.bind sfsBmapLoadNolock_post
    · rintro _ c' ⟨hf, hc⟩
      simp only [true_and, forall_const] at hf hc
      exact ⟨by rw [hc.sin], fun _ => hc, fun hn => absurd hf hn⟩
    · intro _ c₁ h
      obtain ⟨hno, hb⟩ := h rfl
      rw [← hb]
      refine (ih c₁).imp (fun _ _ h => h) fun _ c' h => ?_
      have hle := h.1
      exact ⟨by omega, fun hf => absurd hf hno, fun _ => by omega⟩

theorem truncfileShrink_post (n : Nat) : ∀ c : SfsCtx,
    (truncfileShrink n c).Post (fun _ _ => True)
      (fun _ c' => c'.sin.din.blocks ≤ c.sin.din.blocks ∧
        c.LoopFails c' (c.FreeFails (c.sin.din.blocks - 1)) False) := by
  induction n with
  | zero => exact fun _ => trivial
  | succ n ih =>
    intro c
    unfold truncfileShrink
    apply Outcome.Post.bind sfsBmapTruncateNolock_post
    · rintro _ c' ⟨hf, hc⟩
      exact ⟨by rw [hc.sin], fun _ => hc, fun hn => absurd hf hn⟩
    · rintro _ c₁ ⟨hno, hb⟩
      refine (ih c₁).imp (fun _ _ h => h) fun _ c' h => ?_
      have hle := h.1
      exact ⟨by omega, fun hf => absurd hf hno, fun _ => by omega⟩

/-- The first block step of `sfs_truncfile` to `len` bytes already fails, and loses no block. -/
def SfsCtx.FirstStepFails (c : SfsCtx) (len : Nat) : Prop :=
  if c.sin.din.blocks < roundupDiv len sfsBlksize then
    c.GetFails c.sin.din.blocks ∧ ¬ c.GetLeaks c.sin.din.blocks
  else c.FreeFails (c.sin.din.blocks - 1)

theorem SfsCtx.LoopFails.same {c c' : SfsCtx} {first leak : Prop} (h : c.LoopFails c' first leak) :
    c.Same c' ↔ first ∧ ¬ leak := by
  by_cases hf : first
  · rw [(h.clean hf).same]
    exact ⟨fun hl => ⟨hf, hl⟩, fun hl => hl.2⟩
  · exact iff_of_false (fun hs => h.moved hf hs.blocks) fun hc => hf hc.1

theorem sfsTruncfile_post (len : Int) :
    (sfsTruncfile len c).Post (fun _ _ => True)
      (fun _ c' => c.Same c' ↔
        len < 0 ∨ (sfsMaxFileSize : Int) < len ∨ c.FirstStepFails len.toNat) := by
  unfold sfsTruncfile
  by_cases hl : len < 0 ∨ (sfsMaxFileSize : Int) < len
  · rw [if_pos hl]
    refine iff_of_true ⟨rfl, rfl, rfl, rfl, rfl, rfl⟩ ?_
    exact hl.imp id Or.inl
  · have hiff : (len < 0 ∨ (sfsMaxFileSize : Int) < len ∨ c.FirstStepFails len.toNat) ↔
        c.FirstStepFails len.toNat := by
      rw [← or_assoc]
      exact or_iff_right hl
    rw [if_neg hl, Proc.get_bind, hiff]
    by_cases hs : c.sin.din.size = len.toNat
    · rw [if_pos hs]
      exact Outcome.Post.check fun _ => trivial
    · rw [if_neg hs]
      -- the part after the loop stops the machine or returns
      have hrest : ∀ (c₁ : SfsCtx), ((do
            let c ← Proc.get
            Proc.check .truncfileBlocks (c.sin.din.blocks = roundupDiv len.toNat sfsBlksize)
            modifyDin fun din => { din with size := len.toNat }
            setDirty true : SinM Unit) c₁).Post (fun _ _ => True)
          (fun _ c' => c.Same c' ↔ c.FirstStepFails len.toNat) := by
        intro c₁
        rw [Proc.get_bind]
        apply Outcome.Post.check_bind
        intro _
        trivial
      unfold SfsCtx.FirstStepFails at hrest ⊢
      by_cases hlt : c.sin.din.blocks < roundupDiv len.toNat sfsBlksize
      · simp only [if_pos hlt] at hrest ⊢
        exact (truncfileGrow_post _ c).bind (fun _ _ h => h.2.same) fun _ c₁ _ => hrest c₁
      · simp only [if_neg hlt] at hrest ⊢
        refine (truncfileShrink_post _ c).bind (fun _ _ h => ?_) fun _ c₁ _ => hrest c₁
        rw [h.2.same]
        exact and_iff_left id

/-- **Error atomicity.** When one of the three functions fails, everything is as it was exactly if no
    block is lost to a failed clearing and, for a truncation, the first block step is the one that
    fails. -/
theorem sfs_error_atomic (c : SfsCtx) :
    (∀ i create e c', sfsBmapGetNolock i create c = .err e c' →
      (c.Same c' ↔ ¬ (create = true ∧ c.GetLeaks i))) ∧
    (∀ i e c', sfsBmapLoadNolock i c = .err e c' →
      (c.Same c' ↔ ¬ (i = c.sin.din.blocks ∧ c.GetLeaks i))) ∧
    (∀ len e c', sfsTruncfile len c = .err e c' →
      (c.Same c' ↔ len < 0 ∨ (sfsMaxFileSize : Int) < len ∨ c.FirstStepFails len.toNat)) := by
  refine ⟨fun i create e c' h => ?_, fun i e c' h => ?_, fun len e c' h => ?_⟩
  · exact (sfsBmapGetNolock_post.of_err h).2.same
  · exact (sfsBmapLoadNolock_post.of_err h).2.same
  · exact (sfsTruncfile_post len).of_err h

/-- The empty file on a device whose every transfer fails. -/
def deadDisk : SfsCtx :=
  { emptyFile with fs := { emptyFile.fs with dev := { emptyFile.fs.dev with ioRet := fun _ => -1 } } }

/-- Mapping the first block there fails, and block 3 is no longer free. -/
theorem sfsBmapGetNolock_loses_block :
    ¬ ∀ e c', sfsBmapGetNolock 0 true deadDisk = .err e c' → deadDisk.Same c' := by
  intro h
  have heval : (sfsBmapGetNolock 0 true deadDisk).testErr
      (fun _ c' => decide (c'.fs.super.unusedBlocks = 2)) = true := by decide +kernel
  obtain ⟨e, c', hrun, hp⟩ := Outcome.exists_of_testErr heval
  have hsame := (h e c' hrun).unusedBlocks
  rw [of_decide_eq_true hp] at hsame
  exact absurd hsame (by decide)

/-- Asking for a length out of range leaves everything as it was. -/
theorem sfs_error_atomic_deadDisk :
    ∃ e c', sfsTruncfile (-1) deadDisk = .err e c' ∧ deadDisk.Same c' := by
  refine ⟨_, _, rfl, ?_⟩
  exact ((sfs_error_atomic deadDisk).2.2 (-1) _ _ rfl).mpr (Or.inl (by decide))

end Ucore
