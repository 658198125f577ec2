import Mathlib.Data.Set.Basic
import Ucore.Fs.Sfs.Correctness.Blocks

/-!
# `Fs.Sfs.Correctness.Bmap` — the block map: what mapping one more block does, and what failing undoes

`SfsCtx.lookup i` is the block a file has at index `i`. Creating a mapping takes one block, or two when
the entry block is missing; `Maps` lists the three ways. A failed creation leaves every block that was in
use as it was (`Grows`); whether it also gives back what it took is `Clean`, which fails exactly when the
clearing of a freshly allocated block fails (`ClearFails`).
-/

namespace Ucore

namespace SfsFs

/-- Entry `j` of the entry block `e`. -/
def entry (s : SfsFs) (e j : Nat) : Nat := getLe (s.dev.blk e) (j * 4) 4

def setEntry (s : SfsFs) (e j v : Nat) : SfsFs :=
  s.setBlk e (memcpy (s.dev.blk e) (j * 4) (putLe (fun _ => 0) 0 v 4) 0 4)

/-- A block of the file system that is marked free. -/
structure Free (s : SfsFs) (b : Nat) : Prop where
  ne : b ≠ 0
  lt : b < s.super.blocks
  bit : s.freemap.bit b = true

/-- What no operation on files changes. -/
structure Static (s s' : SfsFs) : Prop where
  blocks : s'.super.blocks = s.super.blocks
  magic : s'.super.magic = s.super.magic
  info : s'.super.info = s.super.info
  dBlocks : s'.dev.dBlocks = s.dev.dBlocks
  ioRet : s'.dev.ioRet = s.dev.ioRet
  nbits : s'.freemap.nbits = s.freemap.nbits
  nwords : s'.freemap.nwords = s.freemap.nwords

/-- Free map and counter are what they were. -/
def Clean (s s' : SfsFs) : Prop := s'.freemap = s.freemap ∧ s'.super = s.super

/-- Blocks in use stay in use, and what is not free keeps its content unless it is in `X`; a change of free
    map or counter is noted in `super_dirty`. -/
structure Grows (X : Set Nat) (s s' : SfsFs) : Prop where
  ready : s'.Ready
  static : Static s s'
  used : ∀ b, s.InUse b → s'.InUse b
  keep : ∀ b, ¬ s.Free b → b ∉ X → s'.dev.blk b = s.dev.blk b
  dirty : s'.superDirty = false → s.superDirty = false ∧ Clean s s'

variable {s s' s'' : SfsFs} {b e j k v i : Nat} {x : Bytes}

theorem Static.refl (s : SfsFs) : Static s s := ⟨rfl, rfl, rfl, rfl, rfl, rfl, rfl⟩

theorem Static.trans (h : Static s s') (h' : Static s' s'') : Static s s'' :=
  ⟨h'.blocks.trans h.blocks, h'.magic.trans h.magic, h'.info.trans h.info, h'.dBlocks.trans h.dBlocks,
    h'.ioRet.trans h.ioRet, h'.nbits.trans h.nbits, h'.nwords.trans h.nwords⟩

theorem Static.healthy (h : Static s s') (hs : s.Healthy) : s'.Healthy := fun k => by
  rw [h.ioRet]
  exact hs k

theorem Healthy.fault (h : s.Healthy) (k : Nat) : s.fault k = 0 := h _

theorem Free.not_inUse (h : s.Free b) : ¬ s.InUse b := fun hu =>
  Bool.noConfusion (hu.bit.symm.trans h.bit)

theorem Free.lt_nwords (h : s.Free b) (hr : s.Ready) : b < 32 * s.freemap.nwords := by
  have := hr.blocks_le_nbits
  have := hr.nbits
  have := h.lt
  omega

theorem Free.setBits_pos (h : s.Free b) (hr : s.Ready) : 0 < s.freemap.setBits :=
  Bitmap.setBits_pos.mpr ⟨b, h.lt_nwords hr, h.bit⟩

theorem Free.setBits_take (h : s.Free b) (hr : s.Ready) :
    (s.freemap.flip b).setBits + 1 = s.freemap.setBits := Bitmap.setBits_flip (h.lt_nwords hr) h.bit

namespace Grows

variable {X Y : Set Nat}

theorem refl (h : s.Ready) : Grows X s s :=
  ⟨h, .refl s, fun _ hb => hb, fun _ _ _ => rfl, fun hd => ⟨hd, rfl, rfl⟩⟩

theorem disk (h : Grows X s s') (b : Nat) (hb : s.InUse b) (hx : b ∉ X) : s'.dev.blk b = s.dev.blk b :=
  h.keep b (fun hf => hf.not_inUse hb) hx

/-- Nothing becomes free. -/
theorem free (h : Grows X s s') (hb : s'.Free b) : s.Free b := by
  have hlt : b < s.super.blocks := by
    rw [← h.static.blocks]
    exact hb.lt
  refine ⟨hb.ne, hlt, ?_⟩
  by_contra hbit
  exact hb.not_inUse (h.used b ⟨hb.ne, hlt, Bool.not_eq_true _ ▸ hbit⟩)

/-- Later changes to blocks that were free at first do not count. -/
theorem andThen (h : Grows X s s') (h' : Grows Y s' s'') (hy : ∀ b ∈ Y, b ∈ X ∨ s.Free b) : Grows X s s'' where
  ready := h'.ready
  static := h.static.trans h'.static
  used := fun b hb => h'.used b (h.used b hb)
  keep := fun b hb hx =>
    (h'.keep b (fun hf => hb (h.free hf)) fun hm => (hy b hm).elim hx hb).trans (h.keep b hb hx)
  dirty := fun hd => by
    obtain ⟨hd', hf', hs'⟩ := h'.dirty hd
    obtain ⟨hd'', hf, hs⟩ := h.dirty hd'
    exact ⟨hd'', hf'.trans hf, hs'.trans hs⟩

theorem trans (h : Grows X s s') (h' : Grows X s' s'') : Grows X s s'' := h.andThen h' fun _ => Or.inl

theorem mono (h : Grows X s s') (hxy : X ⊆ Y) : Grows Y s s' :=
  ⟨h.ready, h.static, h.used, fun b hb hy => h.keep b hb fun hx => hy (hxy hx), h.dirty⟩

theorem scratch (h : Grows X s s') : Grows X s (s'.scratch k x) where
  ready := h.ready.scratch
  static := h.static.trans ⟨rfl, rfl, rfl, rfl, rfl, rfl, rfl⟩
  used := fun b hb => (h.used b hb).scratch
  keep := h.keep
  dirty := h.dirty

theorem take (h : Grows X s s') (hb : s'.Free b) : Grows X s (s'.take b) where
  ready := h.ready.take hb.lt hb.bit
  static := h.static.trans ⟨rfl, rfl, rfl, rfl, rfl, rfl, rfl⟩
  used := fun i hi => (h.used i hi).take hb.bit
  keep := h.keep
  dirty := fun hd => Bool.noConfusion (show true = false from hd)

/-- Writing a block that was free, or is meant to change. -/
theorem setBlk (h : Grows X s s') (hb : b ∈ X ∨ s.Free b) : Grows X s (s'.setBlk b x) where
  ready := h.ready.setBlk
  static := h.static.trans ⟨rfl, rfl, rfl, rfl, rfl, rfl, rfl⟩
  used := fun i hi => (h.used i hi).setBlk
  keep := fun i hi hx => by
    have hne : i ≠ b := by
      rintro rfl
      exact hb.elim hx hi
    rw [blk_setBlk_of_ne _ _ hne]
    exact h.keep i hi hx
  dirty := h.dirty

theorem alloc (h : Grows X s s') (hb : s'.Free b) : Grows X s (s'.alloc b) :=
  (h.take hb).setBlk (Or.inr (h.free hb))

/-- Giving back a block taken on the way. -/
theorem give (h : Grows X s s') (hb : s'.InUse b) (hn : ¬ s.InUse b) : Grows X s (s'.give b) where
  ready := h.ready.give hb
  static := h.static.trans ⟨rfl, rfl, rfl, rfl, rfl, rfl, rfl⟩
  used := fun i hi => (h.used i hi).give fun he => hn (he ▸ hi)
  keep := h.keep
  dirty := fun hd => Bool.noConfusion (show true = false from hd)

end Grows

theorem Clean.refl (s : SfsFs) : Clean s s := ⟨rfl, rfl⟩

theorem Clean.trans (h : Clean s s') (h' : Clean s' s'') : Clean s s'' :=
  ⟨h'.1.trans h.1, h'.2.trans h.2⟩

/-- Allocating a block and giving it back. -/
theorem clean_alloc_give (h : s.Ready) (hb : s.Free b) : Clean s ((s.alloc b).give b) := by
  have hpos : 0 < s.super.unusedBlocks := by
    rw [h.count]
    exact hb.setBits_pos h
  exact ⟨give_take_freemap hb.bit, give_take_super (b := b) hpos⟩

theorem Clean.give (h : Clean s s') (b : Nat) : Clean (s.give b) (s'.give b) := by
  obtain ⟨hf, hs⟩ := h
  refine ⟨?_, ?_⟩
  · rw [freemap_give, freemap_give, hf]
  · show { s'.super with unusedBlocks := s'.super.unusedBlocks + 1 } = _
    rw [hs]
    rfl

/-- A block that was free and no longer is has leaked. -/
theorem not_clean (s' : SfsFs) (hb : s.freemap.bit b = true) (hb' : s'.freemap.bit b = false) : ¬ Clean s s' := by
  rintro ⟨hf, -⟩
  rw [hf, hb] at hb'
  exact Bool.noConfusion hb'

/-! ## Entries of an entry block -/

theorem entry_congr (h : s'.dev.blk e = s.dev.blk e) : s'.entry e j = s.entry e j := by
  unfold entry
  rw [h]

theorem entry_setEntry_self (hv : v < 2 ^ 32) : (s.setEntry e j v).entry e j = v := by
  unfold entry setEntry
  rw [blk_setBlk_self, getLe_memcpy_in (Nat.le_refl _) (Nat.le_refl _), Nat.sub_self, Nat.zero_add,
    getLe_putLe]
  exact Nat.mod_eq_of_lt hv

theorem entry_setEntry_of_ne (h : i ≠ j) : (s.setEntry e j v).entry e i = s.entry e i := by
  unfold entry setEntry
  rw [blk_setBlk_self, getLe_memcpy_out (by omega)]

theorem blk_setEntry_of_ne (h : i ≠ e) : (s.setEntry e j v).dev.blk i = s.dev.blk i :=
  blk_setBlk_of_ne _ _ h

/-- A cleared block has no entries. -/
theorem entry_memzero (h : s.dev.blk e = memzero x 4096) (hj : j < 1024) : s.entry e j = 0 := by
  unfold entry
  rw [h]
  exact getLe_zero fun i _ hi => memzero_lt (by omega)

end SfsFs

open SfsFs

variable {s : SfsFs} {e ent entp j b : Nat}

theorem sfsRbufEntry_cases (h : s.Ready) (he : s.InUse e) (hj : j < 1024) : ∃ x,
    (s.fault 0 = 0 ∧ sfsRbufEntry e (j * 4) s = .ok (s.entry e j) (s.scratch 1 x)) ∨
    (s.fault 0 ≠ 0 ∧ sfsRbufEntry e (j * 4) s = .err (s.fault 0) (s.scratch 1 x)) := by
  obtain ⟨x, hc⟩ := sfsRbuf_cases (fun _ => 0) 0 h he.ne he.lt
    (show j * 4 < 4096 by omega) (show j * 4 + 4 ≤ 4096 by omega)
  refine ⟨x, ?_⟩
  unfold sfsRbufEntry
  rcases hc with ⟨hf, hr⟩ | ⟨hf, hr⟩
  · refine Or.inl ⟨hf, ?_⟩
    rw [Proc.bind_ok hr, Proc.pure_run, getLe_memcpy_in (Nat.le_refl _) (Nat.le_refl _)]
    rfl
  · exact Or.inr ⟨hf, Proc.bind_err hr⟩

theorem sfsWbufEntry_cases (h : s.Ready) (he : s.InUse e) (hj : j < 1024) (v : Nat) : ∃ k x,
    (s.fault 0 = 0 ∧ s.fault 1 = 0 ∧
      sfsWbufEntry v e (j * 4) s = .ok () ((s.setEntry e j v).scratch 2 x)) ∨
    (¬ (s.fault 0 = 0 ∧ s.fault 1 = 0) ∧ ∃ r, r ≠ 0 ∧ sfsWbufEntry v e (j * 4) s = .err r (s.scratch k x)) :=
  sfsWbuf_cases _ _ h he.ne he.lt (by omega) (by omega)

/-! ## Allocating with an undo -/

/-- The state `failed_cleanup` leaves. -/
def SfsFs.cleanup (s : SfsFs) (entp ent : Nat) : SfsFs := if ent ≠ entp then s.give ent else s

theorem SfsFs.cleanup_scratch {k : Nat} {x : Bytes} :
    (s.scratch k x).cleanup entp ent = (s.cleanup entp ent).scratch k x := by
  unfold SfsFs.cleanup
  split <;> rfl

theorem bmapCleanup_run (h : s.Ready) (he : s.InUse ent) :
    bmapCleanup entp ent s = .ok () (s.cleanup entp ent) := by
  unfold bmapCleanup SfsFs.cleanup
  by_cases hne : ent ≠ entp
  · rw [if_pos hne, if_pos hne]
    exact sfsBlockFree_run h he
  · rw [if_neg hne, if_neg hne]
    rfl

theorem sfsBlockAlloc_free (h : s.Ready) : ∃ x,
    (s.freemap.setBits = 0 ∧ sfsBlockAlloc s = .err (-eNoMem) s) ∨
    ∃ i, s.Free i ∧
      ((s.fault 0 = 0 ∧ sfsBlockAlloc s = .ok i ((s.alloc i).scratch 1 x)) ∨
       (s.fault 0 ≠ 0 ∧ sfsBlockAlloc s = .err (s.fault 0) ((s.take i).scratch 1 x))) := by
  obtain ⟨x, hc⟩ := sfsBlockAlloc_cases h
  refine ⟨x, ?_⟩
  rcases hc with hc | ⟨i, h0, hlt, hbit, hc⟩
  · exact Or.inl hc
  · exact Or.inr ⟨i, ⟨h0, hlt, hbit⟩, hc⟩

/-- Allocating a block and entering it at entry `j` of `ent`; the failures are those of the allocation,
    of its clearing, and of the write. -/
theorem bmapNewEntry_cases (entp : Nat) (h : s.Ready) (he : s.InUse ent) (hj : j < 1024) : ∃ k x,
    (s.freemap.setBits = 0 ∧
      bmapNewEntry entp ent (j * 4) s = .err (-eNoMem) (s.cleanup entp ent)) ∨
    ∃ b, s.Free b ∧
      ((s.fault 0 ≠ 0 ∧ ∃ r, r ≠ 0 ∧ bmapNewEntry entp ent (j * 4) s
          = .err r (((s.take b).cleanup entp ent).scratch k x)) ∨
       (s.fault 0 = 0 ∧ ¬ (s.fault 1 = 0 ∧ s.fault 2 = 0) ∧ ∃ r, r ≠ 0 ∧
          bmapNewEntry entp ent (j * 4) s
            = .err r ((((s.alloc b).give b).cleanup entp ent).scratch k x)) ∨
       (s.fault 0 = 0 ∧ s.fault 1 = 0 ∧ s.fault 2 = 0 ∧ bmapNewEntry entp ent (j * 4) s
          = .ok (ent, b) (((s.alloc b).setEntry ent j b).scratch k x))) := by
  obtain ⟨x, halloc⟩ := sfsBlockAlloc_free h
  unfold bmapNewEntry
  rcases halloc with ⟨hz, hrun⟩ | ⟨b, hb, ⟨hf, hrun⟩ | ⟨hf, hrun⟩⟩
  · refine ⟨0, x, Or.inl ⟨hz, Proc.bind_err ?_⟩⟩
    exact Proc.onErr_err hrun (bmapCleanup_run h he)
  · -- allocated and cleared; now the write
    have hra : (s.alloc b).Ready := h.alloc hb.lt hb.bit
    have hea : (s.alloc b).InUse ent := he.alloc hb.bit
    have hba : (s.alloc b).InUse b := inUse_alloc hb.ne hb.lt hb.bit
    obtain ⟨k, y, hw⟩ := sfsWbufEntry_cases (s := (s.alloc b).scratch 1 x) hra.scratch hea.scratch hj b
    simp only [fault_scratch, fault_alloc, scratch_scratch] at hw
    rw [Proc.bind_ok (Proc.onErr_ok hrun)]
    rcases hw with ⟨h1, h2, hw⟩ | ⟨hn, r, hr, hw⟩
    · refine ⟨3, y, Or.inr ⟨b, hb, Or.inr (Or.inr ⟨hf, h1, h2, ?_⟩)⟩⟩
      rw [Proc.bind_ok (Proc.onErr_ok hw)]
      rfl
    · refine ⟨1 + k, y, Or.inr ⟨b, hb, Or.inr (Or.inl ⟨hf, hn, r, hr, ?_⟩)⟩⟩
      apply Proc.bind_err
      refine Proc.onErr_err hw (u := ()) ?_
      rw [Proc.bind_ok (sfsBlockFree_run hra.scratch hba.scratch), scratch_give]
      have hne : ent ≠ b := he.ne_of_free hb.bit
      rw [bmapCleanup_run (hra.give hba).scratch (hea.give hne).scratch, SfsFs.cleanup_scratch]
  · -- taken, but not cleared
    refine ⟨1, x, Or.inr ⟨b, hb, Or.inl ⟨hf, s.fault 0, hf, Proc.bind_err ?_⟩⟩⟩
    refine Proc.onErr_err hrun (u := ()) ?_
    rw [bmapCleanup_run (h.take hb.lt hb.bit).scratch (he.take hb.bit).scratch, SfsFs.cleanup_scratch]

/-- A failed creation: the old blocks are untouched, and the free map is as before unless `leak`. -/
structure Failed (s s' : SfsFs) (leak : Prop) : Prop where
  grows : Grows ∅ s s'
  clean : Clean s s' ↔ ¬ leak

/-- Entering a new block into an entry block the file already has. -/
theorem bmapGetSub_existing (h : s.Ready) (he : s.InUse e) (hj : j < 1024) (hz : s.entry e j = 0) :
    (∃ b k x, s.Free b ∧ sfsBmapGetSubNolock e j true s
      = .ok (e, b) (((s.alloc b).setEntry e j b).scratch k x)) ∨
    ∃ r s', r ≠ 0 ∧ sfsBmapGetSubNolock e j true s = .err r s' ∧
      Failed s s' (s.fault 0 = 0 ∧ 0 < s.freemap.setBits ∧ s.fault 1 ≠ 0) ∧
      (s.Healthy → s.freemap.setBits = 0) := by
  obtain ⟨x, hread⟩ := sfsRbufEntry_cases h he hj
  unfold sfsBmapGetSubNolock
  rw [Proc.check_bind_pos (show j < sfsBlkNentry from hj)]
  simp only [he.ne, ne_eq, not_false_eq_true, if_true]
  rcases hread with ⟨hf, hread⟩ | ⟨hf, hread⟩
  · rw [Proc.bind_ok hread]
    simp only [hz, not_true_eq_false, Bool.true_eq_false, or_self, if_false]
    obtain ⟨k, y, hc⟩ := bmapNewEntry_cases e (s := s.scratch 1 x) h.scratch he.scratch hj
    simp only [SfsFs.cleanup, ne_eq, not_true_eq_false, if_false, fault_scratch, freemap_scratch,
      scratch_give, scratch_take, scratch_alloc, scratch_scratch] at hc
    rcases hc with ⟨hno, hc⟩ | ⟨b, hb, hc⟩
    · refine Or.inr ⟨_, _, by decide, hc, ⟨(Grows.refl h).scratch, ?_⟩, fun _ => hno⟩
      exact iff_of_true (Clean.refl s) (by omega)
    · have hb' : s.Free b := ⟨hb.ne, hb.lt, hb.bit⟩
      have hpos := hb'.setBits_pos h
      rcases hc with ⟨hf1, r, hr, hc⟩ | ⟨hf1, hw, r, hr, hc⟩ | ⟨-, -, -, hc⟩
      · refine Or.inr ⟨r, _, hr, hc, ⟨((Grows.refl h).take hb').scratch, ?_⟩, fun hh => ?_⟩
        · refine iff_of_false (not_clean (s.take b) hb'.bit ?_) (not_not_intro ⟨hf, hpos, hf1⟩)
          exact (inUse_take hb'.ne hb'.lt hb'.bit).bit
        · exact absurd (hh.fault 1) hf1
      · have hg : Grows ∅ s ((s.alloc b).give b) :=
          ((Grows.refl h).alloc hb').give (inUse_alloc hb'.ne hb'.lt hb'.bit) hb'.not_inUse
        refine Or.inr ⟨r, _, hr, hc, ⟨hg.scratch, ?_⟩, fun hh => ?_⟩
        · exact iff_of_true (clean_alloc_give h hb') (fun hc => hc.2.2 hf1)
        · exact absurd ⟨hh.fault 2, hh.fault 3⟩ hw
      · refine Or.inl ⟨b, 1 + k, y, hb', ?_⟩
        rw [hc]
        show Outcome.ok (e, b) ((((s.alloc b).setEntry e j b).scratch 1 x).scratch k y) = _
        rw [scratch_scratch]
  · refine Or.inr ⟨_, _, hf, Proc.bind_err hread, ⟨(Grows.refl h).scratch, ?_⟩, fun hh => ?_⟩
    · exact iff_of_true (Clean.refl s) (fun hc => hf hc.1)
    · exact absurd (hh.fault 0) hf

/-- The same when the entry block has to be allocated first. -/
theorem bmapGetSub_missing (h : s.Ready) (hj : j < 1024) :
    (∃ e b k x, s.Free e ∧ (s.alloc e).Free b ∧ sfsBmapGetSubNolock 0 j true s
      = .ok (e, b) ((((s.alloc e).alloc b).setEntry e j b).scratch k x)) ∨
    ∃ r s', r ≠ 0 ∧ sfsBmapGetSubNolock 0 j true s = .err r s' ∧
      Failed s s' (0 < s.freemap.setBits ∧ (s.fault 0 ≠ 0 ∨ 1 < s.freemap.setBits ∧ s.fault 1 ≠ 0)) ∧
      (s.Healthy → s.freemap.setBits < 2) := by
  obtain ⟨x, halloc⟩ := sfsBlockAlloc_free h
  unfold sfsBmapGetSubNolock
  rw [Proc.check_bind_pos (show j < sfsBlkNentry from hj)]
  simp only [ne_eq, not_true_eq_false, if_false, Bool.true_eq_false]
  rcases halloc with ⟨hno, hrun⟩ | ⟨e, he, ⟨hf, hrun⟩ | ⟨hf, hrun⟩⟩
  · refine Or.inr ⟨_, _, by decide, Proc.bind_err hrun, ⟨Grows.refl h, ?_⟩, fun _ => by omega⟩
    exact iff_of_true (Clean.refl s) (by omega)
  · -- the entry block is there; the rest may fail and give it back
    rw [Proc.bind_ok hrun]
    have hra : (s.alloc e).Ready := h.alloc he.lt he.bit
    have hea : (s.alloc e).InUse e := inUse_alloc he.ne he.lt he.bit
    have hga : Grows ∅ s (s.alloc e) := (Grows.refl h).alloc he
    have hbits : (s.alloc e).freemap.setBits + 1 = s.freemap.setBits := he.setBits_take h
    obtain ⟨k, y, hc⟩ := bmapNewEntry_cases 0 (s := (s.alloc e).scratch 1 x) hra.scratch
      hea.scratch hj
    simp only [SfsFs.cleanup, he.ne, ne_eq, not_false_eq_true, if_true, fault_scratch, fault_alloc,
      freemap_scratch, scratch_give, scratch_take, scratch_alloc, scratch_scratch] at hc
    rcases hc with ⟨hno, hc⟩ | ⟨b, hb, hc⟩
    · refine Or.inr ⟨_, _, by decide, hc, ⟨(hga.give hea he.not_inUse).scratch, ?_⟩, fun _ => by omega⟩
      exact iff_of_true (clean_alloc_give h he) (by rintro ⟨-, h1 | h1⟩ <;> omega)
    · have hb' : (s.alloc e).Free b := ⟨hb.ne, hb.lt, hb.bit⟩
      have hpos := hb'.setBits_pos hra
      have heb : e ≠ b := hea.ne_of_free hb'.bit
      have hbs : ¬ s.InUse b := fun hu => hb'.not_inUse (hga.used b hu)
      have hbits : s.freemap.bit b = true := by
        have := hb'.bit
        rwa [freemap_alloc, Bitmap.bit_flip, if_neg (Ne.symm heb)] at this
      rcases hc with ⟨hf1, r, hr, hc⟩ | ⟨hf1, hw, r, hr, hc⟩ | ⟨-, -, -, hc⟩
      · -- the second block leaks
        have hg : Grows ∅ s (((s.alloc e).take b).give e) :=
          (hga.take hb').give (hea.take hb'.bit) he.not_inUse
        refine Or.inr ⟨r, _, hr, hc, ⟨hg.scratch, ?_⟩, fun hh => absurd (hh.fault 1) hf1⟩
        refine iff_of_false (not_clean (((s.alloc e).take b).give e) hbits ?_)
          (not_not_intro ⟨by omega, Or.inr ⟨by omega, hf1⟩⟩)
        exact ((inUse_take hb'.ne hb'.lt hb'.bit).give (Ne.symm heb)).bit
      · have hg : Grows ∅ s ((((s.alloc e).alloc b).give b).give e) := by
          refine ((hga.alloc hb').give (inUse_alloc hb'.ne hb'.lt hb'.bit) hbs).give ?_ he.not_inUse
          exact (hea.alloc hb'.bit).give heb
        refine Or.inr ⟨r, _, hr, hc, ⟨hg.scratch, ?_⟩, fun hh => absurd ⟨hh.fault 2, hh.fault 3⟩ hw⟩
        refine iff_of_true ?_ ?_
        · exact (clean_alloc_give h he).trans ((clean_alloc_give hra hb').give e)
        · rintro ⟨-, h1 | h1⟩
          · exact h1 hf
          · exact h1.2 hf1
      · refine Or.inl ⟨e, b, 1 + k, y, he, hb', ?_⟩
        rw [hc]
        show Outcome.ok (e, b) (((((s.alloc e).alloc b).setEntry e j b).scratch 1 x).scratch k y) = _
        rw [scratch_scratch]
  · refine Or.inr ⟨_, _, hf, Proc.bind_err hrun, ⟨((Grows.refl h).take he).scratch, ?_⟩,
      fun hh => absurd (hh.fault 0) hf⟩
    refine iff_of_false (not_clean (s.take e) he.bit ?_)
      (not_not_intro ⟨he.setBits_pos h, Or.inl hf⟩)
    exact (inUse_take he.ne he.lt he.bit).bit

end Ucore
