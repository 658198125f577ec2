import Ucore.Fs.Sfs.Correctness.Owned

/-!
# `Fs.Sfs.Correctness.Load` — `sfs_bmap_get_nolock`, `sfs_bmap_load_nolock`, `sfs_bmap_truncate_nolock`

The specifications of the three functions that change the block map, over the file invariant. Each says
how the call can end, that it does not stop the machine, and what it leaves behind; `Loaded` and `Trimmed`
are the two effects, and both keep the invariant.
-/

namespace Ucore

open SfsFs SfsCtx

variable {c c' : SfsCtx} {R : Set Nat} {i b : Nat}

/-! ## `sfs_bmap_get_nolock` -/

/-- What `sfs_bmap_get_nolock` does once its branch has come up with a block: check it. -/
theorem bmapGet_checked {x : SinM Nat} (hx : x c = .ok b c') (hready : c'.fs.Ready)
    (hb : b ≠ 0 → c'.fs.InUse b) :
    (x >>= fun ino => if ino = 0 then pure ino else do
      onFs (assertInuse .bmapGetInuse ino)
      pure ino) c = .ok b c' := by
  rw [Proc.bind_ok hx]
  by_cases h0 : b = 0
  · rw [if_pos h0]
    rfl
  · rw [if_neg h0]
    have hz : onFs (assertInuse .bmapGetInuse b) c' = .ok () c' :=
      Proc.zoom_ok (assertInuse_run hready (hb h0))
    rw [Proc.bind_ok hz]
    rfl

theorem sfsBmapGetNolock_direct (create : Bool) (h : i < 12) : sfsBmapGetNolock i create
    = (bmapGetDirect ⟨i, h⟩ create >>= fun ino => if ino = 0 then pure ino else do
        onFs (assertInuse .bmapGetInuse ino)
        pure ino) := by
  unfold sfsBmapGetNolock
  rw [dif_pos h]

theorem sfsBmapGetNolock_indirect (create : Bool) (h : 12 ≤ i) (hi : i < 1036) :
    sfsBmapGetNolock i create
      = (bmapGetIndirect (i - 12) create >>= fun ino => if ino = 0 then pure ino else do
        onFs (assertInuse .bmapGetInuse ino)
        pure ino) := by
  have hlt : i - sfsNdirect < sfsBlkNentry := by
    show i - 12 < 1024
    omega
  unfold sfsBmapGetNolock
  rw [dif_neg (by omega), if_pos hlt]
  rfl

theorem sfsBmapGetNolock_outOfRange (create : Bool) (hi : 1036 ≤ i) :
    sfsBmapGetNolock i create c = .panic .indexOutOfRange := by
  have hge : ¬ i - sfsNdirect < sfsBlkNentry := by
    show ¬ i - 12 < 1024
    omega
  unfold sfsBmapGetNolock
  rw [dif_neg (by omega), if_neg hge]
  rfl

/-- Without creating anything, the call finds the block of the index; it may fail to read the entry. -/
theorem sfsBmapGetNolock_find (create : Bool) (h : FileInv c R) (hi : i < 1036)
    (hm : c.lookup i ≠ 0 ∨ create = false) : ∃ k x,
    sfsBmapGetNolock i create c = .ok (c.lookup i) (c.scratch k x) ∨
    12 ≤ i ∧ c.fs.fault 0 ≠ 0 ∧ sfsBmapGetNolock i create c = .err (c.fs.fault 0) (c.scratch k x) := by
  have huse : c.lookup i ≠ 0 → c.fs.InUse (c.lookup i) := h.lookup_inUse hi
  by_cases hlt : i < 12
  · have hlook := c.lookup_direct hlt
    refine ⟨0, c.fs.sfsBuffer, Or.inl ?_⟩
    rw [sfsBmapGetNolock_direct create hlt]
    refine bmapGet_checked ?_ h.ready huse
    unfold bmapGetDirect
    rw [Proc.get_bind, if_neg (by rw [← hlook]; rintro ⟨h0, rfl⟩; exact hm.elim (fun hn => hn h0) Bool.noConfusion),
      hlook]
    rfl
  · rw [sfsBmapGetNolock_indirect create (by omega) hi]
    by_cases hz : c.sin.din.indirect = 0
    · -- no entry block, and none is wanted
      have hlook : c.lookup i = 0 := lookup_missing hlt hz
      have hcreate : create = false := hm.resolve_left (not_not_intro hlook)
      refine ⟨0, c.fs.sfsBuffer, Or.inl ?_⟩
      have hsub : sfsBmapGetSubNolock c.sin.din.indirect (i - 12) create c.fs = .ok (0, 0) c.fs := by
        unfold sfsBmapGetSubNolock
        rw [Proc.check_bind_pos (show i - 12 < sfsBlkNentry from by show i - 12 < 1024; omega)]
        simp only [hz, hcreate, ne_eq, not_true_eq_false, if_false, if_true]
        rfl
      have hget : bmapGetIndirect (i - 12) create c = .ok 0 c := by
        have hzoom : onFs (sfsBmapGetSubNolock c.sin.din.indirect (i - 12) create) c = .ok (0, 0) c :=
          Proc.zoom_ok hsub
        unfold bmapGetIndirect
        rw [Proc.get_bind, Proc.bind_ok hzoom]
        simp only [hz, ne_eq, not_true_eq_false, if_false]
        rfl
      rw [hlook]
      exact bmapGet_checked hget h.ready fun h0 => absurd rfl h0
    · have hlook := lookup_entry hlt hz
      obtain ⟨x, hread⟩ := sfsRbufEntry_cases h.ready (h.indirect_inUse hz) (show i - 12 < 1024 by omega)
      rw [← hlook] at hread
      refine ⟨1, x, ?_⟩
      have hstart : ∀ s, (sfsBmapGetSubNolock c.sin.din.indirect (i - 12) create) s
          = (sfsRbufEntry c.sin.din.indirect ((i - 12) * 4) >>= fun ino =>
              if ino ≠ 0 ∨ create = false then pure (c.sin.din.indirect, ino)
              else bmapNewEntry c.sin.din.indirect c.sin.din.indirect ((i - 12) * 4)) s := by
        intro s
        unfold sfsBmapGetSubNolock
        rw [Proc.check_bind_pos (show i - 12 < sfsBlkNentry from by show i - 12 < 1024; omega)]
        simp only [hz, ne_eq, not_false_eq_true, if_true]
      rcases hread with ⟨-, hread⟩ | ⟨hf, hread⟩
      · refine Or.inl (bmapGet_checked ?_ h.ready.scratch fun h0 => (huse h0).scratch)
        have hsub : sfsBmapGetSubNolock c.sin.din.indirect (i - 12) create c.fs
            = .ok (c.sin.din.indirect, c.lookup i) (c.fs.scratch 1 x) := by
          rw [hstart, Proc.bind_ok hread, if_pos hm]
          rfl
        have hzoom : onFs (sfsBmapGetSubNolock c.sin.din.indirect (i - 12) create) c
            = .ok (c.sin.din.indirect, c.lookup i) (c.scratch 1 x) := Proc.zoom_ok hsub
        unfold bmapGetIndirect
        rw [Proc.get_bind, Proc.bind_ok hzoom]
        simp only [ne_eq, not_true_eq_false, if_false]
        rfl
      · refine Or.inr ⟨by omega, hf, ?_⟩
        apply Proc.bind_err
        have hsub : sfsBmapGetSubNolock c.sin.din.indirect (i - 12) create c.fs
            = .err (c.fs.fault 0) (c.fs.scratch 1 x) := by
          rw [hstart, Proc.bind_err hread]
        unfold bmapGetIndirect
        rw [Proc.get_bind]
        exact Proc.bind_err (Proc.zoom_err hsub)

/-- A direct slot takes one block. -/
theorem sfsBmapGetNolock_createDirect (h : FileInv c R) (hi : i < 1036) (hlt : i < 12) (hz : c.lookup i = 0) :
    (∃ b c' k x, Maps c i b c' ∧ sfsBmapGetNolock i true c = .ok b (c'.scratch k x)) ∨
    ∃ r s', r ≠ 0 ∧ sfsBmapGetNolock i true c = .err r (c.withFs s') ∧
      Failed c.fs s' (c.ClearFails i) ∧ (c.fs.Healthy → c.fs.freemap.setBits < c.need i) := by
  have hdir : c.sin.din.direct ⟨i, hlt⟩ = 0 := by
    rw [← c.lookup_direct hlt, hz]
  have hneed : c.need i = 1 := if_pos hlt
  have hleak : c.ClearFails i ↔ 0 < c.fs.freemap.setBits ∧ c.fs.fault 0 ≠ 0 := by
    unfold ClearFails
    rw [if_pos hlt]
  rw [sfsBmapGetNolock_direct true hlt]
  have hstart : bmapGetDirect ⟨i, hlt⟩ true c = (onFs sfsBlockAlloc >>= fun ino => do
      modifyDin fun din => { din with direct := Function.update din.direct ⟨i, hlt⟩ ino }
      setDirty true
      pure ino) c := by
    unfold bmapGetDirect
    rw [Proc.get_bind, if_pos ⟨hdir, rfl⟩]
  obtain ⟨x, halloc⟩ := sfsBlockAlloc_free h.ready
  rcases halloc with ⟨hno, hrun⟩ | ⟨b, hb, ⟨-, hrun⟩ | ⟨hf, hrun⟩⟩
  · refine Or.inr ⟨-eNoMem, c.fs, by decide, Proc.bind_err ?_, ⟨Grows.refl h.ready, ?_⟩, fun _ => by omega⟩
    · rw [hstart]
      exact Proc.bind_err (Proc.zoom_err hrun)
    · rw [hleak]
      exact iff_of_true (Clean.refl _) (by omega)
  · have hm : Maps c i b (c.mapDirect ⟨i, hlt⟩ b) := .direct hlt hb
    have hmd := hm.mapped h hi
    refine Or.inl ⟨b, _, 1, x, hm, bmapGet_checked ?_ hmd.grows.ready.scratch fun _ => hmd.inUse.scratch⟩
    have hzoom : onFs sfsBlockAlloc c = .ok b (c.withFs ((c.fs.alloc b).scratch 1 x)) := Proc.zoom_ok hrun
    rw [hstart, Proc.bind_ok hzoom]
    rfl
  · refine Or.inr ⟨_, (c.fs.take b).scratch 1 x, hf, Proc.bind_err ?_, ⟨((Grows.refl h.ready).take hb).scratch, ?_⟩,
      fun hh => absurd (hh.fault 0) hf⟩
    · rw [hstart]
      exact Proc.bind_err (Proc.zoom_err hrun)
    · rw [hleak]
      refine iff_of_false (not_clean (c.fs.take b) hb.bit ?_)
        (not_not_intro ⟨hb.setBits_pos h.ready, hf⟩)
      exact (inUse_take hb.ne hb.lt hb.bit).bit

/-- Without an entry block, that takes a block, too. -/
theorem sfsBmapGetNolock_createIndirect (h : FileInv c R) (hi : i < 1036) (hlt : ¬ i < 12) (hind : c.sin.din.indirect = 0) :
    (∃ b c' k x, Maps c i b c' ∧ sfsBmapGetNolock i true c = .ok b (c'.scratch k x)) ∨
    ∃ r s', r ≠ 0 ∧ sfsBmapGetNolock i true c = .err r (c.withFs s') ∧
      Failed c.fs s' (c.ClearFails i) ∧ (c.fs.Healthy → c.fs.freemap.setBits < c.need i) := by
  rw [sfsBmapGetNolock_indirect true (by omega) hi]
  have hneed : c.need i = 2 := by
    unfold need
    rw [if_neg hlt, if_pos hind]
  have hleak : c.ClearFails i ↔ 0 < c.fs.freemap.setBits ∧
      (c.fs.fault 0 ≠ 0 ∨ 1 < c.fs.freemap.setBits ∧ c.fs.fault 1 ≠ 0) := by
    unfold ClearFails
    rw [if_neg hlt, if_pos hind]
  rw [hneed]
  rcases bmapGetSub_missing h.ready (show i - 12 < 1024 by omega) with
    ⟨e, b, k, x, he, hb, hrun⟩ | ⟨r, s', hr, hrun, hfail, hno⟩
  · have hm : Maps c i b (c.mapIndirect e (i - 12) b) := .indirect (by omega) hind e he hb
    have hmd := hm.mapped h hi
    refine Or.inl ⟨b, _, k, x, hm, bmapGet_checked ?_ hmd.grows.ready.scratch fun _ => hmd.inUse.scratch⟩
    have hzoom : onFs (sfsBmapGetSubNolock c.sin.din.indirect (i - 12) true) c = .ok (e, b)
        (c.withFs ((((c.fs.alloc e).alloc b).setEntry e (i - 12) b).scratch k x)) :=
      Proc.zoom_ok (by rw [hind]; exact hrun)
    unfold bmapGetIndirect
    rw [Proc.get_bind, Proc.bind_ok hzoom]
    simp only [hind, ne_eq, he.ne, not_false_eq_true, if_true]
    rw [Proc.check_bind_pos hind]
    rfl
  · refine Or.inr ⟨r, s', hr, Proc.bind_err ?_, by rwa [hleak], hno⟩
    unfold bmapGetIndirect
    rw [Proc.get_bind]
    exact Proc.bind_err (Proc.zoom_err (by rw [hind]; exact hrun))

/-- An entry of the entry block takes one block. -/
theorem sfsBmapGetNolock_createEntry (h : FileInv c R) (hi : i < 1036) (hlt : ¬ i < 12) (hind : c.sin.din.indirect ≠ 0)
    (hz : c.lookup i = 0) :
    (∃ b c' k x, Maps c i b c' ∧ sfsBmapGetNolock i true c = .ok b (c'.scratch k x)) ∨
    ∃ r s', r ≠ 0 ∧ sfsBmapGetNolock i true c = .err r (c.withFs s') ∧
      Failed c.fs s' (c.ClearFails i) ∧ (c.fs.Healthy → c.fs.freemap.setBits < c.need i) := by
  rw [sfsBmapGetNolock_indirect true (by omega) hi]
  have hneed : c.need i = 1 := by
    unfold need
    rw [if_neg hlt, if_neg hind]
  have hleak : c.ClearFails i ↔ c.fs.fault 0 = 0 ∧ 0 < c.fs.freemap.setBits ∧ c.fs.fault 1 ≠ 0 := by
    unfold ClearFails
    rw [if_neg hlt, if_neg hind]
  have hent : c.fs.entry c.sin.din.indirect (i - 12) = 0 := by
    rw [← lookup_entry hlt hind, hz]
  rw [hneed]
  rcases bmapGetSub_existing h.ready (h.indirect_inUse hind) (show i - 12 < 1024 by omega) hent with
    ⟨b, k, x, hb, hrun⟩ | ⟨r, s', hr, hrun, hfail, hno⟩
  · have hm : Maps c i b (c.mapEntry (i - 12) b) := .entry (by omega) hind hb
    have hmd := hm.mapped h hi
    refine Or.inl ⟨b, _, k, x, hm, bmapGet_checked ?_ hmd.grows.ready.scratch fun _ => hmd.inUse.scratch⟩
    have hzoom : onFs (sfsBmapGetSubNolock c.sin.din.indirect (i - 12) true) c
        = .ok (c.sin.din.indirect, b)
          (c.withFs (((c.fs.alloc b).setEntry c.sin.din.indirect (i - 12) b).scratch k x)) :=
      Proc.zoom_ok hrun
    unfold bmapGetIndirect
    rw [Proc.get_bind, Proc.bind_ok hzoom]
    simp only [ne_eq, not_true_eq_false, if_false]
    rfl
  · refine Or.inr ⟨r, s', hr, Proc.bind_err ?_, by rwa [hleak], fun hh => by have := hno hh; omega⟩
    unfold bmapGetIndirect
    rw [Proc.get_bind]
    exact Proc.bind_err (Proc.zoom_err hrun)

/-- Creating a mapping: one of the three ways, or a failure that leaves the blocks in use alone. -/
theorem sfsBmapGetNolock_create (h : FileInv c R) (hi : i < 1036) (hz : c.lookup i = 0) :
    (∃ b c' k x, Maps c i b c' ∧ sfsBmapGetNolock i true c = .ok b (c'.scratch k x)) ∨
    ∃ r s', r ≠ 0 ∧ sfsBmapGetNolock i true c = .err r (c.withFs s') ∧
      Failed c.fs s' (c.ClearFails i) ∧ (c.fs.Healthy → c.fs.freemap.setBits < c.need i) := by
  by_cases hlt : i < 12
  · exact sfsBmapGetNolock_createDirect h hi hlt hz
  · by_cases hind : c.sin.din.indirect = 0
    · exact sfsBmapGetNolock_createIndirect h hi hlt hind
    · exact sfsBmapGetNolock_createEntry h hi hlt hind hz

/-! ## `sfs_bmap_load_nolock` -/

/-- What loading index `i` does when it comes through: `b` is the block there, and if the index was the
    next one the file now has it. -/
structure Loaded (R : Set Nat) (i b : Nat) (c c' : SfsCtx) : Prop where
  inv : FileInv c' R
  grows : Grows {x | i = c.sin.din.blocks ∧ x ≠ 0 ∧ x = c.sin.din.indirect} c.fs c'.fs
  look : c'.lookup i = b
  other : ∀ j, j < 1036 → j ≠ i → c'.lookup j = c.lookup j
  inUse : c'.fs.InUse b
  blocks : c'.sin.din.blocks = max c.sin.din.blocks (i + 1)
  size : c'.sin.din.size = c.sin.din.size
  type : c'.sin.din.type = c.sin.din.type
  nlinks : c'.sin.din.nlinks = c.sin.din.nlinks
  ino : c'.sin.ino = c.sin.ino
  new : i = c.sin.din.blocks → c.fs.Free b ∧ (∀ k, k < 4096 → c'.fs.dev.blk b k = 0) ∧
    c'.fs.freemap.setBits + c.need i = c.fs.freemap.setBits
  old : i < c.sin.din.blocks → Clean c.fs c'.fs ∧ c'.fs.dev.blk = c.fs.dev.blk ∧ c'.sin = c.sin
  indirect : i < 12 ∨ c.sin.din.indirect ≠ 0 → c'.sin.din.indirect = c.sin.din.indirect
  entryBlock : c'.sin.din.indirect = c.sin.din.indirect ∨ c.fs.Free c'.sin.din.indirect
  complete : Complete c R → Complete c' R
  clean : c'.sin.dirty = false → c.sin.dirty = false ∧ c'.sin.din.direct = c.sin.din.direct ∧
    c'.sin.din.indirect = c.sin.din.indirect

/-- Counting the new block in keeps the invariant. -/
theorem SfsCtx.Mapped.counted (h : FileInv c R) (hi : i < 1036) (hib : i = c.sin.din.blocks)
    (hm : Mapped c i b c') (sin : SfsInode) (hdir : sin.din.direct = c'.sin.din.direct)
    (hind : sin.din.indirect = c'.sin.din.indirect) (hblocks : sin.din.blocks = c'.sin.din.blocks + 1) :
    FileInv { fs := c'.fs, sin := sin } R := by
  have hlook : ∀ j, SfsCtx.lookup { fs := c'.fs, sin := sin } j = c'.lookup j :=
    lookup_congr hdir hind fun _ => rfl
  have hslot : ∀ t, SfsCtx.slot { fs := c'.fs, sin := sin } t = c'.slot t :=
    slot_congr hdir hind fun _ => rfl
  have hfreshData : ∀ j : Fin 1036, j.val ≠ i → ¬ c.fs.Free (c'.lookup j) := by
    intro j hj hf
    rw [hm.other j j.isLt hj] at hf
    exact hf.not_inUse (h.lookup_inUse j.isLt hf.ne)
  have hfreshInd : c.fs.Free c'.sin.din.indirect → c'.sin.din.indirect ≠ b := by
    intro hf
    rcases hm.indirect with he | ⟨-, -, -, hne⟩
    · rw [he] at hf
      exact absurd (h.indirect_inUse hf.ne) hf.not_inUse
    · exact hne
  refine h.fresh hm.grows ?_ ?_ ?_ ?_
  · intro t
    rw [hslot]
    cases t with
    | data j =>
      by_cases hj : j.val = i
      · refine Or.inr ?_
        show c.fs.Free (c'.lookup j) ∧ c'.fs.InUse (c'.lookup j)
        rw [hj, hm.look]
        exact ⟨hm.free, hm.inUse⟩
      · exact Or.inl (hm.other j j.isLt hj)
    | entryBlock =>
      rcases hm.indirect with he | ⟨-, hf, hu, -⟩
      · exact Or.inl he
      · exact Or.inr ⟨hf, hu⟩
  · -- of the fresh slots, one is the new index and the other the new entry block
    intro t u ht hu he
    rw [hslot] at ht hu
    rw [hslot, hslot] at he
    cases t with
    | data j =>
      have hj : j.val = i := by
        by_contra hne
        exact hfreshData j hne ht
      cases u with
      | data j' =>
        have hj' : j'.val = i := by
          by_contra hne
          exact hfreshData j' hne hu
        exact congrArg Slot.data (Fin.ext (hj.trans hj'.symm))
      | entryBlock =>
        have he' : c'.lookup j = c'.sin.din.indirect := he
        rw [hj, hm.look] at he'
        exact absurd he'.symm (hfreshInd hu)
    | entryBlock =>
      cases u with
      | data j' =>
        have hj' : j'.val = i := by
          by_contra hne
          exact hfreshData j' hne hu
        have he' : c'.sin.din.indirect = c'.lookup j' := he
        rw [hj', hm.look] at he'
        exact absurd he' (hfreshInd ht)
      | entryBlock => rfl
  · intro j hj
    rw [hlook]
    show c'.lookup j ≠ 0 ↔ j < sin.din.blocks
    rw [hblocks, hm.blocks]
    by_cases hji : j = i
    · subst hji
      rw [hm.look]
      exact iff_of_true hm.free.ne (by omega)
    · rw [hm.other j hj hji, h.dense j hj]
      omega
  · show sin.din.blocks ≤ 1036
    rw [hblocks, hm.blocks]
    omega

/-- What loading an index leaves when it fails. -/
structure LoadFails (c : SfsCtx) (i : Nat) (s' : SfsFs) : Prop where
  failed : Failed c.fs s' (i = c.sin.din.blocks ∧ c.ClearFails i)
  short : c.fs.Healthy → i = c.sin.din.blocks ∧ c.fs.freemap.setBits < c.need i

/-- The file with the block that was mapped counted in -/
def SfsCtx.grown (c : SfsCtx) (k : Nat) (x : Bytes) : SfsCtx where
  fs := c.fs.scratch k x
  sin := { c.sin with din := { c.sin.din with blocks := c.sin.din.blocks + 1 } }

/-- What is in use now was before, or is the new block, or the new entry block. -/
theorem SfsCtx.Mapped.complete_grown (hmd : Mapped c i b c') (hlt : i < 1036) (hz : c.lookup i = 0) (hcomp : Complete c R)
    (k : Nat) (x : Bytes) : Complete (c'.grown k x) R := by
  have hlook : ∀ j, (c'.grown k x).lookup j = c'.lookup j := lookup_congr rfl rfl fun _ => rfl
  intro y hy
  rcases hmd.complete y ⟨hy.ne, hy.lt, hy.bit⟩ with hu | rfl | rfl
  · rcases hcomp y hu with hr | ⟨t, ht⟩
    · exact Or.inl hr
    · refine Or.inr ⟨t, ?_⟩
      rw [show (c'.grown k x).slot t = c'.slot t from slot_congr rfl rfl (fun _ => rfl) t]
      cases t with
      | data j =>
        have hji : j.val ≠ i := by
          intro he
          have ht' : c.lookup j = y := ht
          rw [he, hz] at ht'
          exact hu.ne ht'.symm
        exact (hmd.other j j.isLt hji).trans ht
      | entryBlock =>
        have ht' : c.sin.din.indirect = y := ht
        rcases hmd.indirect with he | ⟨h0, -⟩
        · exact he.trans ht'
        · exact absurd (ht'.symm.trans h0) hu.ne
  · exact Or.inr ⟨.data ⟨i, hlt⟩, (hlook i).trans hmd.look⟩
  · exact Or.inr ⟨.entryBlock, rfl⟩

/-- The next index has been mapped, and is counted in. -/
theorem SfsCtx.Maps.loaded (hm : Maps c i b c') (h : FileInv c R) (hlt : i < 1036) (hib : i = c.sin.din.blocks)
    (hz : c.lookup i = 0) (k : Nat) (x : Bytes) : Loaded R i b c (c'.grown k x) := by
  have hmd := hm.mapped h hlt
  have hlook : ∀ j, (c'.grown k x).lookup j = c'.lookup j := lookup_congr rfl rfl fun _ => rfl
  have hinv : FileInv (c'.grown k x) R := (hmd.counted h hlt hib (c'.grown k x).sin rfl rfl rfl).scratch
  refine ⟨hinv, ?_, ?_, ?_, hmd.inUse.scratch, ?_, hmd.size, hmd.type, hmd.nlinks, hmd.ino, ?_, ?_, ?_,
    hmd.indirect.imp id fun he => he.2.1, fun hcomp => hmd.complete_grown hlt hz hcomp k x, ?_⟩
  · apply Grows.scratch
    exact hmd.grows.mono fun x hx => ⟨hib, hx⟩
  · rw [hlook, hmd.look]
  · intro j hj hji
    rw [hlook, hmd.other j hj hji]
  · show c'.sin.din.blocks + 1 = _
    rw [hmd.blocks]
    omega
  · exact fun _ => ⟨hmd.free, hmd.blank, hmd.setBits⟩
  · intro hlt'
    omega
  · intro hc
    rcases hmd.indirect with he | ⟨h0, hf, hu, -⟩
    · exact he
    · refine hc.elim (fun hi12 => ?_) (fun hn => absurd h0 hn)
      cases hm with
      | direct _ _ => rfl
      | entry hge _ _ => omega
      | indirect hge _ _ _ _ => omega
  · intro hd
    have hsin := hmd.clean hd
    refine ⟨?_, ?_, ?_⟩
    · rw [← hsin]; exact hd
    · show c'.sin.din.direct = _
      rw [hsin]
    · show c'.sin.din.indirect = _
      rw [hsin]

/-- **Loading an index** up to the end of the file. -/
theorem sfsBmapLoadNolock_cases (h : FileInv c R) (hi : i ≤ c.sin.din.blocks) (hlt : i < 1036) :
    (∃ b c', sfsBmapLoadNolock i c = .ok b c' ∧ Loaded R i b c c') ∨
    ∃ r s', r ≠ 0 ∧ sfsBmapLoadNolock i c = .err r (c.withFs s') ∧ LoadFails c i s' := by
  unfold sfsBmapLoadNolock
  rw [Proc.get_bind, Proc.check_bind_pos hi]
  by_cases hib : i = c.sin.din.blocks
  · -- the next index: it is not mapped yet
    have hz : c.lookup i = 0 := by
      by_contra hne
      have := (h.dense i hlt).mp hne
      omega
    have hcreate : decide (i = c.sin.din.blocks) = true := decide_eq_true hib
    simp only [hcreate, if_true]
    rcases sfsBmapGetNolock_create h hlt hz with ⟨b, c₁, k, x, hm, hget⟩ | ⟨r, s', hr, hget, hfail, hno⟩
    · have hmd := hm.mapped h hlt
      refine Or.inl ⟨b, c₁.grown k x, ?_, hm.loaded h hlt hib hz k x⟩
      have hzoom : onFs (assertInuse .bmapLoadInuse b) (c₁.scratch k x) = .ok () (c₁.scratch k x) :=
        Proc.zoom_ok (assertInuse_run hmd.grows.ready.scratch hmd.inUse.scratch)
      rw [Proc.bind_ok hget, Proc.bind_ok hzoom]
      rfl
    · refine Or.inr ⟨r, s', hr, Proc.bind_err hget, ⟨hfail.grows, ?_⟩, fun hh => ⟨hib, hno hh⟩⟩
      rw [hfail.clean]
      exact not_congr ⟨fun hl => ⟨hib, hl⟩, fun hl => hl.2⟩
  · -- an index the file has
    have hne : c.lookup i ≠ 0 := (h.dense i hlt).mpr (by omega)
    have hcreate : decide (i = c.sin.din.blocks) = false := decide_eq_false hib
    simp only [hcreate]
    obtain ⟨k, x, hget⟩ := sfsBmapGetNolock_find false h hlt (Or.inl hne)
    rcases hget with hget | ⟨-, hf, hget⟩
    · have huse : c.fs.InUse (c.lookup i) := h.lookup_inUse hlt hne
      refine Or.inl ⟨c.lookup i, c.scratch k x, ?_, ?_⟩
      · have hzoom : onFs (assertInuse .bmapLoadInuse (c.lookup i)) (c.scratch k x) = .ok () (c.scratch k x) :=
          Proc.zoom_ok (assertInuse_run h.ready.scratch huse.scratch)
        rw [Proc.bind_ok hget, Proc.bind_ok hzoom]
        rfl
      · refine ⟨h.scratch, (Grows.refl h.ready).scratch, rfl, fun _ _ _ => rfl, huse.scratch, ?_, rfl, rfl, rfl,
          rfl, fun he => absurd he hib, fun _ => ⟨⟨rfl, rfl⟩, rfl, rfl⟩, fun _ => rfl, Or.inl rfl, ?_, fun hd => ⟨hd, rfl, rfl⟩⟩
        · show c.sin.din.blocks = _
          omega
        · exact fun hcomp y hy => hcomp y ⟨hy.ne, hy.lt, hy.bit⟩
    · refine Or.inr ⟨_, c.fs.scratch k x, hf, Proc.bind_err hget, ⟨(Grows.refl h.ready).scratch, ?_⟩,
        fun hh => absurd (hh.fault 0) hf⟩
      exact iff_of_true (Clean.refl c.fs) fun hc => hib hc.1

/-! ## `sfs_bmap_truncate_nolock` -/

variable {n : Nat}

/-- What dropping the last block does: `b` is free again, and nothing else is lost. -/
structure Trimmed (R : Set Nat) (c c' : SfsCtx) : Prop where
  inv : FileInv c' R
  static : Static c.fs c'.fs
  blocks : c'.sin.din.blocks + 1 = c.sin.din.blocks
  lookup : ∀ j, j < c'.sin.din.blocks → c'.lookup j = c.lookup j
  keeps : ∀ x, c.fs.InUse x → x ≠ c.lookup c'.sin.din.blocks → c'.fs.InUse x
  disk : ∀ x, c.fs.InUse x → x ≠ c.sin.din.indirect → c'.fs.dev.blk x = c.fs.dev.blk x
  setBits : c'.fs.freemap.setBits = c.fs.freemap.setBits + 1
  size : c'.sin.din.size = c.sin.din.size
  type : c'.sin.din.type = c.sin.din.type
  nlinks : c'.sin.din.nlinks = c.sin.din.nlinks
  ino : c'.sin.ino = c.sin.ino
  indirect : c'.sin.din.indirect = c.sin.din.indirect
  dirty : c'.sin.dirty = true
  superDirty : c'.fs.superDirty = true
  complete : Complete c R → Complete c' R

theorem SfsCtx.FileInv.last (h : FileInv c R) (hn : c.sin.din.blocks = n + 1) : n < 1036 ∧ c.lookup n ≠ 0 := by
  have hle := h.blocks_le
  have hlt : n < 1036 := by omega
  exact ⟨hlt, (h.dense n hlt).mpr (by omega)⟩

/-- Taking the block of the last index out of the map and giving it back keeps the invariant. -/
theorem trimmed_of_slots (c' : SfsCtx) (h : FileInv c R) (hn : c.sin.din.blocks = n + 1)
    (hready : c'.fs.Ready) (hbit : ∀ x, c'.fs.InUse x ↔ c.fs.InUse x ∧ x ≠ c.lookup n)
    (hlook : ∀ j, j < 1036 → c'.lookup j = if j = n then 0 else c.lookup j)
    (hind : c'.sin.din.indirect = c.sin.din.indirect) (hblocks : c'.sin.din.blocks = n) :
    FileInv c' R ∧ (Complete c R → Complete c' R) := by
  obtain ⟨hn', hnz⟩ := h.last hn
  have hslot : ∀ t, c'.slot t ≠ 0 → c'.slot t = c.slot t ∧ t ≠ .data ⟨n, hn'⟩ := by
    intro t ht
    cases t with
    | data j =>
      have hj := hlook j j.isLt
      by_cases he : j.val = n
      · exact absurd (hj.trans (if_pos he)) ht
      · refine ⟨hj.trans (if_neg he), fun hs => he ?_⟩
        exact congrArg Fin.val (Slot.data.inj hs)
    | entryBlock => exact ⟨hind, fun hs => Slot.noConfusion hs⟩
  have hne : ∀ t, c'.slot t ≠ 0 → c.slot t ≠ c.lookup n := by
    intro t ht he
    obtain ⟨hs, hd⟩ := hslot t ht
    exact hd (h.inj t (.data ⟨n, hn'⟩) he (hs ▸ ht))
  refine ⟨⟨hready, ?_, ?_, ?_, ?_, ?_, ?_⟩, ?_⟩
  · intro t ht
    obtain ⟨hs, -⟩ := hslot t ht
    rw [hbit, hs]
    exact ⟨h.use t (hs ▸ ht), hne t ht⟩
  · intro t u he ht
    obtain ⟨hst, -⟩ := hslot t ht
    obtain ⟨hsu, -⟩ := hslot u (he ▸ ht)
    exact h.inj t u (by rw [← hst, ← hsu, he]) (hst ▸ ht)
  · intro b hb
    refine (h.reserved b hb).imp id fun hu => (hbit b).mpr ⟨hu, ?_⟩
    rintro rfl
    exact h.lookup_not_mem hn' hnz hb
  · intro t ht
    obtain ⟨hs, -⟩ := hslot t ht
    rw [hs]
    exact h.apart t (hs ▸ ht)
  · intro j hj
    rw [hlook j hj, hblocks]
    by_cases he : j = n
    · rw [if_pos he]
      exact iff_of_false (fun hc => hc rfl) (by omega)
    · rw [if_neg he, h.dense j hj, hn]
      omega
  · rw [hblocks]
    omega
  · intro hcomp x hx
    obtain ⟨hu, hxn⟩ := (hbit x).mp hx
    rcases hcomp x hu with hr | ⟨t, ht⟩
    · exact Or.inl hr
    · refine Or.inr ⟨t, ?_⟩
      cases t with
      | data j =>
        have hj : j.val ≠ n := by
          intro he
          have ht' : c.lookup j = x := ht
          rw [he] at ht'
          exact hxn ht'.symm
        exact ((hlook j j.isLt).trans (if_neg hj)).trans ht
      | entryBlock => exact hind.trans ht

theorem inUse_give_iff {s : SfsFs} {x : Nat} : (s.give b).InUse x ↔ s.InUse x ∧ x ≠ b := by
  constructor
  · intro hx
    have hbit := hx.bit
    rw [freemap_give, Bitmap.bit_raise] at hbit
    have hne : x ≠ b := by
      rintro rfl
      simp at hbit
    refine ⟨⟨hx.ne, hx.lt, ?_⟩, hne⟩
    rwa [decide_eq_false hne, Bool.false_or] at hbit
  · rintro ⟨hu, hne⟩
    exact hu.give hne

namespace SfsCtx

/-- The file without its last block, that a direct slot had -/
def dropDirect (c : SfsCtx) (n : Nat) (hd : n < 12) : SfsCtx where
  fs := c.fs.give (c.lookup n)
  sin :=
    { c.sin with
      din := { c.sin.din with direct := Function.update c.sin.din.direct ⟨n, hd⟩ 0, blocks := n }
      dirty := true }

/-- The file without its last block, that the entry block had; `y` is what the buffer has then. -/
def dropEntry (c : SfsCtx) (n : Nat) (y : Bytes) : SfsCtx where
  fs := ((c.fs.setEntry c.sin.din.indirect (n - 12) 0).give (c.lookup n)).scratch 3 y
  sin := { c.sin with din := { c.sin.din with blocks := n }, dirty := true }

theorem lookup_dropDirect (hd : n < 12) (j : Nat) : (c.dropDirect n hd).lookup j = if j = n then 0 else c.lookup j := by
  by_cases hj : j < 12
  · rw [lookup_direct _ hj, lookup_direct c hj]
    by_cases he : j = n
    · subst he
      rw [if_pos rfl]
      exact Function.update_self ..
    · rw [if_neg he]
      exact Function.update_of_ne (fun hf => he (congrArg Fin.val hf)) ..
  · have he : j ≠ n := by omega
    rw [if_neg he]
    unfold SfsCtx.lookup
    rw [dif_neg hj, dif_neg hj]
    rfl

theorem lookup_dropEntry (hd : ¬ n < 12) (hind : c.sin.din.indirect ≠ 0) (y : Bytes) (j : Nat) :
    (c.dropEntry n y).lookup j = if j = n then 0 else c.lookup j := by
  by_cases hj : j < 12
  · rw [lookup_direct _ hj, lookup_direct c hj, if_neg (by omega)]
    rfl
  · rw [lookup_entry (c := c.dropEntry n y) hj hind, lookup_entry hj hind]
    show (c.fs.setEntry c.sin.din.indirect (n - 12) 0).entry c.sin.din.indirect (j - 12) = _
    by_cases he : j = n
    · subst he
      rw [if_pos rfl]
      exact entry_setEntry_self (by omega)
    · rw [if_neg he]
      exact entry_setEntry_of_ne (by omega)

end SfsCtx

theorem SfsCtx.FileInv.setBits_give (h : FileInv c R) (huse : c.fs.InUse b) :
    (c.fs.give b).freemap.setBits = c.fs.freemap.setBits + 1 := by
  have hblocks := h.ready.blocks_le_nbits
  have hnbits := h.ready.nbits
  have hlt := huse.lt
  exact Bitmap.setBits_raise (by omega) huse.bit

theorem SfsCtx.FileInv.dropDirect (h : FileInv c R) (hn : c.sin.din.blocks = n + 1) (hd : n < 12) : Trimmed R c (c.dropDirect n hd) := by
  obtain ⟨hlt, hnz⟩ := h.last hn
  have huse : c.fs.InUse (c.lookup n) := h.lookup_inUse hlt hnz
  have hready : (c.dropDirect n hd).fs.Ready := h.ready.give huse
  obtain ⟨hinv, hcomp⟩ := trimmed_of_slots (c.dropDirect n hd) h hn hready (fun x => inUse_give_iff)
    (fun j _ => lookup_dropDirect hd j) rfl rfl
  refine ⟨hinv, ⟨rfl, rfl, rfl, rfl, rfl, rfl, rfl⟩, hn.symm, ?_, fun x hx hxn => hx.give hxn, fun _ _ _ => rfl,
    h.setBits_give huse, rfl, rfl, rfl, rfl, rfl, rfl, rfl, hcomp⟩
  intro j hj
  have hj' : j < n := hj
  rw [lookup_dropDirect, if_neg (by omega)]

theorem SfsCtx.FileInv.dropEntry (h : FileInv c R) (hn : c.sin.din.blocks = n + 1) (hd : ¬ n < 12) (hind : c.sin.din.indirect ≠ 0)
    (y : Bytes) : Trimmed R c (c.dropEntry n y) := by
  obtain ⟨hlt, hnz⟩ := h.last hn
  have huse : c.fs.InUse (c.lookup n) := h.lookup_inUse hlt hnz
  -- rewriting the entry block keeps every block in use
  have hready : (c.fs.setEntry c.sin.din.indirect (n - 12) 0).Ready := h.ready.setBlk
  have hused : (c.fs.setEntry c.sin.din.indirect (n - 12) 0).InUse (c.lookup n) := huse.setBlk
  have hbit : ∀ x, (c.dropEntry n y).fs.InUse x ↔ c.fs.InUse x ∧ x ≠ c.lookup n := by
    intro x
    have hx : (c.dropEntry n y).fs.InUse x ↔ ((c.fs.setEntry c.sin.din.indirect (n - 12) 0).give (c.lookup n)).InUse x :=
      ⟨fun hu => ⟨hu.ne, hu.lt, hu.bit⟩, fun hu => hu.scratch⟩
    rw [hx, inUse_give_iff]
    exact and_congr_left fun _ => ⟨fun hu => ⟨hu.ne, hu.lt, hu.bit⟩, fun hu => hu.setBlk⟩
  obtain ⟨hinv, hcomp⟩ := trimmed_of_slots (c.dropEntry n y) h hn (hready.give hused).scratch hbit
    (fun j _ => lookup_dropEntry hd hind y j) rfl rfl
  refine ⟨hinv, ⟨rfl, rfl, rfl, rfl, rfl, rfl, rfl⟩, hn.symm, ?_, fun x hx hxn => (hbit x).mpr ⟨hx, hxn⟩, ?_,
    h.setBits_give huse, rfl, rfl, rfl, rfl, rfl, rfl, rfl, hcomp⟩
  · intro j hj
    have hj' : j < n := hj
    rw [lookup_dropEntry hd hind, if_neg (by omega)]
  · intro x _ hxi
    show (c.fs.setEntry c.sin.din.indirect (n - 12) 0).dev.blk x = c.fs.dev.blk x
    exact blk_setEntry_of_ne hxi

/-- A direct slot is given up. -/
theorem sfsBmapFreeNolock_direct (h : FileInv c R) (hn : c.sin.din.blocks = n + 1) (hd : n < 12) :
    sfsBmapFreeNolock n c = .ok () { c.dropDirect n hd with
      sin := { (c.dropDirect n hd).sin with din := { (c.dropDirect n hd).sin.din with blocks := n + 1 } } } := by
  obtain ⟨hlt, hnz⟩ := h.last hn
  have hzoom : onFs (sfsBlockFree (c.lookup n)) c = .ok () (c.withFs (c.fs.give (c.lookup n))) :=
    Proc.zoom_ok (sfsBlockFree_run h.ready (h.lookup_inUse hlt hnz))
  have hlook := c.lookup_direct hd
  rw [hlook] at hzoom hnz
  unfold sfsBmapFreeNolock
  rw [Proc.get_bind, dif_pos hd, if_pos hnz, Proc.bind_ok hzoom]
  simp only [modifyDin, setDirty, Proc.modify_bind, Proc.modify_run, withFs, SfsCtx.dropDirect, hlook, hn]

theorem sfsBmapFreeNolock_entry (hd : ¬ n < 12) (hn : n < 1036) (hind : c.sin.din.indirect ≠ 0) :
    sfsBmapFreeNolock n c = onFs (sfsBmapFreeSubNolock c.sin.din.indirect (n - 12)) c := by
  have hlt : n - sfsNdirect < sfsBlkNentry := by
    show n - 12 < 1024
    omega
  unfold sfsBmapFreeNolock
  rw [Proc.get_bind, dif_neg hd, if_pos hlt, if_pos hind]
  rfl

/-- An entry is given up, unless the entry block cannot be read or written. -/
theorem sfsBmapFreeSubNolock_cases (h : FileInv c R) (hn : c.sin.din.blocks = n + 1) (hd : ¬ n < 12)
    (hind : c.sin.din.indirect ≠ 0) :
    (∃ y, sfsBmapFreeSubNolock c.sin.din.indirect (n - 12) c.fs = .ok () (c.dropEntry n y).fs) ∨
    ∃ r k x, r ≠ 0 ∧ ¬ c.fs.Healthy ∧
      sfsBmapFreeSubNolock c.sin.din.indirect (n - 12) c.fs = .err r (c.fs.scratch k x) := by
  obtain ⟨hlt, hnz⟩ := h.last hn
  have huse : c.fs.InUse (c.lookup n) := h.lookup_inUse hlt hnz
  have hindUse := h.indirect_inUse hind
  have hj : n - 12 < 1024 := by omega
  have hindex : n - 12 < sfsBlkNentry := hj
  unfold sfsBmapFreeSubNolock
  rw [Proc.bind_ok (assertInuse_run h.ready hindUse), Proc.check_bind_pos hindex]
  obtain ⟨x, hread⟩ := sfsRbufEntry_cases h.ready hindUse hj
  rw [← lookup_entry hd hind] at hread
  rcases hread with ⟨-, hread⟩ | ⟨hf, hread⟩
  · rw [Proc.bind_ok hread, if_pos hnz]
    obtain ⟨k, y, hw⟩ := sfsWbufEntry_cases (s := c.fs.scratch 1 x) h.ready.scratch hindUse.scratch hj 0
    rcases hw with ⟨-, -, hw⟩ | ⟨hf, r, hr, hw⟩
    · refine .inl ⟨y, ?_⟩
      have hready : (c.fs.setEntry c.sin.din.indirect (n - 12) 0).Ready := h.ready.setBlk
      have hused : (c.fs.setEntry c.sin.din.indirect (n - 12) 0).InUse (c.lookup n) := huse.setBlk
      rw [Proc.bind_ok hw]
      exact sfsBlockFree_run hready.scratch.scratch hused.scratch.scratch
    · rw [scratch_scratch] at hw
      exact .inr ⟨r, 1 + k, y, hr, fun hh => hf ⟨hh _, hh _⟩, Proc.bind_err hw⟩
  · exact .inr ⟨_, 1, x, hf, fun hh => hf (hh _), Proc.bind_err hread⟩

/-- **Dropping the last block.** Only reading and rewriting the entry block can fail. -/
theorem sfsBmapTruncateNolock_cases (h : FileInv c R) (h0 : 0 < c.sin.din.blocks) :
    (∃ c', sfsBmapTruncateNolock c = .ok () c' ∧ Trimmed R c c') ∨
    ∃ r k x, r ≠ 0 ∧ 12 < c.sin.din.blocks ∧ ¬ c.fs.Healthy ∧
      sfsBmapTruncateNolock c = .err r (c.scratch k x) := by
  obtain ⟨n, hn⟩ : ∃ n, c.sin.din.blocks = n + 1 := ⟨c.sin.din.blocks - 1, by omega⟩
  unfold sfsBmapTruncateNolock
  rw [Proc.get_bind, Proc.check_bind_pos (by omega)]
  simp only [hn, Nat.add_sub_cancel]
  by_cases hd : n < 12
  · refine .inl ⟨c.dropDirect n hd, ?_, h.dropDirect hn hd⟩
    rw [Proc.bind_ok (sfsBmapFreeNolock_direct h hn hd)]
    rfl
  · obtain ⟨hlt, hnz⟩ := h.last hn
    have hind : c.sin.din.indirect ≠ 0 := fun hz => hnz (lookup_missing hd hz)
    rw [Proc.bind_run, sfsBmapFreeNolock_entry hd hlt hind]
    rcases sfsBmapFreeSubNolock_cases h hn hd hind with ⟨y, hrun⟩ | ⟨r, k, x, hr, hsick, hrun⟩
    · have hzoom : onFs (sfsBmapFreeSubNolock c.sin.din.indirect (n - 12)) c = .ok () (c.withFs (c.dropEntry n y).fs) :=
        Proc.zoom_ok hrun
      refine .inl ⟨c.dropEntry n y, ?_, h.dropEntry hn hd hind y⟩
      rw [hzoom]
      simp only [modifyDin, setDirty, Proc.modify_bind, Proc.modify_run, withFs, SfsCtx.dropEntry, hn, Nat.add_sub_cancel]
    · have hzoom : onFs (sfsBmapFreeSubNolock c.sin.din.indirect (n - 12)) c = .err r (c.scratch k x) := Proc.zoom_err hrun
      refine .inr ⟨r, k, x, hr, by omega, hsick, ?_⟩
      rw [hzoom]

end Ucore
