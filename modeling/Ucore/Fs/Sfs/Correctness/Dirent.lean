import Ucore.Fs.Sfs.Correctness.FileData

/-!
# `Fs.Sfs.Correctness.Dirent` — what is found in a directory

A directory lists names with inode numbers, one entry to a block (`Lists`). On a device that does not fail,
`sfs_dirent_read_nolock` gives the entry of a slot, and `sfs_dirent_search_nolock` the first one with the
name asked for, `direntFound`.
-/

namespace Ucore

open SfsFs SfsCtx

variable {c c' c'' : SfsCtx} {R : Set Nat} {i k ino : Nat} {x entry : Bytes} {name : List UInt8}
  {l : List (List UInt8 × Nat)}

/-! ## Reading leaves everything as it was -/

structure Reads (R : Set Nat) (c c' : SfsCtx) : Prop where
  inv : FileInv c' R
  healthy : c'.fs.Healthy
  sin : c'.sin = c.sin
  blk : c'.fs.dev.blk = c.fs.dev.blk

theorem Reads.refl (h : FileInv c R) (hh : c.fs.Healthy) : Reads R c c := ⟨h, hh, rfl, rfl⟩

theorem Reads.trans (h : Reads R c c') (h' : Reads R c' c'') : Reads R c c'' :=
  ⟨h'.inv, h'.healthy, h'.sin.trans h.sin, h'.blk.trans h.blk⟩

theorem Reads.lookup (h : Reads R c c') (i : Nat) : c'.lookup i = c.lookup i :=
  lookup_congr (by rw [h.sin]) (by rw [h.sin]) (fun _ => by rw [h.blk]) i

/-- Nothing has changed but the buffer of the transfers and their number. -/
def Looked (c c' : SfsCtx) : Prop := ∃ k x, c' = c.scratch k x

theorem Looked.refl (c : SfsCtx) : Looked c c := ⟨0, c.fs.sfsBuffer, rfl⟩

theorem Looked.trans (h : Looked c c') (h' : Looked c' c'') : Looked c c'' := by
  obtain ⟨k, x, rfl⟩ := h
  obtain ⟨j, y, rfl⟩ := h'
  exact ⟨k + j, y, congrArg c.withFs (scratch_scratch ..)⟩

theorem Looked.inv (h : Looked c c') (hi : FileInv c R) : FileInv c' R := by
  obtain ⟨k, x, rfl⟩ := h
  exact hi.scratch

theorem Looked.reads (h : Looked c c') (hi : FileInv c R) (hh : c.fs.Healthy) : Reads R c c' := by
  have hinv := h.inv hi
  obtain ⟨k, x, rfl⟩ := h
  exact ⟨hinv, hh, rfl, rfl⟩

/-- An error that the device answers to some transfer. -/
def Fault (s : SfsFs) (e : Int) : Prop := e ≠ 0 ∧ ∃ k, s.dev.ioRet k = e

theorem Fault.not_healthy {s : SfsFs} {e : Int} (h : Fault s e) : ¬ s.Healthy := by
  obtain ⟨hne, k, rfl⟩ := h
  exact fun hh => hne (hh k)

/-- Loading an index of the file, on any device. -/
theorem load_cases (h : FileInv c R) (hi : i < c.sin.din.blocks) :
    (∃ c', sfsBmapLoadNolock i c = .ok (c.lookup i) c' ∧ Looked c c') ∨
      ∃ e c', Fault c.fs e ∧ sfsBmapLoadNolock i c = .err e c' ∧ Looked c c' := by
  have hlt : i < 1036 := Nat.lt_of_lt_of_le hi h.blocks_le
  have hne : i ≠ c.sin.din.blocks := Nat.ne_of_lt hi
  obtain ⟨k, x, hget | ⟨-, hf, hget⟩⟩ := sfsBmapGetNolock_find false h hlt (.inr rfl)
  · have hinUse := h.lookup_inUse hlt ((h.dense i hlt).mpr hi)
    have hassert : onFs (assertInuse .bmapLoadInuse (c.lookup i)) (c.scratch k x) = .ok () (c.scratch k x) :=
      Proc.zoom_ok (assertInuse_run h.ready.scratch hinUse.scratch)
    refine .inl ⟨c.scratch k x, ?_, k, x, rfl⟩
    unfold sfsBmapLoadNolock
    rw [Proc.get_bind, Proc.check_bind_pos (Nat.le_of_lt hi)]
    simp only [hne, decide_false]
    rw [Proc.bind_ok hget, Proc.bind_ok hassert]
    rfl
  · refine .inr ⟨_, c.scratch k x, ⟨hf, _, rfl⟩, ?_, k, x, rfl⟩
    unfold sfsBmapLoadNolock
    rw [Proc.get_bind, Proc.check_bind_pos (Nat.le_of_lt hi)]
    simp only [hne, decide_false]
    exact Proc.bind_err hget

theorem load_reads (h : FileInv c R) (hh : c.fs.Healthy) (hi : i < c.sin.din.blocks) :
    ∃ c', sfsBmapLoadNolock i c = .ok (c.lookup i) c' ∧ Reads R c c' := by
  rcases load_cases h hi with ⟨c', hrun, hl⟩ | ⟨e, c', hf, -⟩
  · exact ⟨c', hrun, hl.reads h hh⟩
  · exact absurd hh hf.not_healthy

/-- What a read of the entry in slot `k` leaves in the caller's memory. -/
def direntRead (c : SfsCtx) (k : Nat) (entry : Bytes) : Bytes :=
  Function.update (memcpy entry 0 (c.fs.dev.blk (c.lookup k)) 0 260) 259 0

/-- **Reading an entry**, on any device. -/
theorem sfsDirentReadNolock_cases (entry : Bytes) (h : FileInv c R) (htype : c.sin.din.type = sfsTypeDir)
    (hk : k < c.sin.din.blocks) :
    (∃ c', sfsDirentReadNolock k entry c = .ok (direntRead c k entry) c' ∧ Looked c c') ∨
      ∃ e c', Fault c.fs e ∧ sfsDirentReadNolock k entry c = .err e c' ∧ Looked c c' := by
  have hk' : k < 1036 := Nat.lt_of_lt_of_le hk h.blocks_le
  have hinUse := h.lookup_inUse hk' ((h.dense k hk').mpr hk)
  unfold sfsDirentReadNolock
  rw [Proc.get_bind, Proc.check_bind_pos ⟨htype, hk⟩]
  rcases load_cases h hk with ⟨c₁, hload, hl⟩ | ⟨e, c₁, hf, hload, hl⟩
  · rw [Proc.bind_ok hload]
    have hinv := hl.inv h
    obtain ⟨n, y, rfl⟩ := hl
    have hassert : onFs (assertInuse .direntReadInuse (c.lookup k)) (c.scratch n y) = .ok () (c.scratch n y) :=
      Proc.zoom_ok (assertInuse_run hinv.ready hinUse.scratch)
    rw [Proc.bind_ok hassert]
    obtain ⟨z, ⟨-, hrbuf⟩ | ⟨hf, hrbuf⟩⟩ := @sfsRbuf_cases (c.scratch n y).fs (c.lookup k) 260 0 entry 0 hinv.ready
      hinUse.ne hinUse.lt (by decide) (by decide)
    · have hbuf : onFs (sfsRbuf entry 0 sfsDiskEntrySize (c.lookup k) 0) (c.scratch n y) = .ok _ ((c.scratch n y).scratch 1 z) :=
        Proc.zoom_ok hrbuf
      refine .inl ⟨(c.scratch n y).scratch 1 z, ?_, Looked.trans ⟨n, y, rfl⟩ ⟨1, z, rfl⟩⟩
      rw [Proc.bind_ok hbuf]
      rfl
    · have hbuf : onFs (sfsRbuf entry 0 sfsDiskEntrySize (c.lookup k) 0) (c.scratch n y) = .err _ ((c.scratch n y).scratch 1 z) :=
        Proc.zoom_err hrbuf
      exact .inr ⟨_, (c.scratch n y).scratch 1 z, ⟨hf, _, rfl⟩, Proc.bind_err hbuf, Looked.trans ⟨n, y, rfl⟩ ⟨1, z, rfl⟩⟩
  · exact .inr ⟨e, c₁, hf, Proc.bind_err hload, hl⟩

/-- **Reading an entry.** -/
theorem sfsDirentReadNolock_run (entry : Bytes) (h : FileInv c R) (hh : c.fs.Healthy)
    (htype : c.sin.din.type = sfsTypeDir) (hk : k < c.sin.din.blocks) :
    ∃ c', sfsDirentReadNolock k entry c = .ok (direntRead c k entry) c' ∧ Reads R c c' := by
  rcases sfsDirentReadNolock_cases entry h htype hk with ⟨c', hrun, hl⟩ | ⟨e, c', hf, -⟩
  · exact ⟨c', hrun, hl.reads h hh⟩
  · exact absurd hh hf.not_healthy

/-! ## Names -/

/-- The block holds an entry with this name. -/
structure EntryNamed (x : Bytes) (name : List UInt8) (ino : Nat) : Prop where
  ino : getLe x 0 4 = ino
  name : ∀ j, j ≤ name.length → x (4 + j) = name.getD j 0

/-- What is read of it is the whole of the entry. -/
theorem EntryNamed.read (h : EntryNamed x name ino) (hlen : name.length ≤ 255) (entry : Bytes) :
    EntryNamed (Function.update (memcpy entry 0 x 0 260) 259 0) name ino := by
  have hin : ∀ j, j < 259 → Function.update (memcpy entry 0 x 0 260) 259 0 j = x j := by
    intro j hj
    rw [Function.update_of_ne (by omega), memcpy_in (by omega), Nat.zero_add, Nat.sub_zero]
  refine ⟨?_, fun j hj => ?_⟩
  · rw [getLe_congr fun i _ hi => hin i (by omega)]
    exact h.ino
  · by_cases hlast : j = 255
    · -- the last byte is overwritten with the NUL that it has to be
      rw [hlast, Function.update_self, List.getD_eq_getElem?_getD, List.getElem?_eq_none (by omega)]
      rfl
    · rw [hin _ (by omega)]
      exact h.name j hj

theorem strcmp_eq_zero {s : List UInt8} (hs : ∀ ch ∈ s, ch ≠ 0) : ∀ {t : List UInt8} {i : Nat}, (∀ ch ∈ t, ch ≠ 0) →
    (∀ j, j ≤ t.length → x (i + j) = t.getD j 0) → (strcmp s x i = 0 ↔ s = t) := by
  induction s with
  | nil =>
    intro t i ht hx
    have h0 := hx 0 (Nat.zero_le _)
    rw [Nat.add_zero] at h0
    rw [strcmp, h0]
    cases t with
    | nil => exact ⟨fun _ => rfl, fun _ => rfl⟩
    | cons d t =>
      have hd : d.toNat ≠ 0 := fun hz => ht d List.mem_cons_self (UInt8.toNat_inj.mp hz)
      refine ⟨fun h => ?_, fun h => (List.cons_ne_nil _ _ h.symm).elim⟩
      rw [List.getD_cons_zero] at h
      omega
  | cons ch s ih =>
    intro t i ht hx
    have h0 := hx 0 (Nat.zero_le _)
    have hch : ch.toNat ≠ 0 := fun hz => hs ch List.mem_cons_self (UInt8.toNat_inj.mp hz)
    rw [Nat.add_zero] at h0
    rw [strcmp, h0]
    cases t with
    | nil =>
      rw [List.getD_nil, if_neg (hs ch List.mem_cons_self)]
      refine ⟨fun h => ?_, fun h => (List.cons_ne_nil _ _ h).elim⟩
      have hz : (0 : UInt8).toNat = 0 := rfl
      omega
    | cons d t =>
      rw [List.getD_cons_zero]
      by_cases heq : ch = d
      · subst heq
        have hrest : ∀ j, j ≤ t.length → x (i + 1 + j) = t.getD j 0 := by
          intro j hj
          have := hx (j + 1) (Nat.succ_le_succ hj)
          rwa [List.getD_cons_succ, Nat.add_comm j 1, ← Nat.add_assoc] at this
        rw [if_pos rfl, ih (fun b hb => hs b (List.mem_cons_of_mem _ hb)) (fun b hb => ht b (List.mem_cons_of_mem _ hb)) hrest,
          List.cons_inj_right]
      · have hne : ch.toNat ≠ d.toNat := fun hz => heq (UInt8.toNat_inj.mp hz)
        rw [if_neg heq]
        refine ⟨fun h => by omega, fun h => (heq (List.cons.inj h).1).elim⟩

/-! ## Searching -/

/-- The directory lists the names of `l` from slot `i` on. -/
structure Lists (c : SfsCtx) (i : Nat) (l : List (List UInt8 × Nat)) : Prop where
  entry : ∀ k (hk : k < l.length), EntryNamed (c.fs.dev.blk (c.lookup (i + k))) l[k].1 l[k].2
  name : ∀ e ∈ l, e.1.length ≤ 255 ∧ ∀ ch ∈ e.1, ch ≠ 0
  ino : ∀ e ∈ l, e.2 ≠ 0

theorem Lists.tail {e : List UInt8 × Nat} (h : Lists c i (e :: l)) : Lists c (i + 1) l := by
  refine ⟨fun k hk => ?_, fun e' he => h.name e' (List.mem_cons_of_mem _ he), fun e' he => h.ino e' (List.mem_cons_of_mem _ he)⟩
  have := h.entry (k + 1) (Nat.succ_lt_succ hk)
  rwa [List.getElem_cons_succ, Nat.add_comm k 1, ← Nat.add_assoc] at this

theorem Lists.reads (h : Lists c i l) (hr : Reads R c c') : Lists c' i l :=
  ⟨fun k hk => by
    rw [hr.lookup, hr.blk]
    exact h.entry k hk, h.name, h.ino⟩

/-- The first entry of `l` with the name, `i` being the slot of its head. -/
def direntFound (emptySlot : Nat) (name : List UInt8) : Nat → List (List UInt8 × Nat) → DirentSearch
  | _, []     => { ret := -eNoEnt, ino := none, slot := none, emptySlot := some emptySlot }
  | i, e :: l =>
    if name = e.1 then { ret := 0, ino := some e.2, slot := some i, emptySlot := some emptySlot }
    else direntFound emptySlot name (i + 1) l

theorem direntSearchLoop_run {emptySlot : Nat} (hname : ∀ ch ∈ name, ch ≠ 0) (l : List (List UInt8 × Nat)) :
    ∀ {c : SfsCtx} {i : Nat} (entry : Bytes), FileInv c R → c.fs.Healthy → c.sin.din.type = sfsTypeDir → Lists c i l →
      i + l.length = c.sin.din.blocks →
      ∃ c', direntSearchLoop name entry emptySlot i l.length c = .ok (direntFound emptySlot name i l) c' ∧
        Reads R c c' := by
  induction l with
  | nil =>
    intro c i entry h hh _ _ _
    exact ⟨c, rfl, .refl h hh⟩
  | cons e l ih =>
    intro c i entry h hh htype hl hi
    rw [List.length_cons] at hi ⊢
    obtain ⟨hlen, hchars⟩ := hl.name e List.mem_cons_self
    obtain ⟨c₁, hread, hr⟩ := sfsDirentReadNolock_run (k := i) entry h hh htype (by omega)
    have hentry := (hl.entry 0 (Nat.zero_lt_succ _)).read hlen entry
    rw [Nat.add_zero, List.getElem_cons_zero] at hentry
    change EntryNamed (direntRead c i entry) e.1 e.2 at hentry
    have hino := hentry.ino
    have hcmp := strcmp_eq_zero hname hchars hentry.name
    unfold direntSearchLoop direntFound
    rw [Proc.bind_ok (Proc.attempt_ok hread)]
    dsimp only
    rw [hino, if_neg (hl.ino e List.mem_cons_self)]
    by_cases heq : name = e.1
    · rw [if_pos (hcmp.mpr heq), if_pos heq]
      exact ⟨c₁, rfl, hr⟩
    · rw [if_neg fun hz => heq (hcmp.mp hz), if_neg heq]
      obtain ⟨c₂, hrest, hr₂⟩ := ih _ hr.inv hr.healthy (by rw [hr.sin]; exact htype) (hl.tail.reads hr) (by
        rw [hr.sin]
        omega)
      exact ⟨c₂, hrest, hr.trans hr₂⟩

/-- **Searching a directory.** -/
theorem sfsDirentSearchNolock_run (hname : ∀ ch ∈ name, ch ≠ 0) (hlen : name.length ≤ 255) (entry : Bytes)
    (h : FileInv c R) (hh : c.fs.Healthy) (htype : c.sin.din.type = sfsTypeDir) (hl : Lists c 0 l)
    (hcount : c.sin.din.blocks = l.length) :
    ∃ c', sfsDirentSearchNolock name (some entry) c = .ok (direntFound l.length name 0 l) c' ∧ Reads R c c' := by
  obtain ⟨c', hrun, hr⟩ := @direntSearchLoop_run R name l.length hname l c 0 entry h hh htype hl
    ((Nat.zero_add _).trans hcount.symm)
  refine ⟨c', ?_, hr⟩
  have hlen' : name.length ≤ sfsMaxFnameLen := hlen
  unfold sfsDirentSearchNolock
  rw [Proc.check_bind_pos hlen']
  dsimp only
  rw [Proc.get_bind, hcount]
  exact hrun

theorem direntFound_missing {emptySlot : Nat} (h : name ∉ l.map Prod.fst) : direntFound emptySlot name i l =
    { ret := -eNoEnt, ino := none, slot := none, emptySlot := some emptySlot } := by
  induction l generalizing i with
  | nil => rfl
  | cons e l ih =>
    rw [List.map_cons, List.mem_cons, not_or] at h
    rw [direntFound, if_neg h.1]
    exact ih h.2

theorem direntFound_at {emptySlot : Nat} (h : (l.map Prod.fst).Nodup) (hk : k < l.length) :
    direntFound emptySlot l[k].1 i l =
      { ret := 0, ino := some l[k].2, slot := some (i + k), emptySlot := some emptySlot } := by
  induction l generalizing i k with
  | nil => exact absurd hk (Nat.not_lt_zero k)
  | cons e l ih =>
    rw [List.map_cons, List.nodup_cons] at h
    cases k with
    | zero => exact if_pos rfl
    | succ k =>
      have hk' : k < l.length := Nat.lt_of_succ_lt_succ hk
      have hne : l[k].1 ≠ e.1 := fun heq => h.1 (heq ▸ List.mem_map_of_mem (List.getElem_mem hk'))
      rw [direntFound, List.getElem_cons_succ, if_neg hne, ih h.2 hk', Nat.add_comm k 1, ← Nat.add_assoc]

end Ucore
