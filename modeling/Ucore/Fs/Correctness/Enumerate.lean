import Mathlib.Tactic.SplitIfs
import Ucore.Fs.File
import Ucore.Fs.Sfs.Correctness.Dirent
import Ucore.Libs.String

/-!
# `Fs.Correctness.Enumerate` — listing and searching a directory

A directory is a row of slots, and the ones whose inode number is 0 are empty. `file_getdirentry` counts the others: a call at
the offset of `k` names gives the `k`-th of them. The bound it checks is the number of slots, which is never below, so that
`sfs_getdirentry_sub_nolock` finds out where the names end. The device may fail in the middle; what holds then is said of the
calls that succeed.
-/

namespace Ucore

open SfsFs SfsCtx

variable {c c' : SfsCtx} {R : Set Nat} {name : List UInt8}

namespace SfsCtx

/-- The inode number and the name in slot `i` of a directory. -/
def direntIno (c : SfsCtx) (i : Nat) : Nat := getLe (c.fs.dev.blk (c.lookup i)) 0 4

def direntName (c : SfsCtx) (i : Nat) : List UInt8 := cstring (c.fs.dev.blk (c.lookup i)) 4 sfsMaxFnameLen

/-- The slots from `i` to `i + n` that are not empty. -/
def slotsFrom (c : SfsCtx) (i n : Nat) : List Nat := (List.range' i n).filter fun j => c.direntIno j ≠ 0

/-- All of them, in their order. -/
def slots (c : SfsCtx) : List Nat := c.slotsFrom 0 c.sin.din.blocks

theorem slotsFrom_empty {i n : Nat} (h : c.direntIno i = 0) : c.slotsFrom i (n + 1) = c.slotsFrom (i + 1) n := by
  simp [slotsFrom, List.range'_succ, h]

theorem slotsFrom_entry {i n : Nat} (h : c.direntIno i ≠ 0) : c.slotsFrom i (n + 1) = i :: c.slotsFrom (i + 1) n := by
  simp [slotsFrom, List.range'_succ, h]

theorem slots_length_le : c.slots.length ≤ c.sin.din.blocks :=
  (List.length_filter_le ..).trans_eq List.length_range'

end SfsCtx

/-! ## One entry -/

theorem direntRead_in {k j : Nat} (entry : Bytes) (hj : j < 259) :
    direntRead c k entry j = c.fs.dev.blk (c.lookup k) j := by
  unfold direntRead
  rw [Function.update_of_ne (by omega), memcpy_in (by omega), Nat.zero_add, Nat.sub_zero]

theorem direntRead_end {k : Nat} (entry : Bytes) : direntRead c k entry 259 = 0 := Function.update_self ..

theorem direntRead_ino {k : Nat} (entry : Bytes) : getLe (direntRead c k entry) 0 4 = c.direntIno k :=
  getLe_congr fun _ _ hi => direntRead_in entry (by omega)

theorem direntRead_name {k : Nat} (entry : Bytes) : cstring (direntRead c k entry) 4 sfsMaxFnameLen = c.direntName k :=
  cstring_congr fun _ hi => direntRead_in entry (by simp only [sfsMaxFnameLen] at hi; omega)

/-- `strcmp` finds out whether a name is the one that has been read. -/
theorem strcmp_direntRead {k : Nat} (entry : Bytes) (hname : ∀ ch ∈ name, ch ≠ 0) :
    strcmp name (direntRead c k entry) 4 = 0 ↔ name = c.direntName k := by
  rw [← direntRead_name entry]
  exact strcmp_eq_zero hname cstring_ne_zero (cstring_getD (direntRead_end entry))

/-! ## The entry at a position -/

/-- The loop of `sfs_getdirentry_sub_nolock` from slot `i` on: the entry that is `slot` entries further, unless the device
    fails. -/
theorem getdirentrySubLoop_run (n : Nat) : ∀ {c : SfsCtx} {i : Nat} (slot : Nat) (entry : Bytes), FileInv c R →
    c.sin.din.type = sfsTypeDir → i + n = c.sin.din.blocks →
    (∃ c', Looked c c' ∧ match (c.slotsFrom i n)[slot]? with
      | some k => ∃ x, getdirentrySubLoop slot entry i n c = .ok (direntRead c k x) c'
      | none   => getdirentrySubLoop slot entry i n c = .err (-eNoEnt) c') ∨
    ∃ e c', Fault c.fs e ∧ getdirentrySubLoop slot entry i n c = .err e c' ∧ Looked c c' := by
  induction n with
  | zero =>
    intro c i slot entry h htype hi
    exact .inl ⟨c, .refl c, rfl⟩
  | succ n ih =>
    intro c i slot entry h htype hi
    rcases sfsDirentReadNolock_cases (k := i) entry h htype (by omega) with ⟨c₁, hread, hl⟩ | ⟨e, c₁, hf, hread, hl⟩
    · -- the rest of the slots, looked at after this one
      have hrest : ∀ slot : Nat, (∃ c', Looked c c' ∧ match (c.slotsFrom (i + 1) n)[slot]? with
            | some k => ∃ x, getdirentrySubLoop slot (direntRead c i entry) (i + 1) n c₁ = .ok (direntRead c k x) c'
            | none   => getdirentrySubLoop slot (direntRead c i entry) (i + 1) n c₁ = .err (-eNoEnt) c') ∨
          ∃ e c', Fault c.fs e ∧ getdirentrySubLoop slot (direntRead c i entry) (i + 1) n c₁ = .err e c' ∧ Looked c c' := by
        intro slot
        have hinv := hl.inv h
        obtain ⟨k, x, rfl⟩ := hl
        rcases ih (i := i + 1) slot (direntRead c i entry) hinv htype (by show i + 1 + n = c.sin.din.blocks; omega)
          with ⟨c₂, hl₂, hrun⟩ | ⟨e, c₂, hf, hrun, hl₂⟩
        · exact .inl ⟨c₂, Looked.trans ⟨k, x, rfl⟩ hl₂, hrun⟩
        · exact .inr ⟨e, c₂, hf, hrun, Looked.trans ⟨k, x, rfl⟩ hl₂⟩
      unfold getdirentrySubLoop
      rw [Proc.bind_ok hread]
      simp only [direntRead_ino]
      by_cases hino : c.direntIno i = 0
      · rw [slotsFrom_empty hino, if_neg (not_not_intro hino)]
        exact hrest slot
      · rw [slotsFrom_entry hino, if_pos hino]
        cases slot with
        | zero => exact .inl ⟨c₁, hl, entry, rfl⟩
        | succ slot =>
          have hne : ¬ ((slot + 1 : Nat) : Int) = 0 := by omega
          have hpred : ((slot + 1 : Nat) : Int) - 1 = slot := by omega
          rw [if_neg hne, hpred]
          exact hrest slot
    · exact .inr ⟨e, c₁, hf, Proc.bind_err hread, hl⟩

/-! ## One call -/

/-- The name in a `struct dirent`. -/
def Dirent.string (d : Dirent) : List UInt8 := cstring d.name 0 sfsMaxFnameLen

/-- What a call at the offset of `k` names answers: the next name, or that there is none, or an error that leaves the
    `struct dirent` alone. -/
inductive Answers (c : SfsCtx) (entry : Option Bytes) (d : Dirent) (k : Nat) : Int × Dirent → Prop where
  | name (i : Nat) (d' : Dirent) (hi : c.slots[k]? = some i) (ho : d'.offset = 256 * (k + 1 : Nat))
      (hs : d'.string = c.direntName i) : Answers c entry d k (0, d')
  | none (hk : c.slots.length ≤ k) : Answers c entry d k (-eNoEnt, d)
  | noMem (he : entry = Option.none) : Answers c entry d k (-eNoMem, d)
  | fault (e : Int) (hf : Fault c.fs e) : Answers c entry d k (e, d)

theorem iobufSkip_run {σ : Type} {s : σ} {iob : Iobuf} {n : Nat} (h : n ≤ iob.ioResid) : iobufSkip iob n s =
    .ok { iob with ioBase := (iob.ioBase.1, iob.ioBase.2 + n), ioOffset := iob.ioOffset + n, ioResid := iob.ioResid - n } s :=
  Proc.check_bind_pos h ..

/-- Filling a whole buffer. -/
theorem iobufMove_all {σ : Type} {s : σ} {n : Nat} (base data : Bytes) (d : Nat) (offset : Int) (hn : 0 < n) :
    iobufMove (iobufInit (base, 0) n offset) data d n true s =
      .ok (0, { ioBase := (memcpy base 0 data d n, 0 + n), ioOffset := offset + n, ioLen := n, ioResid := n - n }, data, n) s := by
  unfold iobufMove
  simp only [iobufInit, Nat.min_self, if_pos hn, if_true]
  rw [Proc.bind_ok (iobufSkip_run (Nat.le_refl n)), if_pos (Nat.sub_self n)]
  rfl

/-- `sfs_getdirentry` at the offset of `k` names. -/
theorem sfsGetdirentry_run {k : Nat} {d : Dirent} (entry : Option Bytes) (h : FileInv c R) (htype : c.sin.din.type = sfsTypeDir)
    (hd : d.offset = 256 * (k : Nat)) (hk : k ≤ c.sin.din.blocks) :
    ∃ ret iob c', sfsGetdirentry entry (iobufInit (d.name, 0) (sfsMaxFnameLen + 1) d.offset) c = .ok (ret, iob) c' ∧
      Looked c c' ∧ ((ret = 0 ∧ ∃ i, c.slots[k]? = some i ∧ iob.used = 256 ∧ cstring iob.ioBase.1 0 sfsMaxFnameLen = c.direntName i) ∨
        iob.ioBase.1 = d.name ∧ (ret = -eNoEnt ∧ c.slots.length ≤ k ∨ ret = -eNoMem ∧ entry = none ∨ Fault c.fs ret)) := by
  have hblocks := h.blocks_le
  unfold sfsGetdirentry
  cases entry with
  | none => exact ⟨_, _, c, rfl, .refl c, .inr ⟨rfl, .inr (.inl ⟨rfl, rfl⟩)⟩⟩
  | some entry =>
    have hoff : ¬ (d.offset < 0 ∨ d.offset % sfsDentrySize ≠ 0) := by
      simp only [sfsDentrySize, sfsMaxFnameLen]
      omega
    have hslot : Int.bmod (d.offset / sfsDentrySize) (2 ^ 32) = k := by
      have hdiv : d.offset / sfsDentrySize = k := by
        simp only [sfsDentrySize, sfsMaxFnameLen]
        omega
      rw [hdiv]
      exact Int.bmod_eq_of_le (by omega) (by omega)
    have hle : ¬ (c.sin.din.blocks : Int) < (k : Int) % 2 ^ 32 := by omega
    have hio : (iobufInit (d.name, 0) (sfsMaxFnameLen + 1) d.offset).ioOffset = d.offset := rfl
    simp only [hio]
    rw [if_neg hoff, hslot, Proc.get_bind, if_neg hle, sfsGetdirentrySubNolock]
    have hloop := getdirentrySubLoop_run (i := 0) c.sin.din.blocks k entry h htype (Nat.zero_add _)
    rcases hloop with ⟨c', hl, hrun⟩ | ⟨e, c', hf, hrun, hl⟩
    · cases hi : c.slots[k]? with
      | none =>
        rw [show c.slotsFrom 0 c.sin.din.blocks = c.slots from rfl, hi] at hrun
        refine ⟨_, _, c', Proc.bind_ok (Proc.attempt_err hrun), hl, .inr ⟨rfl, .inl ⟨rfl, ?_⟩⟩⟩
        exact List.getElem?_eq_none_iff.mp hi
      | some i =>
        rw [show c.slotsFrom 0 c.sin.din.blocks = c.slots from rfl, hi] at hrun
        obtain ⟨x, hrun⟩ := hrun
        have hmove := iobufMove_all (s := c') d.name (direntRead c i x) 4 d.offset (n := sfsMaxFnameLen + 1) (Nat.zero_lt_succ _)
        refine ⟨0, _, c', (Proc.bind_ok (Proc.attempt_ok hrun)).trans (Proc.bind_ok hmove), hl, .inl ⟨rfl, i, rfl, ?_, ?_⟩⟩
        · show sfsMaxFnameLen + 1 - (sfsMaxFnameLen + 1 - (sfsMaxFnameLen + 1)) = 256
          rw [Nat.sub_self]
          rfl
        · rw [← direntRead_name x]
          refine cstring_congr fun j hj => ?_
          show memcpy d.name 0 (direntRead c i x) 4 (sfsMaxFnameLen + 1) (0 + j) = _
          rw [memcpy_in (by omega), Nat.sub_zero, Nat.zero_add]
    · exact ⟨e, _, c', Proc.bind_ok (Proc.attempt_err hrun), hl, .inr ⟨rfl, .inr (.inr hf)⟩⟩

variable {s : FileSys} {pid fd : Nat}

/-- **One call** on a directory that is open. -/
theorem fileGetdirentry_run {k : Nat} {d : Dirent} (entry : Option Bytes) (h : FileInv s.ctx R)
    (htype : s.ctx.sin.din.type = sfsTypeDir) (hfd : s.files.any (File.at pid fd) = true) (hd : d.offset = 256 * (k : Nat))
    (hk : k ≤ s.ctx.sin.din.blocks) :
    ∃ r c', fileGetdirentry pid fd entry d s = .ok r { s with ctx := c' } ∧ Looked s.ctx c' ∧ Answers s.ctx entry d k r := by
  obtain ⟨f, hf⟩ : ∃ f, s.files.find? (File.at pid fd) = some f := by
    rw [← Option.isSome_iff_exists, List.find?_isSome]
    exact List.any_eq_true.mp hfd
  have hfile : fd2file pid fd s = .ok f s := by
    rw [fd2file, Proc.get_bind, hf]
    rfl
  have hblocks := h.blocks_le
  obtain ⟨ret, iob, c', hrun, hl, hans⟩ := sfsGetdirentry_run entry h htype hd hk
  have hctx : onCtx (sfsGetdirentry entry (iobufInit (d.name, 0) (sfsMaxFnameLen + 1) d.offset)) s =
      .ok (ret, iob) { s with ctx := c' } := Proc.zoom_ok hrun
  unfold fileGetdirentry
  rw [Proc.bind_ok hfile, Proc.get_bind, Proc.check_bind_pos htype, Proc.bind_ok hctx]
  rcases hans with ⟨rfl, i, hi, hused, hname⟩ | ⟨hbase, hans⟩
  · refine ⟨_, c', rfl, hl, .name i _ hi ?_ hname⟩
    show Int.bmod (d.offset + iob.used) (2 ^ 64) = _
    rw [hused, hd, Int.bmod_eq_of_le (by omega) (by omega)]
    omega
  · have hne : ret ≠ 0 := by
      rcases hans with ⟨rfl, -⟩ | ⟨rfl, -⟩ | hf
      · decide
      · decide
      · exact hf.1
    refine ⟨(ret, d), c', ?_, hl, ?_⟩
    · simp only
      rw [if_neg hne, hbase]
      rfl
    · rcases hans with ⟨rfl, hk⟩ | ⟨rfl, he⟩ | hf
      · exact .none hk
      · exact .noMem he
      · exact .fault ret hf

/-! ## All the calls -/

/-- One call after the other on the same `struct dirent`; `kmalloc` returns the memories of the list. -/
def getdirentries (pid fd : Nat) : List (Option Bytes) → Dirent → FileM (List (Int × Dirent))
  | [], _      => pure []
  | e :: es, d => do
    let r ← fileGetdirentry pid fd e d
    let rs ← getdirentries pid fd es r.2
    pure (r :: rs)

/-- What the calls answer when `k` names have been returned: the calls that succeed return the next names, each once. If
    nothing fails, all the names are returned, and after them that there are no more. -/
structure ListedFrom (c : SfsCtx) (k : Nat) (es : List (Option Bytes)) (rs : List (Int × Dirent)) : Prop where
  names : (rs.filter fun r => r.1 = 0).map (fun r => r.2.string) =
    ((c.slots.drop k).map c.direntName).take (rs.countP fun r => r.1 = 0)
  codes : c.fs.Healthy → none ∉ es → rs.map Prod.fst =
    List.replicate (min es.length (c.slots.length - k)) 0 ++ List.replicate (es.length - (c.slots.length - k)) (-eNoEnt)

/-- A call, and the ones after it. -/
theorem Answers.listed {k : Nat} {entry : Option Bytes} {es : List (Option Bytes)} {d : Dirent} {r : Int × Dirent}
    {rs : List (Int × Dirent)} (h : Answers c entry d k r) (hrs : ∀ k', r.2.offset = 256 * (k' : Nat) → ListedFrom c k' es rs)
    (hd : d.offset = 256 * (k : Nat)) : ListedFrom c k (entry :: es) (r :: rs) := by
  cases h with
  | name i d' hi ho hs =>
    have hrest := hrs (k + 1) ho
    have hlt : k < c.slots.length := (List.getElem?_eq_some_iff.mp hi).1
    have hdrop : c.slots.drop k = i :: c.slots.drop (k + 1) := by
      rw [List.drop_eq_getElem_cons hlt, (List.getElem?_eq_some_iff.mp hi).2]
    constructor
    · rw [hdrop]
      simp [hrest.names, hs]
    · intro hh hes
      have hmin : min (es.length + 1) (c.slots.length - k) = min es.length (c.slots.length - (k + 1)) + 1 := by omega
      have hsub : es.length + 1 - (c.slots.length - k) = es.length - (c.slots.length - (k + 1)) := by omega
      rw [List.map_cons, hrest.codes hh fun hm => hes (List.mem_cons_of_mem _ hm), List.length_cons, hmin, hsub,
        List.replicate_succ, List.cons_append]
  | none hk =>
    have hrest := hrs k hd
    constructor
    · simpa [eNoEnt] using hrest.names
    · intro hh hes
      have hz : c.slots.length - k = 0 := by omega
      have hcodes := hrest.codes hh fun hm => hes (List.mem_cons_of_mem _ hm)
      rw [hz] at hcodes ⊢
      simp only [Nat.min_zero, List.replicate_zero, List.nil_append, Nat.sub_zero, List.map_cons, List.length_cons,
        List.replicate_succ] at hcodes ⊢
      rw [hcodes]
  | noMem he =>
    have hrest := hrs k hd
    constructor
    · simpa [eNoMem] using hrest.names
    · exact fun _ hes => absurd (he ▸ List.mem_cons_self) hes
  | fault e hf =>
    have hrest := hrs k hd
    constructor
    · simpa [hf.1] using hrest.names
    · exact fun hh _ => absurd hh hf.not_healthy

/-- Where the next call starts. -/
theorem Answers.next {k : Nat} {entry : Option Bytes} {d : Dirent} {r : Int × Dirent} (h : Answers c entry d k r)
    (hd : d.offset = 256 * (k : Nat)) (hk : k ≤ c.sin.din.blocks) :
    ∃ k' : Nat, r.2.offset = 256 * (k' : Nat) ∧ k' ≤ c.sin.din.blocks := by
  cases h with
  | name i d' hi ho hs =>
    have hlt : k < c.slots.length := (List.getElem?_eq_some_iff.mp hi).1
    exact ⟨k + 1, ho, Nat.lt_of_lt_of_le hlt slots_length_le⟩
  | none hk' => exact ⟨k, hd, hk⟩
  | noMem he => exact ⟨k, hd, hk⟩
  | fault e hf => exact ⟨k, hd, hk⟩

/-- **All the calls**, by induction on how many there are. -/
theorem getdirentries_run (es : List (Option Bytes)) : ∀ {s : FileSys} {k : Nat} {d : Dirent}, FileInv s.ctx R →
    s.ctx.sin.din.type = sfsTypeDir → s.files.any (File.at pid fd) = true → d.offset = 256 * (k : Nat) →
    k ≤ s.ctx.sin.din.blocks →
    ∃ rs c', getdirentries pid fd es d s = .ok rs { s with ctx := c' } ∧ Looked s.ctx c' ∧ ListedFrom s.ctx k es rs := by
  induction es with
  | nil =>
    intro s k d h htype hfd hd hk
    exact ⟨[], s.ctx, rfl, .refl _, rfl, fun _ _ => by simp⟩
  | cons entry es ih =>
    intro s k d h htype hfd hd hk
    obtain ⟨r, c₁, hcall, hl, hans⟩ := fileGetdirentry_run entry h htype hfd hd hk
    obtain ⟨k', hd', hk'⟩ := hans.next hd hk
    have hinv := hl.inv h
    obtain ⟨n, x, rfl⟩ := hl
    obtain ⟨rs, c₂, hrun, hl₂, hlist⟩ := ih (s := { s with ctx := s.ctx.scratch n x }) hinv htype hfd hd' hk'
    refine ⟨r :: rs, c₂, ?_, Looked.trans ⟨n, x, rfl⟩ hl₂, hans.listed (fun k'' hd'' => ?_) hd⟩
    · rw [getdirentries, Proc.bind_ok hcall, Proc.bind_ok hrun]
      rfl
    · obtain rfl : k'' = k' := by omega
      exact ⟨hlist.names, hlist.codes⟩

/-! ## Searching -/

namespace SfsCtx

/-- The first slot with the name, from slot `i` on, and in the whole directory. -/
def firstSlotFrom (c : SfsCtx) (name : List UInt8) (i n : Nat) : Option Nat :=
  (c.slotsFrom i n).find? fun j => c.direntName j = name

def firstSlot (c : SfsCtx) (name : List UInt8) : Option Nat := c.slots.find? fun j => c.direntName j = name

end SfsCtx

/-- The answer of a search that has found `found`. -/
def SearchFinds (c : SfsCtx) (found : Option Nat) (r : DirentSearch) : Prop :=
  match found with
  | some i => r.ret = 0 ∧ r.slot = some i ∧ r.ino = some (c.direntIno i)
  | none   => r.ret = -eNoEnt ∧ r.slot = none ∧ r.ino = none

/-- The loop of `sfs_dirent_search_nolock` from slot `i` on. -/
theorem direntSearchLoop_looks (hname : ∀ ch ∈ name, ch ≠ 0) (n : Nat) : ∀ {c : SfsCtx} {i : Nat} (emptySlot : Nat) (entry : Bytes),
    FileInv c R → c.sin.din.type = sfsTypeDir → i + n = c.sin.din.blocks →
    ∃ r c', direntSearchLoop name entry emptySlot i n c = .ok r c' ∧ Looked c c' ∧
      (SearchFinds c (c.firstSlotFrom name i n) r ∨ Fault c.fs r.ret) := by
  induction n with
  | zero =>
    intro c i emptySlot entry h htype hi
    exact ⟨_, c, rfl, .refl c, .inl ⟨rfl, rfl, rfl⟩⟩
  | succ n ih =>
    intro c i emptySlot entry h htype hi
    rcases sfsDirentReadNolock_cases (k := i) entry h htype (by omega) with ⟨c₁, hread, hl⟩ | ⟨e, c₁, hf, hread, hl⟩
    · have hrest : ∀ emptySlot, ∃ r c', direntSearchLoop name (direntRead c i entry) emptySlot (i + 1) n c₁ = .ok r c' ∧
          Looked c c' ∧ (SearchFinds c (c.firstSlotFrom name (i + 1) n) r ∨ Fault c.fs r.ret) := by
        intro emptySlot
        have hinv := hl.inv h
        obtain ⟨k, x, rfl⟩ := hl
        obtain ⟨r, c₂, hrun, hl₂, hans⟩ := ih (i := i + 1) emptySlot (direntRead c i entry) hinv htype
          (by show i + 1 + n = c.sin.din.blocks; omega)
        exact ⟨r, c₂, hrun, Looked.trans ⟨k, x, rfl⟩ hl₂, hans⟩
      unfold direntSearchLoop
      rw [Proc.bind_ok (Proc.attempt_ok hread)]
      simp only [direntRead_ino]
      by_cases hino : c.direntIno i = 0
      · rw [if_pos hino, firstSlotFrom, slotsFrom_empty hino]
        exact hrest i
      · rw [if_neg hino, firstSlotFrom, slotsFrom_entry hino]
        by_cases heq : name = c.direntName i
        · rw [if_pos ((strcmp_direntRead entry hname).mpr heq), List.find?_cons_of_pos (by simpa using heq.symm)]
          exact ⟨_, c₁, rfl, hl, .inl ⟨rfl, rfl, rfl⟩⟩
        · rw [if_neg fun hz => heq ((strcmp_direntRead entry hname).mp hz), List.find?_cons_of_neg (by simpa using Ne.symm heq)]
          exact hrest emptySlot
    · refine ⟨{ ret := e, ino := none, slot := none, emptySlot := some emptySlot }, c₁, ?_, hl, .inr hf⟩
      unfold direntSearchLoop
      rw [Proc.bind_ok (Proc.attempt_err hread)]
      rfl

/-- **Searching a directory**, on any device. -/
theorem sfsDirentSearchNolock_looks (hname : ∀ ch ∈ name, ch ≠ 0) (hlen : name.length ≤ sfsMaxFnameLen) (entry : Bytes)
    (h : FileInv c R) (htype : c.sin.din.type = sfsTypeDir) :
    ∃ r c', sfsDirentSearchNolock name (some entry) c = .ok r c' ∧ Looked c c' ∧
      (SearchFinds c (c.firstSlot name) r ∨ Fault c.fs r.ret) := by
  unfold sfsDirentSearchNolock
  rw [Proc.check_bind_pos hlen]
  exact direntSearchLoop_looks hname c.sin.din.blocks c.sin.din.blocks entry h htype (Nat.zero_add _)

theorem SearchFinds.noEnt_iff {r : DirentSearch} (h : SearchFinds c (c.firstSlot name) r) :
    r.ret = -eNoEnt ↔ ∀ i ∈ c.slots, c.direntName i ≠ name := by
  have hnone : c.firstSlot name = none ↔ ∀ i ∈ c.slots, c.direntName i ≠ name := by
    simp [firstSlot, List.find?_eq_none]
  rw [← hnone]
  cases hf : c.firstSlot name with
  | none =>
    rw [hf] at h
    exact iff_of_true h.1 rfl
  | some i =>
    rw [hf] at h
    refine iff_of_false (fun hr => ?_) (fun hn => nomatch hn)
    exact absurd (h.1.symm.trans hr) (by decide)

/-- A directory whose inode is block 2: an empty slot in block 3, and the name `f` in block 4. -/
def smallDir : FileSys where
  ctx := {
    fs := {
      super := { magic := sfsMagic, blocks := 6, unusedBlocks := 1, info := fun _ => 0 }
      dev := {
        dBlocks := 6
        blk := fun b j => if b = 4 then if j = 0 then 5 else if j = 4 then 0x66 else 0 else 0
        ioRet := fun _ => 0
        ticks := 0 }
      freemap := { nbits := 32, nwords := 1, map := fun _ => 0x20#32 }
      superDirty := false
      sfsBuffer := fun _ => 0 }
    sin := {
      din := {
        size := 512, type := sfsTypeDir, nlinks := 1, blocks := 2
        direct := fun i => if i = 0 then 3 else if i = 1 then 4 else 0
        indirect := 0 }
      ino := 2, dirty := false, reclaimCount := 1, refCount := 1 } }
  files := [{ pid := 1, fd := 2, readable := true, writable := false, pos := 0 }]

theorem smallDir_lookup (i : Nat) : smallDir.ctx.lookup i = if i = 0 then 3 else if i = 1 then 4 else 0 := by
  unfold SfsCtx.lookup
  split
  · next h =>
    show (if (⟨i, h⟩ : Fin 12) = 0 then 3 else if (⟨i, h⟩ : Fin 12) = 1 then 4 else 0) = _
    simp only [Fin.ext_iff]
    rfl
  · have h0 : ¬ i = 0 := by omega
    have h1 : ¬ i = 1 := by omega
    rw [if_neg h0, if_neg h1]
    exact if_pos rfl

theorem smallDir_inv : FileInv smallDir.ctx ∅ := by
  have hentry : smallDir.ctx.slot .entryBlock = 0 := rfl
  have hdata (i : Fin 1036) : smallDir.ctx.slot (.data i) = if i.val = 0 then 3 else if i.val = 1 then 4 else 0 :=
    smallDir_lookup i
  refine ⟨⟨by decide, by decide, by decide, rfl, rfl, ?_, by decide⟩, fun t ht => ?_, fun t u htu ht => ?_,
    fun b hb => absurd hb (Set.notMem_empty b), fun t _ => Set.notMem_empty _, fun i hi => ?_, by decide⟩
  · intro i h6 h32
    have h : ∀ i, i < 32 → 6 ≤ i → smallDir.ctx.fs.freemap.bit i = false := by decide
    exact h i h32 h6
  · cases t with
    | entryBlock => exact absurd hentry ht
    | data i =>
      rw [hdata] at ht ⊢
      split
      · exact ⟨by decide, by decide, by decide⟩
      · split
        · exact ⟨by decide, by decide, by decide⟩
        · next h0 h1 => exact absurd (by rw [if_neg h0, if_neg h1]) ht
  · cases t with
    | entryBlock => exact absurd hentry ht
    | data i =>
      cases u with
      | entryBlock => exact absurd (htu.trans hentry) ht
      | data j =>
        rw [hdata] at ht
        rw [hdata, hdata] at htu
        congr 1
        apply Fin.ext
        clear hdata
        split_ifs at htu ht <;> omega
  · rw [smallDir_lookup]
    show _ ↔ i < 2
    split
    · omega
    · split <;> omega

end Ucore
