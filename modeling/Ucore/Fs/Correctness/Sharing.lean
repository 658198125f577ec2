import Ucore.Fs.File
import Ucore.Fs.Sfs.Correctness.Limit
import Ucore.Fs.Sfs.Correctness.Sync

/-!
# `Fs.Correctness.Sharing` — one file behind many descriptors

`file_seek` checks a position when it is set. Afterwards the file may get shorter behind it: another
descriptor truncates the file when it is opened, and a size that was counted twice has no blocks to go
with it. The next transfer at the old position then stops the machine. `FileCall.BehindEnd` is exactly this
situation; in every state that any run of calls leads to, a call outside it, and outside the two further
assertions of `FileCall.Ok`, returns.
-/

namespace Ucore

open SfsFs SfsCtx

/-! ## Calls through descriptors -/

/-- The calls of all processes; `other` is what other files and the device do in between, and `reload` what
    becomes of the inode when no descriptor is left. -/
inductive FileCall where
  | fileOpen (pid flags : Nat)
  | fileClose (pid fd : Nat)
  | fileSeek (pid fd : Nat) (pos : Int) (whence : Nat)
  | fileRead (pid fd : Nat) (buf : Bytes) (len : Nat)
  | fileWrite (pid fd : Nat) (buf : Bytes) (len : Nat)
  | other (s : SfsFs)
  | reload (c : SfsCtx)

/-- A sound regular file, whose inode block is one of the blocks that belong to others. -/
structure SfsCtx.Sound (c : SfsCtx) : Prop where
  inv : ∃ R, FileInv c R ∧ c.sin.ino ∈ R
  ino : c.sin.ino ≠ 0
  type : c.sin.din.type ≠ sfsTypeDir

namespace FileCall

def run : FileCall → FileM Unit
  | .fileOpen pid flags          => do
    let _ ← Ucore.fileOpen pid flags
  | .fileClose pid fd            => Ucore.fileClose pid fd
  | .fileSeek pid fd pos whence  => Ucore.fileSeek pid fd pos whence
  | .fileRead pid fd buf len     => do
    let _ ← Ucore.fileRead pid fd buf len
  | .fileWrite pid fd buf len    => do
    let _ ← Ucore.fileWrite pid fd buf len
  | .other s                     => Proc.modify fun f => { f with ctx := f.ctx.withFs s }
  | .reload c                    => Proc.modify fun f => { f with ctx := c }

/-- What a call is promised: `len` is a `size_t`; what happens in between leaves the file sound. -/
def Given (s : FileSys) : FileCall → Prop
  | .fileRead _ _ _ len  => len < 2 ^ 64
  | .fileWrite _ _ _ len => len < 2 ^ 64
  | .other t             => (s.ctx.withFs t).Sound
  | .reload c            => s.files = [] ∧ c.Sound
  | _                    => True

/-- The call returns, with or without an error. -/
def Returns (s : FileSys) (call : FileCall) : Prop :=
  ∃ s', call.run s = .ok () s' ∨ ∃ e, call.run s = .err e s'

/-- The call returns, with or without an error, and leaves `s'`. -/
def Step (s : FileSys) (call : FileCall) (s' : FileSys) : Prop :=
  call.Given s ∧ (call.run s = .ok () s' ∨ ∃ e, call.run s = .err e s')

/-- The transfer that a read or a write through the descriptor asks for, if it has any bytes. -/
def Transfers (s : FileSys) (pid fd len : Nat) (write : Bool) (f : File) : Prop :=
  s.files.find? (File.at pid fd) = some f ∧ (if write = true then f.writable else f.readable) = true ∧
    IoTransfers s.ctx f.pos len write

/-- The call is a transfer at a position behind the last block of the file. -/
def BehindEnd (s : FileSys) : FileCall → Prop
  | .fileRead pid fd _ len  => ∃ f, Transfers s pid fd len false f ∧ s.ctx.sin.din.blocks < f.pos.toNat / 4096
  | .fileWrite pid fd _ len => ∃ f, Transfers s pid fd len true f ∧ s.ctx.sin.din.blocks < f.pos.toNat / 4096
  | _                       => False

/-- A transfer keeps off the end of the block map, or does not get there for want of blocks. -/
def InMap (s : FileSys) (pid fd len : Nat) (write : Bool) : Prop :=
  ∀ f, Transfers s pid fd len write f → 1036 * 4096 < ioLimit s.ctx f.pos.toNat len write →
    s.ctx.fs.freemap.setBits < s.ctx.needAll 1036

/-- The two further assertions a call can run into: the end of the block map, and the fast path of
    `sfs_truncfile` on an empty file that has blocks. -/
def Ok (s : FileSys) : FileCall → Prop
  | .fileOpen _ flags          =>
    oTrunc flags = true ∨ oCreat flags = true → s.ctx.sin.din.size = 0 → s.ctx.sin.din.blocks = 0
  | .fileSeek pid fd pos whence =>
    ∀ f pos', s.files.find? (File.at pid fd) = some f → seekPos f s.ctx.sin.din.size pos whence = some pos' →
      0 ≤ pos' ∧ pos' < sfsMaxFileSize ∧ s.ctx.sin.din.size < pos' → 1036 * 4096 < pos'.toNat →
        s.ctx.fs.freemap.setBits < s.ctx.needAll 1036
  | .fileRead pid fd _ len     => InMap s pid fd len false
  | .fileWrite pid fd _ len    => InMap s pid fd len true
  | _                          => True

end FileCall

variable {s s' : FileSys} {c c' : SfsCtx} {R : Set Nat}

/-! ## Calls on the inode -/

theorem SfsCtx.Sound.keep (h : c.Sound) (hmem : c.sin.ino ∈ R) (hinv : FileInv c' R)
    (hino : c'.sin.ino = c.sin.ino) (htype : c'.sin.din.type = c.sin.din.type) : c'.Sound :=
  ⟨⟨R, hinv, hino ▸ hmem⟩, hino ▸ h.ino, htype ▸ h.type⟩

theorem ino_reach (c : SfsCtx) (n : Nat) : (c.reach n).sin.ino = c.sin.ino := by
  unfold SfsCtx.reach
  split <;> rfl

theorem SfsCtx.Sound.reach (h : c.Sound) (n : Nat) : (c.reach n).Sound := by
  obtain ⟨R, hR, hmem⟩ := h.inv
  exact h.keep hmem (hR.reach n) (ino_reach c n) (type_reach c n)

/-- The two assertions that can stop a transfer. -/
def TransferStops (c : SfsCtx) (offset : Int) (len : Nat) (write : Bool) (p : SfsPanic) : Prop :=
  p = .bmapLoadIndex ∧ c.sin.din.blocks < offset.toNat / 4096 ∨
    p = .indexOutOfRange ∧ 1036 * 4096 < ioLimit c offset.toNat len write ∧
      c.needAll 1036 ≤ c.fs.freemap.setBits

theorem SfsCtx.Sound.io (buf : Bytes) (offset : Int) {len : Nat} (write : Bool) (h : c.Sound) (hlen : len < 2 ^ 64) :
    (sfsIoNolock buf offset len write c).Ends Sound fun p =>
      IoTransfers c offset len write ∧ TransferStops c offset len write p := by
  obtain ⟨R, hR, hmem⟩ := h.inv
  by_cases ht : IoTransfers c offset len write
  · rcases sfsIoNolock_cases buf h.type ht rfl rfl with ⟨b, c₁, hd, hrun⟩ | ⟨a, b, c₁, c₂, e, hd, hl, hp, -, hrun⟩ |
      ⟨a, b, c₁, p, -, -, -, hrun⟩
    · have hg := hd.grown hR
      rw [hrun]
      exact (h.keep hmem hg.inv hg.ino hg.type).reach _
    · -- the rounds so far, and what the failed one has left
      have hg := hd.grown hR
      have hidx := hd.index_le hR hl (hd.start_le hp)
      have hkeep : c₂.sin.ino = c₁.sin.ino ∧ c₂.sin.din.type = c₁.sin.din.type := by
        rcases ioPiece_failed hg.inv hl hidx hp with ⟨s', rfl, -⟩ | ⟨-, hg', -⟩
        · exact ⟨rfl, rfl⟩
        · exact ⟨hg'.ino, hg'.type⟩
      rw [hrun]
      apply SfsCtx.Sound.reach
      exact h.keep hmem (ioPiece_inv hg.inv hl hidx hp) (hkeep.1.trans hg.ino) (hkeep.2.trans hg.type)
    · have hpanic := sfsIoNolock_panic hR h.type hlen hrun
      rw [hrun]
      refine ⟨ht, hpanic.2.imp id fun hp => ?_⟩
      exact ⟨hp.1, hp.2.1, hp.2.2.2⟩
  · obtain ⟨ret, hrun, -⟩ := sfsIoNolock_idle buf h.type hlen ht
    rw [hrun]
    exact h

/-- The two assertions that can stop a truncation. -/
def TruncStops (c : SfsCtx) (len : Int) (p : SfsPanic) : Prop :=
  (0 ≤ len ∧ len ≤ sfsMaxFileSize) ∧
    (p = .truncfileSame ∧ c.sin.din.size = len.toNat ∧ blocksFor len.toNat ≠ c.sin.din.blocks ∨
      p = .indexOutOfRange ∧ c.sin.din.size ≠ len.toNat ∧ 1036 < blocksFor len.toNat ∧
        c.needAll 1036 ≤ c.fs.freemap.setBits)

theorem SfsCtx.Sound.setSize (h : c.Sound) (n : Nat) : (c.setSize n).Sound := by
  obtain ⟨R, hR, hmem⟩ := h.inv
  exact h.keep hmem (hR.setSize n) rfl rfl

theorem SfsCtx.Sound.truncfile (h : c.Sound) (len : Int) : (sfsTruncfile len c).Ends Sound (TruncStops c len) := by
  obtain ⟨R, hR, hmem⟩ := h.inv
  have hshrunk : ∀ {c'}, Shrunk R c c' → c'.Sound := fun hg => h.keep hmem hg.inv hg.ino hg.type
  have hgrown : ∀ {c'}, Grown R c c' → c'.Sound := fun hg => h.keep hmem hg.inv hg.ino hg.type
  by_cases hbad : len < 0 ∨ (sfsMaxFileSize : Int) < len
  · rw [sfsTruncfile_invalid hbad]
    exact h
  by_cases hs : c.sin.din.size = len.toNat
  · rw [sfsTruncfile_same hbad hs]
    split
    · exact h
    · next hne => exact ⟨by omega, Or.inl ⟨rfl, hs, hne⟩⟩
  by_cases hlt : c.sin.din.blocks < blocksFor len.toNat
  · rcases sfsTruncfile_grow hR hbad hs hlt with ⟨c', hg, -, hrun⟩ | ⟨e, c', hf, hrun⟩ | ⟨hgt, hroom, hrun⟩
    · rw [hrun]
      exact (hgrown hg).setSize _
    · -- the blocks that were loaded before the failing one stay
      obtain ⟨c₁, s', hg, -, hf, rfl, -⟩ := hf
      rw [hrun]
      exact h.keep hmem (hf.inv hg.inv) hg.ino hg.type
    · rw [hrun]
      exact ⟨by omega, Or.inr ⟨rfl, hs, hgt, hroom⟩⟩
  · rcases sfsTruncfile_shrink hR hbad hs hlt with ⟨c', hg, -, hrun⟩ | ⟨e, c', hg, -, -, -, -, hrun⟩
    · rw [hrun]
      exact (hshrunk hg).setSize _
    · rw [hrun]
      exact hshrunk hg

theorem SfsCtx.Sound.tryseek (h : c.Sound) (pos : Int) : (sfsTryseek pos c).Ends Sound fun p =>
    (0 ≤ pos ∧ pos < sfsMaxFileSize ∧ c.sin.din.size < pos) ∧ TruncStops c pos p := by
  rw [sfsTryseek_run]
  split
  · next hext => exact (h.truncfile pos).imp (fun _ hs => hs) fun p hp => ⟨hext, hp⟩
  · split
    · exact h
    · exact h

theorem SfsCtx.Sound.inUse (h : c.Sound) : c.fs.InUse c.sin.ino := by
  obtain ⟨R, hR, hmem⟩ := h.inv
  exact (hR.reserved _ hmem).resolve_left h.ino

theorem SfsCtx.Sound.fsync (h : c.Sound) : (sfsFsync c).Ends Sound fun _ => False := by
  obtain ⟨R, hR, hmem⟩ := h.inv
  rcases sfsFsync_cases hR.ready h.inUse with ⟨-, hrun⟩ | ⟨-, k, x, hrun | ⟨e, -, -, hrun⟩⟩
  · rw [hrun]
    exact h
  · have hset : FileInv c.synced R := (@FileInv.congr _ c.synced R (hR.setOther hmem) (.refl hR.ready.setBlk) rfl rfl rfl)
    rw [hrun]
    exact h.keep hmem hset.scratch rfl rfl
  · rw [hrun]
    exact h.keep hmem hR.scratch rfl rfl

/-! ## One call -/

namespace FileCall

/-- The assertions that can stop a call. -/
def Stops (s : FileSys) (p : SfsPanic) : FileCall → Prop
  | .fileOpen _ flags           => (oTrunc flags = true ∨ oCreat flags = true) ∧ TruncStops s.ctx 0 p
  | .fileSeek pid fd pos whence => ∃ f pos', s.files.find? (File.at pid fd) = some f ∧
      seekPos f s.ctx.sin.din.size pos whence = some pos' ∧
      (0 ≤ pos' ∧ pos' < sfsMaxFileSize ∧ s.ctx.sin.din.size < pos') ∧ TruncStops s.ctx pos' p
  | .fileRead pid fd _ len      => ∃ f, Transfers s pid fd len false f ∧ TransferStops s.ctx f.pos len false p
  | .fileWrite pid fd _ len     => ∃ f, Transfers s pid fd len true f ∧ TransferStops s.ctx f.pos len true p
  | _                           => False

end FileCall

/-- The file behind the descriptors is sound. -/
def FileSys.Sound (s : FileSys) : Prop := s.ctx.Sound

theorem onCtx_ends {α : Type} {x : SinM α} {P : SfsPanic → Prop} (h : (x s.ctx).Ends SfsCtx.Sound P) :
    (onCtx x s).Ends FileSys.Sound P :=
  Outcome.Ends.zoom (h.imp (fun _ hc => hc) fun _ hp => hp)

theorem inodeOpenDec_ends (P : SfsPanic → Prop) (h : s.Sound) : (inodeOpenDec s).Ends FileSys.Sound P := by
  unfold inodeOpenDec
  rw [Proc.get_bind]
  split
  · refine Outcome.Ends.bind ?_ fun _ _ _ hs => hs
    exact Outcome.Ends.attempt (onCtx_ends (h.fsync.imp (fun _ hc => hc) fun _ => False.elim))
  · exact h

theorem vfsOpen_ends (flags : Nat) (canWrite : Bool) (h : s.Sound) : (vfsOpen flags canWrite s).Ends FileSys.Sound
    fun p => (oTrunc flags = true ∨ oCreat flags = true) ∧ TruncStops s.ctx 0 p := by
  unfold vfsOpen
  split
  · exact h
  · split
    · exact h
    · split
      · next ht =>
        apply Outcome.Ends.onErr
        · exact onCtx_ends ((h.truncfile 0).imp (fun _ hc => hc) fun p hp => ⟨ht, hp⟩)
        · exact fun s' hs => inodeOpenDec_ends _ hs
      · exact h

theorem fdArrayAlloc_ends (pid : Nat) (s : FileSys) : (fdArrayAlloc pid s).Ends (· = s) fun _ => False := by
  unfold fdArrayAlloc
  rw [Proc.get_bind]
  cases (List.range filesStructNentry).find? fun fd => !s.files.any (File.at pid fd) with
  | none => exact rfl
  | some fd => exact rfl

theorem fd2file_run (pid fd : Nat) (s : FileSys) : fd2file pid fd s =
    match s.files.find? (File.at pid fd) with
    | some file => .ok file s
    | none      => .err (-eInval) s := by
  unfold fd2file
  rw [Proc.get_bind]
  cases s.files.find? (File.at pid fd) with
  | none => rfl
  | some file => rfl

theorem fileOpen_ends (pid flags : Nat) (h : s.Sound) : (fileOpen pid flags s).Ends FileSys.Sound
    fun p => (oTrunc flags = true ∨ oCreat flags = true) ∧ TruncStops s.ctx 0 p := by
  unfold fileOpen
  cases oAccmode flags with
  | none => exact h
  | some mode =>
    obtain ⟨readable, writable⟩ := mode
    have hfd := fdArrayAlloc_ends pid s
    refine Outcome.Ends.bind (hfd.imp (fun _ hs => hs ▸ h) fun _ => False.elim) fun fd s₁ hrun _ => ?_
    obtain rfl := hfd.of_ok hrun
    exact Outcome.Ends.bind (vfsOpen_ends flags writable h) fun _ s' _ hs' => hs'

theorem fileClose_ends (pid fd : Nat) (P : SfsPanic → Prop) (h : s.Sound) :
    (fileClose pid fd s).Ends FileSys.Sound P := by
  unfold fileClose
  rw [Proc.bind_run, fd2file_run]
  cases s.files.find? (File.at pid fd) with
  | none => exact h
  | some f =>
    show (_ >>= _ : FileM Unit) s |>.Ends _ _
    rw [Proc.modify_bind]
    exact inodeOpenDec_ends P h

/-- A read or a write through a descriptor. -/
theorem fileIo_ends {buf : Bytes} {len : Nat} {write : Bool} (pid fd : Nat) (h : s.Sound) (hlen : len < 2 ^ 64) :
    (fileIo pid fd buf len write s).Ends FileSys.Sound fun p =>
      ∃ f, FileCall.Transfers s pid fd len write f ∧ TransferStops s.ctx f.pos len write p := by
  unfold fileIo
  rw [Proc.bind_run, fd2file_run]
  cases hf : s.files.find? (File.at pid fd) with
  | none => exact h
  | some f =>
    dsimp only
    by_cases hmode : (if write = true then f.writable else f.readable) = false
    · rw [if_pos hmode]
      exact h
    · rw [if_neg hmode]
      refine Outcome.Ends.bind (onCtx_ends ((h.io buf f.pos write hlen).imp (fun _ hc => hc) fun p hp => ?_))
        fun r s' _ hs' => ?_
      · exact ⟨f, ⟨hf, Bool.of_not_eq_false hmode, hp.1⟩, hp.2⟩
      · exact hs'

theorem fileSeek_ends (pid fd : Nat) (pos : Int) (whence : Nat) (h : s.Sound) :
    (fileSeek pid fd pos whence s).Ends FileSys.Sound fun p => FileCall.Stops s p (.fileSeek pid fd pos whence) := by
  unfold fileSeek
  rw [Proc.bind_run, fd2file_run]
  cases hf : s.files.find? (File.at pid fd) with
  | none => exact h
  | some f =>
    dsimp only
    rw [Proc.get_bind]
    cases hpos : seekPos f s.ctx.sin.din.size pos whence with
    | none => exact h
    | some pos' =>
      refine Outcome.Ends.bind (onCtx_ends ((h.tryseek pos').imp (fun _ hc => hc) fun p hp => ?_)) fun _ s' _ hs' => hs'
      exact ⟨f, pos', hf, hpos, hp⟩

namespace FileCall

/-- **One call.** It leaves the file sound, or one of its assertions stops it. -/
theorem run_ends {call : FileCall} (h : s.Sound) (hg : call.Given s) :
    (call.run s).Ends FileSys.Sound fun p => call.Stops s p := by
  cases call with
  | fileOpen pid flags => exact Outcome.Ends.bind (fileOpen_ends pid flags h) fun _ _ _ hs => hs
  | fileClose pid fd => exact fileClose_ends pid fd _ h
  | fileSeek pid fd pos whence => exact fileSeek_ends pid fd pos whence h
  | fileRead pid fd buf len => exact Outcome.Ends.bind (fileIo_ends pid fd h hg) fun _ _ _ hs => hs
  | fileWrite pid fd buf len => exact Outcome.Ends.bind (fileIo_ends pid fd h hg) fun _ _ _ hs => hs
  | other t => exact hg
  | reload c => exact hg.2

/-- Between calls the file is sound, whatever was called before. -/
theorem sound_of_reaches {ok : FileSys → FileCall → Prop}
    (h : Reaches (fun s => s.Sound ∧ s.files = []) Step ok s) : s.Sound := by
  refine h.invariant (fun _ h0 => h0.1) fun s call s' hs _ hstep => ?_
  obtain ⟨hg, hrun | ⟨e, hrun⟩⟩ := hstep
  · exact (run_ends hs hg).of_ok hrun
  · exact (run_ends hs hg).of_err hrun

/-! ## The assertion -/

theorem Transfers.unique {pid fd len : Nat} {write : Bool} {f g : File} (h : Transfers s pid fd len write f)
    (h' : Transfers s pid fd len write g) : f = g :=
  Option.some.inj (h.1.symm.trans h'.1)

theorem TransferStops.resolve {f : File} {pid fd len : Nat} {write : Bool} {p : SfsPanic}
    (hf : Transfers s pid fd len write f) (h : TransferStops s.ctx f.pos len write p)
    (hb : ¬ ∃ f, Transfers s pid fd len write f ∧ s.ctx.sin.din.blocks < f.pos.toNat / 4096)
    (hok : InMap s pid fd len write) : False := by
  rcases h with ⟨-, hgt⟩ | ⟨-, hend, hroom⟩
  · exact hb ⟨f, hf, hgt⟩
  · exact absurd (hok f hf hend) (Nat.not_lt.mpr hroom)

/-- A call at a position within the file, that keeps off the other two assertions, is not stopped. -/
theorem Stops.absurd {call : FileCall} {p : SfsPanic} (h : call.Stops s p) (hb : ¬ call.BehindEnd s)
    (hok : call.Ok s) : False := by
  cases call with
  | fileOpen pid flags =>
    obtain ⟨ht, -, ⟨-, hs, hne⟩ | ⟨-, -, hgt, -⟩⟩ := h
    · exact hne (hok ht hs).symm
    · exact Nat.not_lt_zero _ (blocksFor_gt.mp hgt)
  | fileSeek pid fd pos whence =>
    obtain ⟨f, pos', hf, hpos, hext, -, ⟨-, hs, -⟩ | ⟨-, -, hgt, hroom⟩⟩ := h
    · omega
    · exact Nat.not_lt.mpr hroom (hok f pos' hf hpos hext (blocksFor_gt.mp hgt))
  | fileRead pid fd buf len =>
    obtain ⟨f, hf, hstops⟩ := h
    exact TransferStops.resolve hf hstops hb hok
  | fileWrite pid fd buf len =>
    obtain ⟨f, hf, hstops⟩ := h
    exact TransferStops.resolve hf hstops hb hok
  | fileClose pid fd => exact h
  | other t => exact h
  | reload c => exact h

/-- A call that runs into the assertion of `sfs_bmap_load_nolock` is a transfer behind the end of the file. -/
theorem Stops.behindEnd {call : FileCall} (h : call.Stops s .bmapLoadIndex) : call.BehindEnd s := by
  cases call with
  | fileOpen pid flags => obtain ⟨-, -, ⟨hp, -⟩ | ⟨hp, -⟩⟩ := h <;> cases hp
  | fileSeek pid fd pos whence => obtain ⟨_, _, -, -, -, -, ⟨hp, -⟩ | ⟨hp, -⟩⟩ := h <;> cases hp
  | fileRead pid fd buf len =>
    obtain ⟨f, hf, ⟨-, hgt⟩ | ⟨hp, -⟩⟩ := h
    · exact ⟨f, hf, hgt⟩
    · cases hp
  | fileWrite pid fd buf len =>
    obtain ⟨f, hf, ⟨-, hgt⟩ | ⟨hp, -⟩⟩ := h
    · exact ⟨f, hf, hgt⟩
    · cases hp
  | fileClose pid fd => exact h
  | other t => exact h
  | reload c => exact h

end FileCall

/-- A transfer behind the end of the file stops the machine. -/
theorem fileIo_behind {f : File} {pid fd len : Nat} {write : Bool} (buf : Bytes) (h : s.Sound)
    (hf : FileCall.Transfers s pid fd len write f) (hgt : s.ctx.sin.din.blocks < f.pos.toNat / 4096) :
    fileIo pid fd buf len write s = .panic .bmapLoadIndex := by
  obtain ⟨hfind, hmode, ht⟩ := hf
  unfold fileIo
  rw [Proc.bind_run, fd2file_run, hfind]
  dsimp only
  rw [if_neg (by rw [hmode]; exact Bool.noConfusion)]
  exact Proc.bind_panic (Proc.zoom_panic (sfsIoNolock_behind h.type ht hgt))

/-- `emptyFile`, which nobody has opened. -/
def closedFile : FileSys := { ctx := emptyFile, files := [] }

theorem closedFile_sound : closedFile.Sound := by
  have h := emptyFile_inv
  have hino : emptyFile.fs.InUse 2 := ⟨by decide, by decide, by decide⟩
  refine ⟨⟨{2}, ⟨h.ready, h.use, h.inj, ?_, fun t ht => absurd (emptyFile_slot t) ht, h.dense, h.blocks_le⟩, rfl⟩,
    by decide, by decide⟩
  rintro _ rfl
  exact Or.inr hino

end Ucore
