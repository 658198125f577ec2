import Ucore.Fs.Sfs.Correctness.IoSize
import Ucore.Fs.Sfs.Correctness.Trunc
import Ucore.Fs.Sfs.Correctness.Xfers
import Ucore.Lib.Run

/-!
# `Fs.Sfs.Correctness.SizeBlocks` — the size of a file and the number of its blocks

`din->blocks` and `din->size` are set in different places: `sfs_bmap_load_nolock` counts a block when it is
mapped, and the size follows at the end of a call. `SizeFits` says that they agree. It is lost in three
ways, and `FileOp.Ok` is a call that takes none of them: the double count of `sfs_io_nolock`
(`ioStepped`), a transfer that fails after it has mapped blocks, and a truncation that fails half way.
-/

namespace Ucore

open SfsFs SfsCtx

variable {c c' : SfsCtx} {R : Set Nat} {offset : Int} {len : Nat} {write : Bool} {buf : Bytes}

/-! ## Calls on one file -/

/-- The operations on a regular file, and `other`: what other files and the device do in between. -/
inductive FileOp where
  | read (buf : Bytes) (offset : Int) (len : Nat)
  | write (buf : Bytes) (offset : Int) (len : Nat)
  | tryseek (pos : Int)
  | truncfile (len : Int)
  | other (s : SfsFs)

namespace FileOp

/-- A transfer whose result nobody looks at: it returns with its error code in the result. -/
def io (buf : Bytes) (offset : Int) (len : Nat) (write : Bool) : SinM Unit := do
  let _ ← sfsIoNolock buf offset len write

def run : FileOp → SinM Unit
  | .read buf offset len  => io buf offset len false
  | .write buf offset len => io buf offset len true
  | .tryseek pos          => sfsTryseek pos
  | .truncfile len        => sfsTruncfile len
  | .other s              => Proc.modify fun c => c.withFs s

/-- What a call is promised: `len` is a `size_t`, and other files keep out of the blocks of this one. -/
def Given (c : SfsCtx) : FileOp → Prop
  | .read _ _ len  => len < 2 ^ 64
  | .write _ _ len => len < 2 ^ 64
  | .tryseek _     => True
  | .truncfile _   => True
  | .other s       => ∃ R, FileInv (c.withFs s) R

/-- The call returns, with or without an error, and leaves `c'`. -/
def Step (c : SfsCtx) (op : FileOp) (c' : SfsCtx) : Prop :=
  op.Given c ∧ (op.run c = .ok () c' ∨ ∃ e, op.run c = .err e c')

end FileOp

/-- The number of blocks is the one the size asks for. -/
structure SizeFits (c : SfsCtx) : Prop where
  inv : ∃ R, FileInv c R
  type : c.sin.din.type ≠ sfsTypeDir
  fits : c.sin.din.blocks = blocksFor c.sin.din.size

/-! ## The condition -/

/-- The growth to `t` blocks goes through, or its first step fails. -/
def SfsCtx.GrowsTo (c : SfsCtx) (t : Nat) : Prop := c.fs.Healthy ∧ c.needAll t ≤ c.fs.freemap.setBits

/-- A transfer of `[start, endpos)` leaves size and blocks in agreement. Either the bytes counted twice stay
    within the last block, and the new blocks are all there; or the first new block is refused right at the
    start; or the device fails before there is a new block. -/
def SfsCtx.IoFits (c : SfsCtx) (write : Bool) (start endpos : Nat) : Prop :=
  blocksFor (endpos + ioStepped start endpos) ≤ max c.sin.din.blocks (blocksFor endpos) ∧
      (blocksFor endpos ≤ c.sin.din.blocks ∨ c.GrowsTo (blocksFor endpos)) ∨
    start = 4096 * c.sin.din.blocks ∧ c.GetFails c.sin.din.blocks ∨ c.StopsEarly write start endpos

/-- A truncation to `n` bytes leaves size and blocks in agreement: it goes through, or its first block step
    fails. -/
def SfsCtx.TruncFits (c : SfsCtx) (n : Nat) : Prop :=
  if c.sin.din.blocks < blocksFor n then c.GrowsTo (blocksFor n) ∨ c.GetFails c.sin.din.blocks
  else c.fs.Healthy ∨ c.sin.din.blocks ≤ 12 ∨ c.sin.din.blocks = blocksFor n ∨
    c.FreeFails (c.sin.din.blocks - 1)

def FileOp.IoOk (c : SfsCtx) (offset : Int) (len : Nat) (write : Bool) : Prop :=
  IoTransfers c offset len write → c.IoFits write offset.toNat (ioLimit c offset.toNat len write)

/-- The condition on a call. -/
def FileOp.Ok (c : SfsCtx) : FileOp → Prop
  | .read _ offset len  => FileOp.IoOk c offset len false
  | .write _ offset len => FileOp.IoOk c offset len true
  | .tryseek pos        => pos < 0 ∨ (sfsMaxFileSize : Int) ≤ pos ∨ pos ≤ c.sin.din.size ∨ c.TruncFits pos.toNat
  | .truncfile len      =>
    len < 0 ∨ (sfsMaxFileSize : Int) < len ∨ c.sin.din.size = len.toNat ∨ c.TruncFits len.toNat
  | .other _            => True

/-! ## Transfers -/

theorem blocksFor_eq (n : Nat) : blocksFor n = (n + 4095) / 4096 := by
  unfold blocksFor roundupDiv sfsBlksize
  omega

theorem blocksFor_mono {m n : Nat} (h : m ≤ n) : blocksFor m ≤ blocksFor n := by
  rw [blocksFor_eq, blocksFor_eq]
  omega

theorem blocks_reach (c : SfsCtx) (n : Nat) : (c.reach n).sin.din.blocks = c.sin.din.blocks := by
  unfold SfsCtx.reach
  split <;> rfl

theorem type_reach (c : SfsCtx) (n : Nat) : (c.reach n).sin.din.type = c.sin.din.type := by
  unfold SfsCtx.reach
  split <;> rfl

/-- The label `out` on a file whose blocks are settled. -/
theorem sizeFits_reach {n : Nat} (hinv : FileInv c' R) (htype : c'.sin.din.type ≠ sfsTypeDir)
    (hb : c'.sin.din.blocks = max (blocksFor c'.sin.din.size) (blocksFor n)) : SizeFits (c'.reach n) := by
  refine ⟨⟨R, hinv.reach n⟩, ?_, ?_⟩
  · rw [type_reach]
    exact htype
  · rw [blocks_reach, size_reach, hb, blocksFor_eq, blocksFor_eq, blocksFor_eq]
    omega

/-- The label `out` on an inode that is as it was. -/
theorem SizeFits.reach_of_sin {n : Nat} (h : SizeFits c) (hinv : FileInv c' R) (hsin : c'.sin = c.sin)
    (hn : blocksFor n ≤ c.sin.din.blocks) : SizeFits (c'.reach n) := by
  have hfit := h.fits
  apply sizeFits_reach hinv
  · rw [hsin]
    exact h.type
  · rw [hsin]
    omega

section Io

variable {start endpos a : Nat} {b : Bytes} {c₁ c₂ : SfsCtx} {e : Int}

/-- After all rounds the file has the blocks up to the end of the transfer. -/
theorem IoDone.blocks_end (h : FileInv c R) (hlt : start < endpos)
    (hd : IoDone write start endpos buf c (endpos - start) b c') :
    c'.sin.din.blocks = max c.sin.din.blocks (blocksFor endpos) := by
  have hsum : start + (endpos - start) = endpos := by omega
  rw [hd.blocks h, if_neg (by omega), hsum, blocksFor_eq]

/-- Unless nothing is done yet, the first index was loaded. -/
theorem IoDone.first (hd : IoDone write start endpos buf c a b c') :
    a = 0 ∧ b = buf ∧ c' = c ∨ 0 < a ∧ ∃ ino c₁, sfsBmapLoadNolock (start / 4096) c = .ok ino c₁ := by
  induction hd with
  | start => exact Or.inl ⟨rfl, rfl, rfl⟩
  | next hd hlt hp ih =>
    have hpos := pieceSize_pos hlt
    refine Or.inr ⟨by omega, ?_⟩
    rcases ih with ⟨rfl, rfl, rfl⟩ | ⟨-, hload⟩
    · unfold ioPiece at hp
      obtain ⟨ino, c₁, hload, -⟩ := Proc.bind_eq_ok.mp hp
      exact ⟨ino, c₁, hload⟩
    · exact hload

/-- A transfer that fails has started within the file, or right behind it. -/
theorem IoDone.start_le (hd : IoDone write start endpos buf c a b c₁)
    (hp : ioPiece write start endpos a b c₁ = .err e c₂) : start / 4096 ≤ c.sin.din.blocks := by
  by_contra hgt
  have hbeyond := sfsBmapLoadNolock_beyond (Nat.lt_of_not_le hgt)
  rcases hd.first with ⟨rfl, rfl, rfl⟩ | ⟨-, ino, c₃, hload⟩
  · unfold ioPiece at hp
    have hbeyond' : sfsBmapLoadNolock ((start + 0) / 4096) c₁ = .panic .bmapLoadIndex := hbeyond
    rw [Proc.bind_panic hbeyond'] at hp
    cases hp
  · rw [hbeyond] at hload
    cases hload

theorem ioPiece_inv (h : FileInv c R) (hlt : start + a < endpos) (hib : (start + a) / 4096 ≤ c.sin.din.blocks)
    (hp : ioPiece write start endpos a buf c = .err e c') : FileInv c' R := by
  rcases ioPiece_failed h hlt hib hp with ⟨s', rfl, hf, -⟩ | ⟨-, hg, -⟩
  · exact hf.inv h
  · exact hg.inv

/-- A transfer that fails in a round whose block the file has. -/
theorem SizeFits.stopped (h : SizeFits c) (hd : IoDone write start endpos buf c a b c₁) (hlt : start + a < endpos)
    (hp : ioPiece write start endpos a b c₁ = .err e c₂) (hi : (start + a) / 4096 < c.sin.din.blocks)
    (hn : blocksFor (start + a + a) ≤ c.sin.din.blocks) : SizeFits (c₂.reach (start + a + a)) := by
  obtain ⟨R, hinv⟩ := h.inv
  have hs := (hd.quiet hlt (Nat.le_of_lt hi)).2.2
  have hinv₁ := (hd.grown hinv).inv
  have hi₁ : (start + a) / 4096 < c₁.sin.din.blocks := hs ▸ hi
  apply h.reach_of_sin (ioPiece_inv hinv₁ hlt (Nat.le_of_lt hi₁) hp) ?_ hn
  rcases ioPiece_failed hinv₁ hlt (Nat.le_of_lt hi₁) hp with ⟨s', rfl, -⟩ | ⟨-, -, -, hsame⟩
  · exact hs
  · exact (hsame hi₁).trans hs

/-- A transfer that is refused its first block. -/
theorem SizeFits.refused (h : SizeFits c) (hd : IoDone write start endpos buf c a b c₁) (hlt : start + a < endpos)
    (hp : ioPiece write start endpos a b c₁ = .err e c₂) (hs : start = 4096 * c.sin.din.blocks)
    (hf : c.GetFails c.sin.din.blocks) : SizeFits (c₂.reach (start + a + a)) := by
  obtain ⟨R, hinv⟩ := h.inv
  have hblk : start / 4096 = c.sin.din.blocks := by omega
  have hload : ∀ ino c', sfsBmapLoadNolock (start / 4096) c ≠ .ok ino c' := fun ino c' hl =>
    (sfsBmapLoadNolock_post.of_ok hl hblk).1 (hblk ▸ hf)
  rcases hd.first with ⟨rfl, rfl, rfl⟩ | ⟨-, ino, c', hl⟩
  · apply h.reach_of_sin (ioPiece_inv hinv hlt (Nat.le_of_eq hblk) hp)
    · unfold ioPiece at hp
      rcases Proc.bind_eq_err.mp hp with hl | ⟨ino, c', hl, -⟩
      · exact sfsBmapLoadNolock_err hl
      · exact absurd hl (hload ino c')
    · rw [blocksFor_eq]
      omega
  · exact absurd hl (hload ino c')

/-- **A transfer under the condition.** -/
theorem sizeFits_io {r : IoResult} (h : SizeFits c) (ht : IoTransfers c offset len write)
    (hstart : offset.toNat = start) (hend : ioLimit c start len write = endpos)
    (hok : c.IoFits write start endpos) (hrun : sfsIoNolock buf offset len write c = .ok r c') : SizeFits c' := by
  obtain ⟨R, hinv⟩ := h.inv
  have hfit := h.fits
  have hlt : start < endpos := by
    rw [← hend, ← hstart]
    exact ht.2.2.2
  rcases sfsIoNolock_cases buf h.type ht hstart hend with
    ⟨b, c₁, hd, hrun'⟩ | ⟨a, b, c₁, c₂, e, hd, hl, hp, he, hrun'⟩ | ⟨a, b, c₁, p, -, -, -, hrun'⟩
  · -- all rounds went through
    rw [hrun, Outcome.ok.injEq] at hrun'
    obtain ⟨-, rfl⟩ := hrun'
    have hg := hd.grown hinv
    have hb := hd.blocks_end hinv hlt
    apply sizeFits_reach hg.inv (hg.type ▸ h.type)
    rw [hb, hg.size, ← hfit]
    rcases hok with ⟨hcount, -⟩ | ⟨hs, hf⟩ | hstop
    · have hmono : blocksFor endpos ≤ blocksFor (endpos + ioStepped start endpos) := blocksFor_mono (by omega)
      omega
    · -- the first load cannot have gone through
      rcases hd.first with ⟨h0, -⟩ | ⟨-, ino, c₂, hload⟩
      · omega
      · have hblk : start / 4096 = c.sin.din.blocks := by omega
        exact absurd (hblk ▸ hf) (sfsBmapLoadNolock_post.of_ok hload hblk).1
    · have := (hstop.le hd).2.2
      omega
  · -- round `a` failed
    rw [hrun, Outcome.ok.injEq] at hrun'
    obtain ⟨-, rfl⟩ := hrun'
    rcases hok with ⟨hcount, hb | hg⟩ | ⟨hs, hf⟩ | hstop
    · have hstep := hd.le_stepped hl
      have hmono : blocksFor (start + a + a) ≤ blocksFor (endpos + ioStepped start endpos) :=
        blocksFor_mono (by omega)
      have hidx : (start + a) / 4096 < c.sin.din.blocks := by
        rw [blocksFor_eq] at hb
        omega
      exact h.stopped hd hl hp hidx (by omega)
    · have hidx : (start + a) / 4096 < blocksFor endpos := by
        rw [blocksFor_eq]
        omega
      exact absurd hp (hd.not_err hinv hl (hd.start_le hp) hg.1 (fun _ => hidx) hg.2)
    · exact h.refused hd hl hp hs hf
    · obtain ⟨hcount, hidx, -⟩ := hstop.le hd
      refine h.stopped hd hl hp hidx ?_
      rw [blocksFor_eq]
      omega
  · rw [hrun] at hrun'
    cases hrun'

end Io

/-! ## Truncation -/

theorem SizeFits.of_sin (h : SizeFits c) (hinv : FileInv c' R) (hsin : c'.sin = c.sin) : SizeFits c' := by
  refine ⟨⟨R, hinv⟩, ?_, ?_⟩
  · rw [hsin]
    exact h.type
  · rw [hsin]
    exact h.fits

theorem sizeFits_setSize {n : Nat} (hinv : FileInv c R) (htype : c.sin.din.type ≠ sfsTypeDir)
    (hb : c.sin.din.blocks = blocksFor n) : SizeFits (c.setSize n) :=
  ⟨⟨R, hinv.setSize n⟩, htype, hb⟩

/-- A growth that stops has failed in its first step. -/
theorem SizeFits.growFailed {t : Nat} {e : Int} (h : SizeFits c) (hf : GrowFailed R c t e c')
    (hok : c.GrowsTo t ∨ c.GetFails c.sin.din.blocks) : SizeFits c' := by
  rcases hok with hg | hget
  · exact absurd (hf.absurd hg.1 hg.2) id
  · have hinv := hf.inv
    obtain ⟨c₁, s', -, -, -, rfl, -, rfl | hno⟩ := hf
    · exact h.of_sin hinv rfl
    · exact absurd hget hno

/-- **A truncation under the condition.** -/
theorem sizeFits_truncfile {len : Int} (h : SizeFits c)
    (hok : len < 0 ∨ (sfsMaxFileSize : Int) < len ∨ c.sin.din.size = len.toNat ∨ c.TruncFits len.toNat)
    (hrun : sfsTruncfile len c = .ok () c' ∨ ∃ e, sfsTruncfile len c = .err e c') : SizeFits c' := by
  obtain ⟨R, hinv⟩ := h.inv
  by_cases hbad : len < 0 ∨ (sfsMaxFileSize : Int) < len
  · rw [sfsTruncfile_invalid hbad] at hrun
    rcases hrun with hrun | ⟨e, hrun⟩ <;> cases hrun
    exact h
  by_cases hs : c.sin.din.size = len.toNat
  · have hfit : blocksFor len.toNat = c.sin.din.blocks := by
      rw [← hs]
      exact h.fits.symm
    rw [sfsTruncfile_same hbad hs, if_pos hfit] at hrun
    rcases hrun with hrun | ⟨e, hrun⟩ <;> cases hrun
    exact h
  have hfits : c.TruncFits len.toNat := by
    rcases hok with h0 | hmax | hsame | hfits
    · exact absurd (Or.inl h0) hbad
    · exact absurd (Or.inr hmax) hbad
    · exact absurd hsame hs
    · exact hfits
  unfold SfsCtx.TruncFits at hfits
  by_cases hlt : c.sin.din.blocks < blocksFor len.toNat
  · rw [if_pos hlt] at hfits
    rcases sfsTruncfile_grow hinv hbad hs hlt with ⟨c₁, hg, hb, hrun'⟩ | ⟨e, c₁, hf, hrun'⟩ | ⟨-, -, hrun'⟩ <;>
      rw [hrun'] at hrun <;> rcases hrun with hrun | ⟨e', hrun⟩ <;> cases hrun
    · exact sizeFits_setSize hg.inv (hg.type ▸ h.type) hb
    · exact h.growFailed hf hfits
  · rw [if_neg hlt] at hfits
    rcases sfsTruncfile_shrink hinv hbad hs hlt with ⟨c₁, hg, hb, hrun'⟩ | ⟨e, c₁, hg, hn, hgt, hne, hsin, hrun'⟩ <;>
      rw [hrun'] at hrun <;> rcases hrun with hrun | ⟨e', hrun⟩ <;> cases hrun
    · exact sizeFits_setSize hg.inv (hg.type ▸ h.type) hb
    · refine h.of_sin hg.inv (hsin.resolve_right fun hno => ?_)
      rcases hfits with hh | h12 | hsame | hfirst
      · exact hn hh
      · omega
      · omega
      · exact hno hfirst

theorem sizeFits_tryseek {pos : Int} (h : SizeFits c) (hok : FileOp.Ok c (.tryseek pos))
    (hrun : sfsTryseek pos c = .ok () c' ∨ ∃ e, sfsTryseek pos c = .err e c') : SizeFits c' := by
  rw [sfsTryseek_run] at hrun
  by_cases hext : 0 ≤ pos ∧ pos < sfsMaxFileSize ∧ c.sin.din.size < pos
  · rw [if_pos hext] at hrun
    refine sizeFits_truncfile h (Or.inr (Or.inr (Or.inr ?_))) hrun
    rcases hok with h0 | hmax | hle | hfits
    · omega
    · omega
    · omega
    · exact hfits
  · rw [if_neg hext] at hrun
    split at hrun <;> rcases hrun with hrun | ⟨e, hrun⟩ <;> cases hrun <;> exact h

/-! ## Whole runs -/

/-- A call of `sfs_io_nolock` under the condition, whether or not it has bytes to transfer. -/
theorem sizeFits_ioCall (h : SizeFits c) (hlen : len < 2 ^ 64) (hok : FileOp.IoOk c offset len write)
    (hrun : FileOp.io buf offset len write c = .ok () c' ∨ ∃ e, FileOp.io buf offset len write c = .err e c') :
    SizeFits c' := by
  unfold FileOp.io at hrun
  rcases hrun with hrun | ⟨e, hrun⟩
  · obtain ⟨r, c₁, hio, hret⟩ := Proc.bind_eq_ok.mp hrun
    cases hret
    by_cases ht : IoTransfers c offset len write
    · exact sizeFits_io h ht rfl rfl (hok ht) hio
    · obtain ⟨ret, hio', -⟩ := sfsIoNolock_idle buf h.type hlen ht
      rw [hio'] at hio
      cases hio
      exact h
  · rcases Proc.bind_eq_err.mp hrun with hio | ⟨r, c₁, -, hret⟩
    · exact absurd hio (sfsIoNolock_ne_err h.type hlen)
    · cases hret

/-- **One call.** -/
theorem SizeFits.step {op : FileOp} (h : SizeFits c) (hok : op.Ok c) (hs : op.Step c c') : SizeFits c' := by
  obtain ⟨hgiven, hrun⟩ := hs
  cases op with
  | read buf offset len => exact sizeFits_ioCall h hgiven hok hrun
  | write buf offset len => exact sizeFits_ioCall h hgiven hok hrun
  | tryseek pos => exact sizeFits_tryseek h hok hrun
  | truncfile len => exact sizeFits_truncfile h hok hrun
  | other s =>
    obtain ⟨R, hinv⟩ := hgiven
    rcases hrun with hrun | ⟨e, hrun⟩ <;> cases hrun
    exact h.of_sin hinv rfl

/-- A file whose size and blocks agree does not run into the assertion of the fast path. -/
theorem SizeFits.truncfile_ne_panic (h : SizeFits c) (len : Int) : sfsTruncfile len c ≠ .panic .truncfileSame := by
  obtain ⟨R, hinv⟩ := h.inv
  intro hp
  rcases (sfsTruncfile_panic hinv hp).2 with ⟨-, hs, hne⟩ | ⟨hpanic, -⟩
  · rw [← hs] at hne
    exact hne h.fits.symm
  · cases hpanic

/-- **Size and blocks.** In every run whose calls meet the condition, the file has the blocks its size asks
    for after every call, and truncating it does not run into the assertion of the fast path. -/
theorem sfs_size_fits_blocks (h : Reaches SizeFits FileOp.Step (fun c op => op.Ok c) c) :
    c.sin.din.blocks = blocksFor c.sin.din.size ∧ ∀ len, sfsTruncfile len c ≠ .panic .truncfileSame := by
  have hfits : SizeFits c := h.invariant (fun _ h => h) fun _ _ _ hf hok hs => hf.step hok hs
  exact ⟨hfits.fits, hfits.truncfile_ne_panic⟩

theorem emptyFile_fits : SizeFits emptyFile := ⟨⟨∅, emptyFile_inv⟩, by decide, by decide⟩

/-- After writing one block the empty file has one block, and a size of two. -/
theorem sfs_write_misfits :
    ¬ ∀ c, Reaches SizeFits FileOp.Step (fun _ _ => True) c →
      c.sin.din.blocks = blocksFor c.sin.din.size ∧ ∀ len, sfsTruncfile len c ≠ .panic .truncfileSame := by
  intro h
  let op : FileOp := .write (fun _ => 7) 0 4096
  have heval : (op.run emptyFile).test
      (fun _ c' => decide (c'.sin.din.size = 8192 ∧ c'.sin.din.blocks = 1)) = true := by decide +kernel
  obtain ⟨_, c', hrun, hp⟩ := Outcome.exists_of_test heval
  obtain ⟨hsize, hblocks⟩ := of_decide_eq_true hp
  have hlen : 4096 < 2 ^ 64 := by decide
  have hstep : op.Step emptyFile c' := ⟨hlen, Or.inl hrun⟩
  have hfit := (h c' ((Reaches.start emptyFile_fits).next trivial hstep)).1
  rw [hsize, hblocks] at hfit
  exact absurd hfit (by decide)

/-- Writing ten bytes to it meets the condition. -/
theorem sfs_size_fits_blocks_tenBytes :
    ∃ c', FileOp.Step emptyFile (.write (fun _ => 7) 0 10) c' ∧ c'.sin.din.blocks = blocksFor c'.sin.din.size := by
  let op : FileOp := .write (fun _ => 7) 0 10
  have heval : (op.run emptyFile).test (fun _ _ => true) = true := by decide +kernel
  obtain ⟨_, c', hrun, -⟩ := Outcome.exists_of_test heval
  have hlen : 10 < 2 ^ 64 := by decide
  have hstep : op.Step emptyFile c' := ⟨hlen, Or.inl hrun⟩
  have hok : op.Ok emptyFile := fun _ => Or.inl ⟨by decide, Or.inr ⟨fun _ => rfl, by decide⟩⟩
  exact ⟨c', hstep, (sfs_size_fits_blocks ((Reaches.start emptyFile_fits).next hok hstep)).1⟩

end Ucore
