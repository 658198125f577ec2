import Ucore.Fs.Sfs.Correctness.Ends

/-!
# `Fs.Sfs.Correctness.IoLoop` — the three steps of `sfs_io_nolock` as one loop over blocks

Head, body and tail treat one block each time round. `ioPiece` is that round, written once for all three;
`IoDone` says which state the rounds so far have led to. The rule `ioSteps_cases` turns a run of the three
steps into a chain of rounds, and says what the local variables hold at the label `out`: `alen` counts
every byte, `offset` has been advanced over the head and the full blocks but not over the tail
(`ioStepped`).
-/

namespace Ucore

/-! ## One round -/

/-- The number of bytes of the round that starts `a` bytes into the transfer `[start, endpos)`. -/
def pieceSize (start endpos a : Nat) : Nat :=
  min (4096 - (start + a) % 4096) (endpos - (start + a))

/-- The transfer of a round, once its block is known: whole blocks go around the bounce buffer. -/
def pieceOp (write : Bool) (start endpos a : Nat) (buf : Bytes) (ino : Nat) : SfsM Bytes :=
  if (start + a) % 4096 = 0 ∧ start + a + 4096 ≤ endpos then sfsBlockOp write buf a ino
  else sfsBufOp write buf a (pieceSize start endpos a) ino ((start + a) % 4096)

/-- The round that starts `a` bytes into the transfer. -/
def ioPiece (write : Bool) (start endpos a : Nat) (buf : Bytes) : SinM Bytes := do
  let ino ← sfsBmapLoadNolock ((start + a) / 4096)
  onFs (pieceOp write start endpos a buf ino)

/-- The rounds up to byte `a` of the transfer went through, and led from `buf`, `c` to `buf'`, `c'`. -/
inductive IoDone (write : Bool) (start endpos : Nat) (buf : Bytes) (c : SfsCtx) :
    Nat → Bytes → SfsCtx → Prop where
  | start : IoDone write start endpos buf c 0 buf c
  | next {a : Nat} {buf' buf'' : Bytes} {c' c'' : SfsCtx} (h : IoDone write start endpos buf c a buf' c')
      (hlt : start + a < endpos) (hp : ioPiece write start endpos a buf' c' = .ok buf'' c'') :
      IoDone write start endpos buf c (a + pieceSize start endpos a) buf'' c''

/-- The transfer ends in a round that does not go through. -/
inductive IoStops (write : Bool) (start endpos : Nat) (buf : Bytes) (c : SfsCtx) :
    Outcome SfsPanic Int SfsCtx (Int × IoVars) → Prop where
  | err {a : Nat} {buf' : Bytes} {c' c'' : SfsCtx} {r : Int} {v : IoVars}
      (h : IoDone write start endpos buf c a buf' c') (hlt : start + a < endpos)
      (hp : ioPiece write start endpos a buf' c' = .err r c'') (hr : r ≠ 0)
      (hoff : v.offset = start + a) (halen : v.alen = a) (hbuf : v.buf = buf') :
      IoStops write start endpos buf c (.ok (r, v) c'')
  | panic {a : Nat} {buf' : Bytes} {c' : SfsCtx} {p : SfsPanic}
      (h : IoDone write start endpos buf c a buf' c') (hlt : start + a < endpos)
      (hp : ioPiece write start endpos a buf' c' = .panic p) :
      IoStops write start endpos buf c (.panic p)

/-- The bytes that only STEP 3 transfers: those of a last, partial block that STEP 1 has not done. -/
def ioTailSize (start endpos : Nat) : Nat :=
  if start % 4096 ≠ 0 ∧ endpos / 4096 = start / 4096 then 0 else endpos % 4096

/-- How far `offset` has been advanced when all steps have gone through. -/
def ioStepped (start endpos : Nat) : Nat := endpos - start - ioTailSize start endpos

/-- The local variables between two steps: everything up to `offset` is done, and unless this is the end
    the next byte is the first of its block. -/
structure IoStage (write : Bool) (start endpos : Nat) (buf : Bytes) (c : SfsCtx) (v : IoVars)
    (c' : SfsCtx) : Prop where
  done : IoDone write start endpos buf c v.alen v.buf c'
  offset : v.offset = start + v.alen
  le : v.offset ≤ endpos
  aligned : v.offset = endpos ∧ ioTailSize start endpos = 0 ∨
    v.offset % 4096 = 0 ∧ v.blkno = v.offset / 4096 ∧ ioTailSize start endpos = endpos % 4096

/-- The local variables at the label `out`, after a transfer that went through. -/
structure IoEnd (write : Bool) (start endpos : Nat) (buf : Bytes) (c : SfsCtx) (v : IoVars)
    (c' : SfsCtx) : Prop where
  done : IoDone write start endpos buf c (endpos - start) v.buf c'
  alen : v.alen = endpos - start
  offset : v.offset = start + ioStepped start endpos

theorem IoDone.le {write : Bool} {start endpos a : Nat} {buf b : Bytes} {c c' : SfsCtx} (hlt : start < endpos)
    (h : IoDone write start endpos buf c a b c') : start + a ≤ endpos := by
  cases h with
  | start => exact Nat.le_of_lt hlt
  | next _ hl _ =>
    unfold pieceSize
    omega

/-- A round is short of its block's end only at the end of the transfer. -/
theorem IoDone.aligned {write : Bool} {start endpos a : Nat} {buf b : Bytes} {c c' : SfsCtx}
    (h : IoDone write start endpos buf c a b c') (hlt : start + a < endpos) :
    a = 0 ∨ (start + a) % 4096 = 0 := by
  cases h with
  | start => exact Or.inl rfl
  | next _ hl _ =>
    unfold pieceSize at hlt ⊢
    omega

theorem pieceSize_pos {start endpos a : Nat} (hlt : start + a < endpos) : 0 < pieceSize start endpos a := by
  unfold pieceSize
  omega

theorem ioPiece_fails (write : Bool) (start endpos a : Nat) (buf : Bytes) :
    Fails (· ≠ 0) (fun p => p = .indexOutOfRange → 1036 ≤ (start + a) / 4096) (ioPiece write start endpos a buf) := by
  have hop : ∀ ino, Fails (· ≠ 0) (· ≠ .indexOutOfRange) (pieceOp write start endpos a buf ino) := by
    intro ino
    unfold pieceOp sfsBlockOp sfsBufOp
    apply Fails.of_ite
    · exact .of_ite (sfsRwblock_fails _ _ _ _ _) (sfsRwblock_fails _ _ _ _ _)
    · exact .of_ite (.bind (sfsWbuf_fails _ _ _ _ _) fun _ => .of_pure _) (sfsRbuf_fails _ _ _ _ _)
  unfold ioPiece
  apply Fails.bind (sfsBmapLoadNolock_fails _)
  exact fun ino => .zoom ((hop ino).mono (fun _ h => h) fun _ h he => absurd he h)

/-! ## The three steps -/

variable {write : Bool} {start endpos : Nat} {buf : Bytes} {c c₁ : SfsCtx} {v : IoVars}

/-- How a step ends: the transfer is over, or the next step finds `Q`. -/
def IoStep (write : Bool) (start endpos : Nat) (buf : Bytes) (c : SfsCtx)
    (Q : IoVars → SfsCtx → Prop) (out : Outcome SfsPanic Int SfsCtx (Int × IoVars)) : Prop :=
  IoStops write start endpos buf c out ∨ ∃ v' c', out = .ok (0, v') c' ∧ Q v' c'

/-- One round of a step: it ends the transfer, or the step goes on with `k`. -/
theorem ioRound_cases {Q : IoVars → SfsCtx → Prop} {m : SinM Bytes} {k : Bytes → SinM (Int × IoVars)}
    (hd : IoDone write start endpos buf c v.alen v.buf c₁) (hoff : v.offset = start + v.alen)
    (hlt : v.offset < endpos) (hm : m = ioPiece write start endpos v.alen v.buf)
    (hk : ∀ buf' c', IoDone write start endpos buf c (v.alen + pieceSize start endpos v.alen) buf' c' →
      IoStep write start endpos buf c Q (k buf' c')) :
    IoStep write start endpos buf c Q ((Proc.attempt m >>= fun r => match r with
      | .error ret => pure (ret, v)
      | .ok buf'   => k buf') c₁) := by
  have hlt' : start + v.alen < endpos := hoff ▸ hlt
  subst hm
  cases hp : ioPiece write start endpos v.alen v.buf c₁ with
  | ok buf' c' =>
    rw [Proc.bind_ok (Proc.attempt_ok hp)]
    exact hk buf' c' (hd.next hlt' hp)
  | err r c' =>
    rw [Proc.bind_ok (Proc.attempt_err hp)]
    exact Or.inl (.err hd hlt' hp ((ioPiece_fails _ _ _ _ _).err hp) hoff rfl rfl)
  | panic p =>
    rw [Proc.bind_panic (Proc.attempt_panic hp)]
    exact Or.inl (.panic hd hlt' hp)

/-- A round that is not a whole block goes through the bounce buffer. -/
theorem ioPiece_bufOp {a size blkno blkoff : Nat} (hpart : ¬ ((start + a) % 4096 = 0 ∧ start + a + 4096 ≤ endpos))
    (hsize : size = pieceSize start endpos a) (hblk : blkno = (start + a) / 4096)
    (hoff : blkoff = (start + a) % 4096) (b : Bytes) :
    (do let ino ← sfsBmapLoadNolock blkno
        onFs (sfsBufOp write b a size ino blkoff)) = ioPiece write start endpos a b := by
  unfold ioPiece pieceOp
  subst hsize hblk hoff
  simp only [if_neg hpart]

theorem ioPiece_blockOp {a blkno : Nat} (hfull : (start + a) % 4096 = 0 ∧ start + a + 4096 ≤ endpos)
    (hblk : blkno = (start + a) / 4096) (b : Bytes) :
    (do let ino ← sfsBmapLoadNolock blkno
        onFs (sfsBlockOp write b a ino)) = ioPiece write start endpos a b := by
  unfold ioPiece pieceOp
  subst hblk
  simp only [if_pos hfull]

theorem ioHead_stage (write : Bool) (buf : Bytes) (c : SfsCtx) (hlt : start < endpos) :
    IoStep write start endpos buf c (IoStage write start endpos buf c)
      (ioHead write endpos (endpos / 4096 - start / 4096)
        { offset := start, alen := 0, blkno := start / 4096, buf := buf } c) := by
  unfold ioHead
  by_cases h0 : start % 4096 = 0
  · -- an aligned start: nothing to do
    have h0' : ¬ start % sfsBlksize ≠ 0 := not_not_intro h0
    simp only [h0', if_false]
    refine Or.inr ⟨_, _, rfl, .start, rfl, Nat.le_of_lt hlt, Or.inr ⟨h0, rfl, ?_⟩⟩
    unfold ioTailSize
    rw [if_neg (fun hc => hc.1 h0)]
  · have h0' : start % sfsBlksize ≠ 0 := h0
    have hsize : (if endpos / 4096 - start / 4096 ≠ 0 then sfsBlksize - start % sfsBlksize
        else endpos - start) = pieceSize start endpos 0 := by
      unfold pieceSize
      simp only [sfsBlksize]
      split <;> omega
    simp only [h0', ne_eq, not_false_eq_true, if_true]
    apply ioRound_cases .start rfl hlt (ioPiece_bufOp (fun hc => h0 hc.1) hsize rfl rfl buf)
    intro buf' c' hd
    refine Or.inr ⟨_, _, rfl, ?_, ?_, ?_, ?_⟩
    · rw [hsize]
      exact hd
    · rw [hsize, Nat.zero_add]
    · rw [hsize]
      show start + pieceSize start endpos 0 ≤ endpos
      unfold pieceSize
      omega
    · show start + _ = endpos ∧ _ ∨ (start + _) % 4096 = 0 ∧ start / 4096 + 1 = (start + _) / 4096 ∧ _
      rw [hsize]
      unfold pieceSize ioTailSize
      by_cases hs : endpos / 4096 = start / 4096
      · rw [if_pos ⟨h0, hs⟩]
        omega
      · rw [if_neg (fun hc => hs hc.2)]
        omega

theorem ioBody_stage (fuel : Nat) : ∀ (v : IoVars) (c₁ : SfsCtx), IoStage write start endpos buf c v c₁ →
    endpos < v.offset + 4096 * fuel →
    IoStep write start endpos buf c
      (fun v' c' => IoStage write start endpos buf c v' c' ∧ endpos < v'.offset + 4096)
      (ioBody write endpos fuel v c₁) := by
  induction fuel with
  | zero =>
    intro v c₁ hs hf
    have := hs.le
    omega
  | succ n ih =>
    intro v c₁ hs hf
    unfold ioBody
    by_cases hle : v.offset + sfsBlksize ≤ endpos
    · have hle' : v.offset + 4096 ≤ endpos := hle
      have hal : v.offset % 4096 = 0 ∧ v.blkno = v.offset / 4096 ∧ ioTailSize start endpos = endpos % 4096 := by
        refine hs.aligned.resolve_left fun hc => ?_
        omega
      have hoff := hs.offset
      have hsize : pieceSize start endpos v.alen = sfsBlksize := by
        unfold pieceSize sfsBlksize
        omega
      rw [if_pos hle]
      apply ioRound_cases hs.done hoff (by omega)
        (ioPiece_blockOp (hoff ▸ ⟨hal.1, hle'⟩) (hoff ▸ hal.2.1) v.buf)
      intro buf' c' hd
      rw [hsize] at hd
      apply ih
      · refine ⟨hd, ?_, hle, Or.inr ⟨?_, ?_, hal.2.2⟩⟩
        · show v.offset + sfsBlksize = start + (v.alen + sfsBlksize)
          omega
        · show (v.offset + 4096) % 4096 = 0
          omega
        · show v.blkno + 1 = (v.offset + 4096) / 4096
          omega
      · show endpos < v.offset + 4096 + 4096 * n
        omega
    · rw [if_neg hle]
      refine Or.inr ⟨_, _, rfl, hs, ?_⟩
      exact Nat.lt_of_not_le hle

theorem ioTail_stage (hs : IoStage write start endpos buf c v c₁) (hlt : endpos < v.offset + 4096) :
    IoStep write start endpos buf c (IoEnd write start endpos buf c) (ioTail write endpos v c₁) := by
  have hoff := hs.offset
  have hle := hs.le
  unfold ioTail
  by_cases h : v.offset < endpos
  · have hal := hs.aligned.resolve_left fun hc => by omega
    have hsize : endpos - v.offset = pieceSize start endpos v.alen := by
      unfold pieceSize
      omega
    rw [if_pos h]
    apply ioRound_cases hs.done hoff h
      (ioPiece_bufOp (fun hc => by omega) hsize (hoff ▸ hal.2.1) (hoff ▸ hal.1.symm) v.buf)
    intro buf' c' hd
    have hall : v.alen + pieceSize start endpos v.alen = endpos - start := by
      rw [← hsize]
      omega
    refine Or.inr ⟨_, _, rfl, hall ▸ hd, ?_, ?_⟩
    · show v.alen + (endpos - v.offset) = endpos - start
      omega
    · show v.offset = _
      unfold ioStepped
      omega
  · rw [if_neg h]
    have hall : v.alen = endpos - start := by omega
    refine Or.inr ⟨_, _, rfl, hall ▸ hs.done, hall, ?_⟩
    unfold ioStepped
    have := hs.aligned
    omega

theorem IoStep.then {Q Q' : IoVars → SfsCtx → Prop} {x : SinM (Int × IoVars)}
    {f : IoVars → SinM (Int × IoVars)} (hx : IoStep write start endpos buf c Q (x c₁))
    (hf : ∀ v' c', Q v' c' → IoStep write start endpos buf c Q' (f v' c')) :
    IoStep write start endpos buf c Q' (ioThen x f c₁) := by
  unfold ioThen
  rcases hx with hs | ⟨v', c', hx, hq⟩
  · generalize hout : x c₁ = out at hs
    cases hs with
    | err hd hlt hp hr hoff halen hbuf =>
      rw [Proc.bind_ok hout]
      simp only [ne_eq, hr, not_false_eq_true, if_true]
      exact Or.inl (.err hd hlt hp hr hoff halen hbuf)
    | panic hd hlt hp =>
      rw [Proc.bind_panic hout]
      exact Or.inl (.panic hd hlt hp)
  · rw [Proc.bind_ok hx]
    exact hf v' c' hq

/-- **The loop rule.** The three steps are a chain of rounds; it reaches the end of the transfer, or stops
    at the first round that fails. -/
theorem ioSteps_cases (write : Bool) (buf : Bytes) (c : SfsCtx) (hlt : start < endpos) :
    IoStep write start endpos buf c (IoEnd write start endpos buf c)
      (ioSteps write endpos { offset := start, alen := 0, blkno := start / sfsBlksize, buf := buf } c) := by
  have hhead := ioHead_stage write buf c hlt
  have hbody := hhead.then (f := ioBody write endpos (endpos / sfsBlksize + 1)) fun v₁ c₁ hs => by
    apply ioBody_stage _ _ _ hs
    show endpos < v₁.offset + 4096 * (endpos / 4096 + 1)
    omega
  exact hbody.then fun v₁ c₁ hs => ioTail_stage hs.1 hs.2

/-! ## The whole call -/

/-- Where a transfer ends: at the size limit, and for a read at the end of the file. -/
def ioLimit (c : SfsCtx) (offset len : Nat) (write : Bool) : Nat :=
  if write = false then min (min (offset + len) sfsMaxFileSize) c.sin.din.size
  else min (offset + len) sfsMaxFileSize

/-- The call gets past its checks, with bytes to transfer. -/
def IoTransfers (c : SfsCtx) (offset : Int) (len : Nat) (write : Bool) : Prop :=
  0 ≤ offset ∧ offset < sfsMaxFileSize ∧ offset + len < 2 ^ 63 ∧
    offset.toNat < ioLimit c offset.toNat len write

/-- What the label `out` makes of the inode: the file reaches at least to byte `n`. -/
def SfsCtx.reach (c : SfsCtx) (n : Nat) : SfsCtx :=
  if c.sin.din.size < n then
    { c with sin := { c.sin with din := { c.sin.din with size := n }, dirty := true } }
  else c

theorem ioOut_run (ret : Int) (v : IoVars) (c : SfsCtx) :
    ioOut ret v c = .ok ⟨ret, v.alen, v.buf⟩ (c.reach (v.offset + v.alen)) := by
  unfold ioOut SfsCtx.reach
  rw [Proc.get_bind]
  by_cases h : c.sin.din.size < v.offset + v.alen
  · rw [if_pos h, if_pos h]
    rfl
  · rw [if_neg h, if_neg h]
    rfl

/-- `endpos` does not wrap round where the checks let it through. -/
theorem ioEndpos_eq {offset : Int} {len : Nat} (h0 : 0 ≤ offset) (h : offset + len < 2 ^ 63) :
    ioEndpos offset len = offset + len := by
  unfold ioEndpos
  rw [Int.bmod_eq_of_le (by omega) (by omega)]

theorem ioEndpos_wraps {offset : Int} {len : Nat} (h0 : 0 ≤ offset) (hmax : offset < sfsMaxFileSize)
    (hlen : len < 2 ^ 64) (h : ¬ offset + len < 2 ^ 63) : ioEndpos offset len < offset := by
  have hmax' : offset < 134217728 := hmax
  unfold ioEndpos
  rw [Int.bmod_def]
  split <;> omega

/-- A call that ends at its checks, or finds nothing to transfer. -/
theorem sfsIoNolock_checks (buf : Bytes) {offset : Int} {len : Nat} (htype : c.sin.din.type ≠ sfsTypeDir)
    (hlen : len < 2 ^ 64) (ht : ¬ IoTransfers c offset len write) :
    sfsIoNolock buf offset len write c = .ok ⟨-eInval, 0, buf⟩ c ∨
      sfsIoNolock buf offset len write c = .ok ⟨0, 0, buf⟩ c ∧ 0 ≤ offset ∧ ioLimit c offset.toNat len write ≤ offset.toNat := by
  unfold sfsIoNolock
  rw [Proc.get_bind, Proc.check_bind_pos htype]
  by_cases hc : offset < 0 ∨ (sfsMaxFileSize : Int) ≤ offset ∨ ioEndpos offset len < offset
  · simp only [if_pos hc]
    exact Or.inl rfl
  · simp only [if_neg hc]
    obtain ⟨h0, hmax, hend⟩ : 0 ≤ offset ∧ offset < sfsMaxFileSize ∧ offset ≤ ioEndpos offset len := by
      omega
    have hfit : offset + len < 2 ^ 63 := by
      by_contra hn
      have := ioEndpos_wraps h0 hmax hlen hn
      omega
    have heq := ioEndpos_eq h0 hfit
    have hlim : ioLimit c offset.toNat len write ≤ offset.toNat := by
      by_contra hn
      exact ht ⟨h0, hmax, hfit, Nat.lt_of_not_le hn⟩
    by_cases hz : offset = ioEndpos offset len
    · rw [if_pos hz]
      exact Or.inr ⟨rfl, h0, hlim⟩
    · rw [if_neg hz]
      have hread : write = false ∧ c.sin.din.size ≤ offset.toNat := by
        have hmax' : offset < 134217728 := hmax
        unfold ioLimit sfsMaxFileSize at hlim
        cases write with
        | false =>
          rw [if_pos rfl] at hlim
          exact ⟨rfl, by omega⟩
        | true =>
          rw [if_neg (by decide)] at hlim
          omega
      rw [if_pos hread]
      exact Or.inr ⟨rfl, h0, hlim⟩

theorem sfsIoNolock_idle (buf : Bytes) {offset : Int} {len : Nat} (htype : c.sin.din.type ≠ sfsTypeDir)
    (hlen : len < 2 ^ 64) (ht : ¬ IoTransfers c offset len write) :
    ∃ ret, sfsIoNolock buf offset len write c = .ok ⟨ret, 0, buf⟩ c ∧
      (ret = 0 → 0 ≤ offset ∧ ioLimit c offset.toNat len write ≤ offset.toNat) := by
  rcases sfsIoNolock_checks buf htype hlen ht with hrun | ⟨hrun, hidle⟩
  · exact ⟨-eInval, hrun, fun h => absurd h (by decide)⟩
  · exact ⟨0, hrun, fun _ => hidle⟩

theorem sfsIoNolock_transfer (buf : Bytes) {offset : Int} {len : Nat} (htype : c.sin.din.type ≠ sfsTypeDir)
    (ht : IoTransfers c offset len write) :
    sfsIoNolock buf offset len write c =
      (ioSteps write (ioLimit c offset.toNat len write)
        { offset := offset.toNat, alen := 0, blkno := offset.toNat / sfsBlksize, buf := buf } >>= fun p =>
          ioOut p.1 p.2) c := by
  obtain ⟨h0, hmax, hfit, hlt⟩ := ht
  have heq := ioEndpos_eq h0 hfit
  have hpos : 0 < len := by
    unfold ioLimit at hlt
    split at hlt <;> omega
  have hc : ¬ (offset < 0 ∨ (sfsMaxFileSize : Int) ≤ offset ∨ ioEndpos offset len < offset) := by
    omega
  have hz : ¬ offset = ioEndpos offset len := by omega
  have hread : ¬ (write = false ∧ c.sin.din.size ≤ offset.toNat) := by
    rintro ⟨rfl, hs⟩
    unfold ioLimit at hlt
    rw [if_pos rfl] at hlt
    omega
  have hend : (ioEndpos offset len).toNat = offset.toNat + len := by omega
  unfold sfsIoNolock
  rw [Proc.get_bind, Proc.check_bind_pos htype]
  simp only [if_neg hc, if_neg hz, if_neg hread, hend]
  rfl

/-- **How a call of `sfs_io_nolock` ends** once it has bytes to transfer. -/
theorem sfsIoNolock_cases (buf : Bytes) {offset : Int} {len : Nat} (htype : c.sin.din.type ≠ sfsTypeDir)
    (ht : IoTransfers c offset len write) {start endpos : Nat} (hstart : offset.toNat = start)
    (hend : ioLimit c start len write = endpos) :
    (∃ b c', IoDone write start endpos buf c (endpos - start) b c' ∧ sfsIoNolock buf offset len write c
      = .ok ⟨0, endpos - start, b⟩ (c'.reach (endpos + ioStepped start endpos))) ∨
    (∃ a b c' c'' r, IoDone write start endpos buf c a b c' ∧ start + a < endpos ∧
      ioPiece write start endpos a b c' = .err r c'' ∧ r ≠ 0 ∧ sfsIoNolock buf offset len write c
        = .ok ⟨r, a, b⟩ (c''.reach (start + a + a))) ∨
    ∃ a b c' p, IoDone write start endpos buf c a b c' ∧ start + a < endpos ∧
      ioPiece write start endpos a b c' = .panic p ∧ sfsIoNolock buf offset len write c = .panic p := by
  have hlt : start < endpos := by
    rw [← hend, ← hstart]
    exact ht.2.2.2
  rw [sfsIoNolock_transfer buf htype ht, hstart, hend]
  rcases ioSteps_cases write buf c hlt with hs | ⟨v, c', hrun, hv⟩
  · generalize hout : ioSteps write endpos _ c = out at hs
    cases hs with
    | @err a b c' c'' r v hd hl hp hr hoff halen hbuf =>
      refine Or.inr (Or.inl ⟨a, b, c', c'', r, hd, hl, hp, hr, ?_⟩)
      rw [Proc.bind_ok hout, ioOut_run, halen, hoff, hbuf]
    | @panic a b c' p hd hl hp => exact Or.inr (Or.inr ⟨a, b, c', p, hd, hl, hp, Proc.bind_panic hout⟩)
  · refine Or.inl ⟨v.buf, c', hv.done, ?_⟩
    have hsum : v.offset + v.alen = endpos + ioStepped start endpos := by
      rw [hv.offset, hv.alen]
      omega
    rw [Proc.bind_ok hrun, ioOut_run, hsum, hv.alen]

/-- A transfer never fails as a whole: its error code is in the result. -/
theorem sfsIoNolock_ne_err {c' : SfsCtx} {offset : Int} {len : Nat} {e : Int} (htype : c.sin.din.type ≠ sfsTypeDir) (hlen : len < 2 ^ 64) :
    sfsIoNolock buf offset len write c ≠ .err e c' := by
  intro h
  by_cases ht : IoTransfers c offset len write
  · rcases sfsIoNolock_cases buf htype ht rfl rfl with ⟨b, c₁, -, hrun⟩ | ⟨a, b, c₁, c₂, e, -, -, -, -, hrun⟩ |
      ⟨a, b, c₁, p, -, -, -, hrun⟩ <;> rw [h] at hrun <;> cases hrun
  · obtain ⟨ret, hrun, -⟩ := sfsIoNolock_idle buf htype hlen ht
    rw [h] at hrun
    cases hrun

end Ucore
