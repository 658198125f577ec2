import Ucore.Fs.Correctness.Sysfile

/-!
# `Fs.Correctness.SysfileCounts` — what the caller of `sysfile_read` and `sysfile_write` is told

The count that is returned is the one of the position and of the data, with three exceptions. A chunk that the process cannot
take has left the file. A read that stretches the file (`sfs_io_nolock` counts bytes twice) goes on behind what was its end. And a
write that fails at its first byte, behind the end of the file, fills the gap all the same.
-/

namespace Ucore.Sysfile

open SfsCtx

variable {s s' : State} {pid fd m base len k : Nat} {f : File} {buffer : Option Bytes} {n ret : Int}

/-! ## What is promised -/

/-- A read that returns `n`: the position is `n` further on and the process has `n` bytes of the file, or nothing is read. -/
def ReadAgrees (s : State) (pid fd : Nat) (f : File) (base : Nat) (n : Int) (s' : State) : Prop :=
  (0 ≤ n → fileOf s' pid fd = some { f with pos := f.pos + n } ∧
    ∀ i, i < n.toNat → s.files.ctx.content (f.pos.toNat + i) = some (s'.mem (base + i))) ∧
  (n < 0 → fileOf s' pid fd = some f)

/-- A write that returns `n`: the position is `n` further on and the file has `n` bytes of the process, or is as it was. -/
def WriteAgrees (s : State) (pid fd : Nat) (f : File) (base : Nat) (n : Int) (s' : State) : Prop :=
  (0 ≤ n → fileOf s' pid fd = some { f with pos := f.pos + n } ∧
    ∀ i, i < n.toNat → s'.files.ctx.content (f.pos.toNat + i) = some (s.mem (base + i))) ∧
  (n < 0 → fileOf s' pid fd = some f ∧ s'.files.ctx.content = s.files.ctx.content)

/-- What `file_read` has for the caller is all in the file, and the process may write to all of the memory it goes to. -/
def Covers (s : State) (pid fd m : Nat) (f : File) (buffer : Option Bytes) (base len : Nat) : Prop :=
  ∀ b, buffer = some b → handed pid fd (len + 1) b len s.files = 0 ∨
    (s.vm.mm m).Accessible base (handed pid fd (len + 1) b len s.files) true ∧
      f.pos.toNat + handed pid fd (len + 1) b len s.files ≤ s.files.ctx.sin.din.size

/-- A write that stalls does not do so behind the end of the file. -/
def NoGap (s : State) (m : Nat) (f : File) (buffer : Option Bytes) (base len : Nat) : Prop :=
  ∀ b, buffer = some b → f.writable = true → Stalls s m f b base len → f.pos.toNat ≤ s.files.ctx.sin.din.size

/-! ## The ends of the calls -/

theorem fileTestfd_run (h : Opened s pid fd m f) (readable writable : Bool) :
    inFiles (fileTestfd pid fd readable writable) s = .ok ((!readable || f.readable) && (!writable || f.writable)) s := by
  have hfound : s.files.files.find? (File.at pid fd) = some f := h.found
  unfold inFiles fileTestfd Proc.within
  rw [Proc.bind_run, Proc.attempt, fd2file_run, hfound]
  cases readable <;> cases writable <;> cases hr : f.readable <;> cases hw : f.writable <;> simp [hr, hw]

theorem fileTestfd_read (h : Opened s pid fd m f) : inFiles (fileTestfd pid fd true false) s = .ok f.readable s := by
  rw [fileTestfd_run h, Bool.not_true, Bool.false_or, Bool.not_false, Bool.true_or, Bool.and_true]

theorem fileTestfd_write (h : Opened s pid fd m f) : inFiles (fileTestfd pid fd false true) s = .ok f.writable s := by
  rw [fileTestfd_run h, Bool.not_false, Bool.true_or, Bool.not_true, Bool.false_or, Bool.true_and]

theorem sysfileOut_count (h0 : k ≠ 0) (hmax : k ≤ sfsMaxFileSize) : sysfileOut ret k = k := by
  have hmax' : k ≤ 134217728 := hmax
  rw [sysfileOut, if_pos h0, Int.bmod_eq_of_le (by omega) (by omega)]

theorem pos_inj {a b : Int} (h : some { f with pos := a } = some { f with pos := b }) : a = b :=
  congrArg File.pos (Option.some.inj h)

/-- Nothing has been done, and nothing is counted. -/
theorem ReadAgrees.idle (hfound : fileOf s' pid fd = some f) (hn : n ≤ 0) : ReadAgrees s pid fd f base n s' := by
  refine ⟨fun h0 => ?_, fun _ => hfound⟩
  obtain rfl : n = 0 := by omega
  rw [Int.add_zero]
  exact ⟨hfound, fun i hi => absurd hi (Nat.not_lt_zero i)⟩

theorem WriteAgrees.idle (hfound : fileOf s' pid fd = some f) (hn : n ≤ 0)
    (hsame : n < 0 → s'.files.ctx.content = s.files.ctx.content) : WriteAgrees s pid fd f base n s' := by
  refine ⟨fun h0 => ?_, fun hneg => ⟨hfound, hsame hneg⟩⟩
  obtain rfl : n = 0 := by omega
  rw [Int.add_zero]
  exact ⟨hfound, fun i hi => absurd hi (Nat.not_lt_zero i)⟩

/-! ## `sysfile_read` -/

/-- What the loop has come to, as the caller sees it. -/
theorem ReadRun.agrees_iff {t i j : Nat} (hrun : ReadRun s pid fd f base i j s') (hret : ret ≤ 0)
    (hends : ReadEnds (Fits s m base t) t i j ret) :
    ReadAgrees s pid fd f base (sysfileOut ret i) s' ↔
      t = 0 ∨ (s.vm.mm m).Accessible base t true ∧ f.pos.toNat + t ≤ s.files.ctx.sin.din.size := by
  have hfound := hrun.found
  rcases hends with ⟨hfits, rfl, rfl⟩ | ⟨hno, hlt, hneg⟩
  · by_cases h0 : j = 0
    · have hidle : fileOf s' pid fd = some f := by
        rw [hfound, h0, Int.natCast_zero, Int.add_zero]
      have hout : sysfileOut ret j = ret := if_neg (not_not_intro h0)
      rw [hout]
      exact iff_of_true (.idle hidle hret) (.inl h0)
    · rw [sysfileOut_count h0 (by have := (hrun.range h0).2; omega)]
      constructor
      · intro hagrees
        refine .inr ⟨hfits.resolve_left h0, ?_⟩
        -- the last of the bytes is one of the file
        by_contra hover
        have hlast := (hagrees.1 (Int.natCast_nonneg j)).2 (j - 1) (by omega)
        rw [content_eq_none (by omega)] at hlast
        cases hlast
      · rintro (hz | ⟨-, hsize⟩)
        · exact absurd hz h0
        · refine ⟨fun _ => ⟨hfound, fun p hp => ?_⟩, fun hc => absurd hc (by omega)⟩
          have hp' : p < j := hp
          rw [content_eq_some (by omega), hrun.bytes p hp']
  · have hcond : ¬ (t = 0 ∨ (s.vm.mm m).Accessible base t true ∧ f.pos.toNat + t ≤ s.files.ctx.sin.din.size) := fun hc =>
      hno (hc.imp id fun h => h.1)
    refine iff_of_false (fun hagrees => ?_) hcond
    by_cases h0 : i = 0
    · have hout : sysfileOut ret i = ret := if_neg (not_not_intro h0)
      rw [hout] at hagrees
      -- the position has been moved, and nothing is counted
      have hsame := hagrees.2 hneg
      rw [hfound] at hsame
      have hpos : f.pos + j = f.pos := congrArg File.pos (Option.some.inj hsame)
      omega
    · have hmax := (hrun.range (by omega)).2
      rw [sysfileOut_count h0 (by omega)] at hagrees
      -- the position is behind a round that is not counted
      have hsame := (hagrees.1 (Int.natCast_nonneg i)).1
      rw [hfound] at hsame
      have hpos := pos_inj hsame
      omega

/-- A descriptor that may not be read has nothing for the caller. -/
theorem handed_denied {b : Bytes} (h : Opened s pid fd m f) (hr : f.readable = false) :
    handed pid fd (len + 1) b len s.files = 0 := by
  have hfound : s.files.files.find? (File.at pid fd) = some f := h.found
  have hio : fileRead pid fd b (min iobufSize len) s.files = .err (-eInval) s.files := by
    rw [fileRead, fileIo, Proc.bind_run, fd2file_run, hfound]
    dsimp only
    rw [if_neg Bool.false_ne_true, if_pos hr]
    rfl
  unfold handed
  split
  · rfl
  · rw [hio]

theorem sysfileRead_agrees_iff (h : Opened s pid fd m f) (hbase : base < 2 ^ 64) (hlen : len < 2 ^ 64)
    (hrun : sysfileRead pid fd (some m) buffer base len s = .ok n s') :
    ReadAgrees s pid fd f base n s' ↔ Covers s pid fd m f buffer base len := by
  unfold sysfileRead at hrun
  by_cases h0 : len = 0
  · rw [if_pos h0] at hrun
    cases hrun
    refine iff_of_true (.idle h.found (Int.le_refl 0)) fun b _ => .inl ?_
    rw [handed, if_pos h0]
  rw [if_neg h0, Proc.bind_ok (fileTestfd_read h)] at hrun
  by_cases hr : f.readable = false
  · rw [if_pos hr] at hrun
    cases hrun
    exact iff_of_true (.idle h.found (by decide)) fun b _ => .inl (handed_denied h hr)
  rw [if_neg hr] at hrun
  cases buffer with
  | none =>
    cases hrun
    refine iff_of_true (.idle h.found (by decide)) fun b hb => ?_
    cases hb
  | some b =>
    obtain ⟨⟨ret, copied⟩, s₁, hloop, hout⟩ := Proc.bind_eq_ok.mp hrun
    cases hout
    obtain ⟨hret, i, j, hcopied, hread, hends⟩ :=
      (readLoop_run (len + 1) h (Bool.of_not_eq_false hr) hbase hlen (Nat.lt_succ_self len)).of_ok hloop
    have hcount : copied = i := hcopied.trans (Nat.zero_add i)
    rw [hcount, hread.agrees_iff hret hends]
    constructor
    · intro hc b' hb
      cases hb
      exact hc
    · exact fun hc => hc b rfl

/-! ## `sysfile_write` -/

theorem content_congr {c c' : SfsCtx} (hsize : c'.sin.din.size = c.sin.din.size) (hstored : ∀ p, c'.stored p = c.stored p) :
    c'.content = c.content := by
  funext p
  rw [SfsCtx.content, SfsCtx.content, hsize, hstored]

/-- What the loop has come to, as the caller sees it. -/
theorem WriteRun.agrees_iff {stalls : Prop} {i : Nat} (hrun : WriteRun s pid fd f base i s') (hret : ret ≤ 0)
    (hends : WriteEnds s f stalls i ret s') :
    WriteAgrees s pid fd f base (sysfileOut ret i) s' ↔ (stalls → f.pos.toNat ≤ s.files.ctx.sin.din.size) := by
  have hfound := hrun.found
  by_cases h0 : i = 0
  · have hidle : fileOf s' pid fd = some f := by
      rw [hfound, h0, Int.natCast_zero, Int.add_zero]
    have hstored : ∀ p, s'.files.ctx.stored p = s.files.ctx.stored p := fun p =>
      (hrun.stored p).trans (if_neg (by omega))
    have hout : sysfileOut ret i = ret := if_neg (not_not_intro h0)
    rw [hout]
    rcases hends with ⟨-, hs, hneg, hsize⟩ | ⟨hno, hsize⟩
    · constructor
      · intro hagrees _
        -- the first byte behind the old end
        by_contra hgap
        have hbyte := congrFun (hagrees.2 hneg).2 s.files.ctx.sin.din.size
        rw [content_eq_none (Nat.le_refl _), content_eq_some (by omega)] at hbyte
        cases hbyte
      · intro hgap
        refine .idle hidle hret fun _ => content_congr ?_ hstored
        rw [hsize, Nat.max_eq_left (hgap hs)]
    · exact iff_of_true (.idle hidle hret fun _ => content_congr (hsize h0) hstored) fun hs => absurd hs hno
  · obtain ⟨-, hmax, hsize⟩ := hrun.range h0
    have hno : ¬ stalls := by
      rcases hends with ⟨hz, -⟩ | ⟨hno, -⟩
      · exact absurd hz h0
      · exact hno
    rw [sysfileOut_count h0 (by omega)]
    refine iff_of_true ⟨fun _ => ⟨hfound, fun p hp => ?_⟩, fun hc => absurd hc (by omega)⟩ fun hs => absurd hs hno
    have hp' : p < i := hp
    rw [content_eq_some (by omega), hrun.stored, if_pos (by omega), Nat.add_sub_cancel_left]

theorem sysfileWrite_agrees_iff (h : Opened s pid fd m f) (hbase : base < 2 ^ 64) (hlen : len < 2 ^ 64)
    (hrun : sysfileWrite pid fd (some m) buffer base len s = .ok n s') :
    WriteAgrees s pid fd f base n s' ↔ NoGap s m f buffer base len := by
  unfold sysfileWrite at hrun
  by_cases h0 : len = 0
  · rw [if_pos h0] at hrun
    cases hrun
    refine iff_of_true (.idle h.found (Int.le_refl 0) fun _ => rfl) fun b _ _ hs => ?_
    exact absurd h0 hs.len_ne_zero
  rw [if_neg h0, Proc.bind_ok (fileTestfd_write h)] at hrun
  by_cases hw : f.writable = false
  · rw [if_pos hw] at hrun
    cases hrun
    refine iff_of_true (.idle h.found (by decide) fun _ => rfl) fun b _ hw' => ?_
    rw [hw] at hw'
    cases hw'
  rw [if_neg hw] at hrun
  cases buffer with
  | none =>
    cases hrun
    refine iff_of_true (.idle h.found (by decide) fun _ => rfl) fun b hb => ?_
    cases hb
  | some b =>
    obtain ⟨⟨ret, copied⟩, s₁, hloop, hout⟩ := Proc.bind_eq_ok.mp hrun
    cases hout
    have hw' := Bool.of_not_eq_false hw
    obtain ⟨hret, i, hcopied, hwrite, hends⟩ :=
      (writeLoop_run (len + 1) h hw' hbase hlen (Nat.lt_succ_self len)).of_ok hloop
    have hcount : copied = i := hcopied.trans (Nat.zero_add i)
    rw [hcount, hwrite.agrees_iff hret hends]
    constructor
    · intro hc b' hb _
      cases hb
      exact hc
    · exact fun hc => hc b rfl hw'

/-! ## Both calls -/

/-- The loops have rounds enough, and their assertion holds: only the file system stops the machine. -/
theorem sysfile_ends (h : Opened s pid fd m f) (buffer : Option Bytes) (hbase : base < 2 ^ 64) (hlen : len < 2 ^ 64) :
    (sysfileRead pid fd (some m) buffer base len s).Meets (fun _ _ => True) (fun _ _ => False) (fun p => ∃ q, p = .fs q) ∧
      (sysfileWrite pid fd (some m) buffer base len s).Meets (fun _ _ => True) (fun _ _ => False) (fun p => ∃ q, p = .fs q) := by
  unfold sysfileRead sysfileWrite
  by_cases h0 : len = 0
  · rw [if_pos h0, if_pos h0]
    exact ⟨trivial, trivial⟩
  rw [if_neg h0, if_neg h0, Proc.bind_ok (fileTestfd_read h), Proc.bind_ok (fileTestfd_write h)]
  constructor
  · by_cases hr : f.readable = false
    · rw [if_pos hr]
      trivial
    · rw [if_neg hr]
      cases buffer with
      | none => trivial
      | some b =>
        have hloop := @readLoop_run pid fd m (len + 1) s f b ⟨base, len, 0⟩ h (Bool.of_not_eq_false hr) hbase hlen
          (Nat.lt_succ_self len)
        exact Outcome.Meets.bind hloop fun _ _ _ => trivial
  · by_cases hw : f.writable = false
    · rw [if_pos hw]
      trivial
    · rw [if_neg hw]
      cases buffer with
      | none => trivial
      | some b =>
        have hloop := @writeLoop_run pid fd m (len + 1) s f b ⟨base, len, 0⟩ h (Bool.of_not_eq_false hw) hbase hlen
          (Nat.lt_succ_self len)
        exact Outcome.Meets.bind hloop fun _ _ _ => trivial

/-- A descriptor at the start of the file -/
def atStart : File := { pid := 1, fd := 0, readable := true, writable := true, pos := 0 }

/-- A process with data and a stack, which has opened the file. -/
def holder (c : SfsCtx) : State := { files := { ctx := c, files := [atStart] }, vm := dataStack, mem := fun _ => 7 }

theorem dataStack_sorted : (dataStack.mm 1).Sorted := ⟨by decide, by decide, nofun⟩

theorem holder_opened {c : SfsCtx} (hs : c.Sound) (hc : c.Coded) : Opened (holder c) 1 0 1 atStart :=
  ⟨hs, hc, rfl, dataStack_sorted⟩

theorem emptyFile_coded : emptyFile.Coded := fun _ => Int.le_refl 0

theorem dataStack_accessible (write : Bool) : (dataStack.mm 1).Accessible 0x400000 10 write := by
  refine ⟨by decide, by decide, by decide, fun a hlo hhi => ⟨_, List.mem_cons_self, ⟨hlo, ?_⟩, ?_, fun _ hs => ?_⟩⟩
  · show a < 0x402000
    omega
  · cases write <;> rfl
  · cases hs

/-- Ten bytes are in the file. A process reads them into its data, or to the address 0, where it has no memory. -/
theorem tenBytes_reads : ∃ c : SfsCtx, c.Sound ∧ c.Coded ∧ c.sin.din.size = 10 ∧
    handed 1 0 11 (fun _ => 0) 10 (holder c).files = 10 ∧
    (∃ s', sysfileRead 1 0 (some 1) (some fun _ => 0) 0x400000 10 (holder c) = .ok 10 s') ∧
    ∃ s', sysfileRead 1 0 (some 1) (some fun _ => 0) 0 10 (holder c) = .ok (-eInval) s' ∧
      (fileOf s' 1 0).map File.pos = some 10 := by
  have heval : (sfsIoNolock (fun _ => 7) 0 10 true emptyFile).test (fun _ c =>
      decide (c.sin.din.size = 10 ∧ handed 1 0 11 (fun _ => 0) 10 (holder c).files = 10) &&
      ((sysfileRead 1 0 (some 1) (some fun _ => 0) 0x400000 10 (holder c)).test (fun n _ => decide (n = 10)) &&
        (sysfileRead 1 0 (some 1) (some fun _ => 0) 0 10 (holder c)).test fun n s' =>
          decide (n = -eInval ∧ (fileOf s' 1 0).map File.pos = some 10))) = true := by decide +kernel
  obtain ⟨r, c, hwrite, hrest⟩ := Outcome.exists_of_test heval
  obtain ⟨hsize, hrest⟩ := Bool.and_eq_true_iff.mp hrest
  obtain ⟨hread, hlost⟩ := Bool.and_eq_true_iff.mp hrest
  obtain ⟨n₁, s₁, hrun₁, hn₁⟩ := Outcome.exists_of_test hread
  obtain ⟨n₂, s₂, hrun₂, hn₂⟩ := Outcome.exists_of_test hlost
  obtain ⟨hsize, hhand⟩ := of_decide_eq_true hsize
  obtain ⟨hn₂, hpos⟩ := of_decide_eq_true hn₂
  have hlen : 10 < 2 ^ 64 := by decide
  have hsound := (closedFile_sound.io (fun _ => 7) 0 true hlen).of_ok hwrite
  have hcoded := (sfsIoNolock_coded emptyFile_coded closedFile_sound.type hlen hwrite).2
  exact ⟨c, hsound, hcoded, hsize, hhand, ⟨s₁, of_decide_eq_true hn₁ ▸ hrun₁⟩, s₂, hn₂ ▸ hrun₂, hpos⟩

end Ucore.Sysfile
