import Ucore.Fs.Correctness.Sharing
import Ucore.Fs.Sfs.Correctness.Content
import Ucore.Fs.Sysfile
import Ucore.Mm.Correctness.UserMem

/-!
# `Fs.Correctness.Sysfile` — count, position and data of `sysfile_read` and `sysfile_write`

Each round has a file step and a memory step. In `sysfile_write` the memory comes first, and what the file step counts is what
the caller is told. In `sysfile_read` the file comes first: the position has been moved when the process turns out to have no
memory for the bytes, and they are lost. `handed` is what the file has for the caller, whatever becomes of it.
-/

namespace Ucore.Sysfile

open SfsCtx

variable {s s' : State} {pid fd m base len fuel : Nat} {f : File} {buf buffer : Bytes} {write : Bool} {r : IoResult}

/-! ## One call of the file layer -/

/-- The file, with its content `c`, and the descriptor at `pos`. -/
def moved (s : FileSys) (pid fd : Nat) (c : SfsCtx) (pos : Int) : FileSys where
  ctx := c
  files := s.files.map fun f => if f.at pid fd then { f with pos := pos } else f

/-- What a descriptor is in the table of its process. -/
def fileOf (s : State) (pid fd : Nat) : Option File := s.files.files.find? (File.at pid fd)

/-- A descriptor that is open on a sound file, in a process whose areas are in order. -/
structure Opened (s : State) (pid fd m : Nat) (f : File) : Prop where
  sound : s.files.ctx.Sound
  coded : s.files.ctx.Coded
  found : fileOf s pid fd = some f
  sorted : (s.vm.mm m).Sorted

theorem find_moved {t : FileSys} (h : t.files.find? (File.at pid fd) = some f) (c : SfsCtx) (pos : Int) :
    (moved t pid fd c pos).files.find? (File.at pid fd) = some { f with pos := pos } := by
  have hat : f.at pid fd = true := List.find?_some h
  have hsame : (File.at pid fd ∘ fun g : File => if g.at pid fd = true then { g with pos := pos } else g) = File.at pid fd := by
    funext g
    rw [Function.comp_apply]
    split <;> rfl
  rw [moved, List.find?_map, hsame, h, Option.map_some, if_pos hat]

/-- The mode lets the call through. -/
def Allowed (f : File) (write : Bool) : Prop := (if write = true then f.writable else f.readable) = true

theorem fileIo_run {t : FileSys} (hfound : t.files.find? (File.at pid fd) = some f) (hmode : Allowed f write) :
    fileIo pid fd buf len write t = match sfsIoNolock buf f.pos len write t.ctx with
      | .ok r c  => .ok r (moved t pid fd c (f.pos + r.alen))
      | .err e c => .err e { t with ctx := c }
      | .panic p => .panic p := by
  have hok : ¬ (if write = true then f.writable else f.readable) = false := by
    rw [hmode]
    exact Bool.noConfusion
  rw [fileIo, Proc.bind_run, fd2file_run, hfound]
  dsimp only
  rw [if_neg hok]
  show (onCtx _ >>= _ : FileM IoResult) t = _
  rw [Proc.bind_run, onCtx, Proc.zoom]
  cases sfsIoNolock buf f.pos len write t.ctx with
  | ok r c => rfl
  | err e c => rfl
  | panic p => rfl

/-- **One call of the file layer** through the descriptor: what it makes of the file, and where the position is. -/
theorem fileCall_cases (h : Opened s pid fd m f) (hmode : Allowed f write) (hlen : len < 2 ^ 64) :
    (∃ p, fileCall pid fd buf len write s = .panic (.fs p)) ∨
    ∃ r c, fileCall pid fd buf len write s = .ok r { s with files := moved s.files pid fd c (f.pos + r.alen) } ∧
      fileIo pid fd buf len write s.files = .ok r (moved s.files pid fd c (f.pos + r.alen)) ∧
      sfsIoNolock buf f.pos len write s.files.ctx = .ok r c ∧ Transferred write buf f.pos len s.files.ctx r c ∧ r.ret ≤ 0 ∧
      Opened { s with files := moved s.files pid fd c (f.pos + r.alen) } pid fd m { f with pos := f.pos + r.alen } := by
  obtain ⟨R, hR, -⟩ := h.sound.inv
  have hio := @fileIo_run pid fd len f buf write s.files h.found hmode
  have hends := h.sound.io buf f.pos write hlen
  unfold fileCall inFiles
  cases hrun : sfsIoNolock buf f.pos len write s.files.ctx with
  | ok r c =>
    rw [hrun] at hio hends
    have hcoded := sfsIoNolock_coded h.coded h.sound.type hlen hrun
    refine .inr ⟨r, c, ?_, hio, rfl, sfsIoNolock_transferred hR h.sound.type hlen hrun, hcoded.1, hends, hcoded.2,
      find_moved h.found c _, h.sorted⟩
    rw [Proc.bind_run, Proc.attempt, Proc.within, hio]
    rfl
  | err e c => exact absurd hrun (sfsIoNolock_ne_err h.sound.type hlen)
  | panic p =>
    rw [hrun] at hio
    refine .inl ⟨p, ?_⟩
    rw [Proc.bind_run, Proc.attempt, Proc.within, hio]

/-! ## The copies -/

/-- Bytes go to the process if and only if it may write to all of the range. -/
theorem copyOut_cases (src : Bytes) (h : (s.vm.mm m).Sorted) (hbase : base < 2 ^ 64) (hpos : 0 < len) (hlen : len < 2 ^ 64) :
    ∃ vm, s.vm.SameAreas vm m ∧
      ((s.vm.mm m).Accessible base len true ∧
        copyOut (some m) base src len s = .ok true { s with vm := vm, mem := memcpy s.mem base src 0 len } ∨
      ¬ (s.vm.mm m).Accessible base len true ∧ copyOut (some m) base src len s = .ok false { s with vm := vm }) := by
  obtain ⟨vm, hsame, hcopy⟩ := copyToUser_spec s.mem src h hbase hpos hlen
  refine ⟨vm, hsame, hcopy.imp ?_ ?_⟩
  · rintro ⟨hac, hrun⟩
    refine ⟨hac, ?_⟩
    rw [copyOut, Proc.get_bind, Proc.bind_run, inVm, Proc.within, hrun]
    rfl
  · rintro ⟨hac, hrun⟩
    refine ⟨hac, ?_⟩
    rw [copyOut, Proc.get_bind, Proc.bind_run, inVm, Proc.within, hrun]
    rfl

/-- Bytes come from the process if and only if it may read all of the range. -/
theorem copyIn_cases (dst : Bytes) (h : (s.vm.mm m).Sorted) (hbase : base < 2 ^ 64) (hpos : 0 < len) (hlen : len < 2 ^ 64) :
    ∃ vm, s.vm.SameAreas vm m ∧
      ((s.vm.mm m).Accessible base len false ∧
        copyIn (some m) dst base len s = .ok (true, memcpy dst 0 s.mem base len) { s with vm := vm } ∨
      ¬ (s.vm.mm m).Accessible base len false ∧ copyIn (some m) dst base len s = .ok (false, dst) { s with vm := vm }) := by
  obtain ⟨vm, hsame, hcopy⟩ := copyFromUser_spec s.mem dst h hbase hpos hlen
  refine ⟨vm, hsame, hcopy.imp ?_ ?_⟩
  · rintro ⟨hac, hrun⟩
    refine ⟨hac, ?_⟩
    rw [copyIn, Proc.get_bind, inVm, Proc.within, hrun]
  · rintro ⟨hac, hrun⟩
    refine ⟨hac, ?_⟩
    rw [copyIn, Proc.get_bind, inVm, Proc.within, hrun]

/-- Lookups do not close the descriptor. -/
theorem Opened.looked {vm : Vm} (h : Opened s pid fd m f) (hsame : s.vm.SameAreas vm m) (mem : Bytes) :
    Opened { s with vm := vm, mem := mem } pid fd m f := ⟨h.sound, h.coded, h.found, hsame.sorted⟩

/-! ## Reading: one round -/

section ReadRounds

variable {mm : Option Nat} {v : Vars} {s₁ s₂ : State}

theorem readLoop_idle (hlen : v.len ≠ 0) (hcall : fileCall pid fd buffer (min iobufSize v.len) false s = .ok r s₁)
    (h0 : r.alen = 0) : sysfileReadLoop pid fd mm (fuel + 1) buffer v s = .ok (r.ret, v.copied) s₁ := by
  unfold sysfileReadLoop
  rw [if_pos hlen, Proc.bind_ok hcall]
  dsimp only
  rw [if_neg (not_not_intro h0)]
  show (if r.ret ≠ 0 ∨ r.alen = 0 then _ else _ : SysM (Int × Nat)) s₁ = _
  rw [if_pos (Or.inr h0)]
  rfl

/-- The position has been moved, and nothing is counted. -/
theorem readLoop_refused (hlen : v.len ≠ 0) (hcall : fileCall pid fd buffer (min iobufSize v.len) false s = .ok r s₁)
    (hne : r.alen ≠ 0) (hcopy : copyOut mm v.base r.buf r.alen s₁ = .ok false s₂) :
    sysfileReadLoop pid fd mm (fuel + 1) buffer v s = .ok (if r.ret = 0 then -eInval else r.ret, v.copied) s₂ := by
  have hout : (if r.ret = 0 then -eInval else r.ret) ≠ 0 := by
    split
    · decide
    · assumption
  unfold sysfileReadLoop
  rw [if_pos hlen, Proc.bind_ok hcall]
  dsimp only
  rw [if_pos hne, Proc.bind_ok hcopy]
  show (if (if r.ret = 0 then -eInval else r.ret) ≠ 0 ∨ r.alen = 0 then _ else _ : SysM (Int × Nat)) s₂ = _
  rw [if_pos (Or.inl hout)]
  rfl

theorem readLoop_copied (hlen : v.len ≠ 0) (hcall : fileCall pid fd buffer (min iobufSize v.len) false s = .ok r s₁)
    (hne : r.alen ≠ 0) (hle : r.alen ≤ v.len) (hcopy : copyOut mm v.base r.buf r.alen s₁ = .ok true s₂) :
    sysfileReadLoop pid fd mm (fuel + 1) buffer v s =
      if r.ret ≠ 0 then .ok (r.ret, v.copied + r.alen) s₂
      else sysfileReadLoop pid fd mm fuel r.buf (v.advance r.alen) s₂ := by
  have hunfold : sysfileReadLoop pid fd mm (fuel + 1) buffer v s =
      (if r.ret ≠ 0 ∨ r.alen = 0 then pure (r.ret, (v.advance r.alen).copied)
        else sysfileReadLoop pid fd mm fuel r.buf (v.advance r.alen) : SysM (Int × Nat)) s₂ := by
    rw [sysfileReadLoop, if_pos hlen, Proc.bind_ok hcall]
    dsimp only
    rw [if_pos hne, Proc.bind_ok hcopy, if_pos rfl, Proc.check_bind_pos hle]
    rfl
  rw [hunfold]
  by_cases hret : r.ret ≠ 0
  · rw [if_pos hret, if_pos (Or.inl hret)]
    rfl
  · rw [if_neg hret, if_neg (not_or.mpr ⟨hret, hne⟩)]

end ReadRounds

/-! ## Reading: all rounds -/

/-- The bytes that `file_read` has for a caller who asks for `len`, one buffer after another. -/
def handed (pid fd : Nat) : Nat → Bytes → Nat → FileSys → Nat
  | 0, _, _, _                 => 0
  | fuel + 1, buffer, len, t =>
    if len = 0 then 0
    else match fileRead pid fd buffer (min iobufSize len) t with
      | .ok r t' => if r.ret ≠ 0 ∨ r.alen = 0 then r.alen else r.alen + handed pid fd fuel r.buf (len - r.alen) t'
      | .err _ _ => 0
      | .panic _ => 0

/-- The process may write to the memory for `n` bytes, or there are none. -/
def Fits (s : State) (m base n : Nat) : Prop := n = 0 ∨ (s.vm.mm m).Accessible base n true

/-- `n` bytes have come to the process, and the position has been moved by `k`. -/
structure ReadRun (s : State) (pid fd : Nat) (f : File) (base n k : Nat) (s' : State) : Prop where
  found : fileOf s' pid fd = some { f with pos := f.pos + k }
  bytes : ∀ i, i < n → s'.mem (base + i) = s.files.ctx.stored (f.pos.toNat + i)
  before : ∀ a, a < base → s'.mem a = s.mem a
  range : k ≠ 0 → 0 ≤ f.pos ∧ f.pos.toNat + k ≤ sfsMaxFileSize

theorem ioLimit_le_max (c : SfsCtx) (offset len : Nat) (write : Bool) : ioLimit c offset len write ≤ sfsMaxFileSize := by
  unfold ioLimit
  split <;> omega

theorem range_max {c c' : SfsCtx} {offset : Int} (h : Transferred write buf offset len c r c') (hne : r.alen ≠ 0) :
    0 ≤ offset ∧ offset.toNat + r.alen ≤ sfsMaxFileSize :=
  ⟨(h.range hne).1, (h.range hne).2.trans (ioLimit_le_max ..)⟩

/-- A descriptor that is moved twice. -/
theorem moved_twice (f : File) (a k : Nat) : { f with pos := f.pos + a + k } = { f with pos := f.pos + (a + k : Nat) } := by
  rw [Int.natCast_add, Int.add_assoc]

theorem ReadRun.none (hfound : fileOf s' pid fd = some f) (hmem : s'.mem = s.mem) : ReadRun s pid fd f base 0 0 s' := by
  refine ⟨?_, fun i hi => absurd hi (Nat.not_lt_zero i), fun a _ => by rw [hmem], fun hc => absurd rfl hc⟩
  rw [hfound, Int.natCast_zero, Int.add_zero]

/-- The bytes of a round that does not reach the process. -/
theorem ReadRun.lost {c : SfsCtx} (ht : Transferred false buf f.pos len s.files.ctx r c) (hne : r.alen ≠ 0)
    (hfound : fileOf s' pid fd = some { f with pos := f.pos + r.alen }) (hmem : s'.mem = s.mem) :
    ReadRun s pid fd f base 0 r.alen s' :=
  ⟨hfound, fun i hi => absurd hi (Nat.not_lt_zero i), fun a _ => by rw [hmem], fun _ => range_max ht hne⟩

/-- The bytes of a round, before those of the others. -/
theorem ReadRun.next {c : SfsCtx} {vm : Vm} {n k : Nat} (ht : Transferred false buf f.pos len s.files.ctx r c) (hne : r.alen ≠ 0)
    (hrest : ReadRun { files := moved s.files pid fd c (f.pos + r.alen), vm := vm, mem := memcpy s.mem base r.buf 0 r.alen }
      pid fd { f with pos := f.pos + r.alen } (base + r.alen) n k s') :
    ReadRun s pid fd f base (r.alen + n) (r.alen + k) s' := by
  obtain ⟨hpos, hmax⟩ := range_max ht hne
  refine ⟨?_, fun i hi => ?_, fun a ha => ?_, fun _ => ⟨hpos, ?_⟩⟩
  · rw [← moved_twice]
    exact hrest.found
  · by_cases hin : i < r.alen
    · rw [hrest.before _ (Nat.add_lt_add_left hin base)]
      show memcpy s.mem base r.buf 0 r.alen (base + i) = _
      rw [memcpy_in (by omega), Nat.zero_add, Nat.add_sub_cancel_left]
      exact ht.data rfl i hin
    · have hbyte := hrest.bytes (i - r.alen) (by omega)
      have hplace : base + r.alen + (i - r.alen) = base + i := by omega
      have hfile : (f.pos + r.alen).toNat + (i - r.alen) = f.pos.toNat + i := by omega
      rw [hplace] at hbyte
      refine hbyte.trans ?_
      show c.stored ((f.pos + r.alen).toNat + (i - r.alen)) = _
      rw [hfile, ht.stored, if_neg fun hc => Bool.false_ne_true hc.1]
  · rw [hrest.before a (by omega)]
    show memcpy s.mem base r.buf 0 r.alen a = _
    rw [memcpy_out (by omega)]
  · by_cases hk : k = 0
    · rw [hk, Nat.add_zero]
      exact hmax
    · have hrange := (hrest.range hk).2
      have hfile : (f.pos + r.alen).toNat = f.pos.toNat + r.alen := by omega
      have hrange' : (f.pos + r.alen).toNat + k ≤ sfsMaxFileSize := hrange
      omega

/-- How the loop ends, when the file has `t` bytes: all of them have come to the process, or one of the copies was refused. -/
def ReadEnds (fits : Prop) (t n k : Nat) (ret : Int) : Prop := fits ∧ n = t ∧ k = t ∨ ¬ fits ∧ n < k ∧ ret < 0

theorem handed_step {t t' : FileSys} (hlen : len ≠ 0) (hio : fileIo pid fd buffer (min iobufSize len) false t = .ok r t') :
    handed pid fd (fuel + 1) buffer len t =
      if r.ret ≠ 0 ∨ r.alen = 0 then r.alen else r.alen + handed pid fd fuel r.buf (len - r.alen) t' := by
  rw [handed, if_neg hlen, fileRead, hio]

/-- A range that is refused at its start is refused. -/
theorem not_fits {n k : Nat} (hno : ¬ (s.vm.mm m).Accessible base n true) (hn : n ≠ 0) : ¬ Fits s m base (n + k) := by
  rintro (h0 | hac)
  · omega
  · exact hno (Mm.accessible_add.mp hac).1

/-- Past a part that is not refused, the rest decides. -/
theorem fits_next {n k : Nat} {t : State} (hac : (s.vm.mm m).Accessible base n true)
    (hlist : (t.vm.mm m).mmapList = (s.vm.mm m).mmapList) : Fits s m base (n + k) ↔ Fits t m (base + n) k := by
  constructor
  · rintro (h0 | hall)
    · exact .inl (by omega)
    · exact .inr ((Mm.accessible_congr hlist).mpr (Mm.accessible_add.mp hall).2)
  · rintro (rfl | hrest)
    · exact .inr hac
    · exact .inr (Mm.accessible_add.mpr ⟨hac, (Mm.accessible_congr hlist).mp hrest⟩)

theorem ReadEnds.next {fits fits' : Prop} {t n k : Nat} {ret : Int} (a : Nat) (h : ReadEnds fits t n k ret) (hiff : fits' ↔ fits) :
    ReadEnds fits' (a + t) (a + n) (a + k) ret := by
  rcases h with ⟨hfits, rfl, rfl⟩ | ⟨hno, hlt, hret⟩
  · exact .inl ⟨hiff.mpr hfits, rfl, rfl⟩
  · exact .inr ⟨fun hc => hno (hiff.mp hc), Nat.add_lt_add_left hlt a, hret⟩

/-- **The loop of `sysfile_read`.** It ends, unless the file system stops the machine. -/
theorem readLoop_run (fuel : Nat) : ∀ {s : State} {f : File} {buffer : Bytes} {v : Vars}, Opened s pid fd m f →
    f.readable = true → v.base < 2 ^ 64 → v.len < 2 ^ 64 → v.len < fuel →
    (sysfileReadLoop pid fd (some m) fuel buffer v s).Meets
      (fun out s' => out.1 ≤ 0 ∧ ∃ n k, out.2 = v.copied + n ∧ ReadRun s pid fd f v.base n k s' ∧
        ReadEnds (Fits s m v.base (handed pid fd fuel buffer v.len s.files)) (handed pid fd fuel buffer v.len s.files) n k out.1)
      (fun _ _ => False) (fun p => ∃ q, p = .fs q) := by
  induction fuel with
  | zero => exact fun _ _ _ _ hfuel => absurd hfuel (Nat.not_lt_zero _)
  | succ fuel ih =>
    intro s f buffer v h hr hbase hsmall hfuel
    by_cases hlen : v.len = 0
    · have hrun : sysfileReadLoop pid fd (some m) (fuel + 1) buffer v s = .ok (0, v.copied) s := by
        rw [sysfileReadLoop, if_neg (not_not_intro hlen)]
        rfl
      have hhand : handed pid fd (fuel + 1) buffer v.len s.files = 0 := by
        rw [handed, if_pos hlen]
      rw [hrun, hhand]
      exact ⟨Int.le_refl 0, 0, 0, rfl, .none h.found rfl, .inl ⟨.inl rfl, rfl, rfl⟩⟩
    have hchunk : min iobufSize v.len < 2 ^ 64 := lt_of_le_of_lt (Nat.min_le_right ..) hsmall
    rcases @fileCall_cases s pid fd m _ f buffer false h hr hchunk with ⟨p, hrun⟩ | ⟨r, c, hcall, hio, -, ht, hret, hopen⟩
    · have hstop : sysfileReadLoop pid fd (some m) (fuel + 1) buffer v s = .panic (.fs p) := by
        rw [sysfileReadLoop, if_pos hlen, Proc.bind_panic hrun]
      rw [hstop]
      exact ⟨p, rfl⟩
    have hle : r.alen ≤ v.len := ht.alen_le.trans (Nat.min_le_right ..)
    rw [handed_step hlen hio]
    by_cases h0 : r.alen = 0
    · rw [readLoop_idle hlen hcall h0, if_pos (Or.inr h0)]
      have hfound : fileOf { s with files := moved s.files pid fd c (f.pos + r.alen) } pid fd = some f := by
        rw [hopen.found, h0, Int.natCast_zero, Int.add_zero]
      exact ⟨hret, 0, 0, rfl, .none hfound rfl, .inl ⟨.inl h0, h0.symm, h0.symm⟩⟩
    have hbound : r.alen < 2 ^ 64 := lt_of_le_of_lt hle hsmall
    obtain ⟨vm, hsame, ⟨hac, hcopy⟩ | ⟨hno, hcopy⟩⟩ := copyOut_cases r.buf hopen.sorted hbase (Nat.pos_of_ne_zero h0) hbound
    · rw [readLoop_copied hlen hcall h0 hle hcopy]
      have hcopied := hopen.looked hsame (memcpy s.mem v.base r.buf 0 r.alen)
      have hsum : (v.base + r.alen) % 2 ^ 64 = v.base + r.alen := Nat.mod_eq_of_lt hac.1
      by_cases hend : r.ret ≠ 0
      · rw [if_pos hend, if_pos (Or.inl hend)]
        exact ⟨hret, _, _, rfl, .next ht h0 (.none hcopied.found rfl), .inl ⟨.inr hac, rfl, rfl⟩⟩
      · -- the other rounds start behind the bytes of this one
        have hshort : (v.advance r.alen).len < v.len := Nat.sub_lt (Nat.pos_of_ne_zero hlen) (Nat.pos_of_ne_zero h0)
        have hnext := @ih _ _ r.buf (v.advance r.alen) hcopied hr (Nat.mod_lt _ (by decide)) (hshort.trans hsmall) (by omega)
        rw [if_neg hend, if_neg (not_or.mpr ⟨hend, h0⟩)]
        refine hnext.imp ?_ (fun _ _ hc => hc) fun _ hp => hp
        rintro out s' ⟨hout, n, k, hn, hrest, hends⟩
        have hbase' : (v.advance r.alen).base = v.base + r.alen := hsum
        rw [hbase'] at hrest hends
        refine ⟨hout, r.alen + n, r.alen + k, ?_, .next ht h0 hrest, hends.next r.alen (fits_next hac hsame.list)⟩
        rw [hn]
        exact Nat.add_assoc ..
    · rw [readLoop_refused hlen hcall h0 hcopy]
      have hneg : (if r.ret = 0 then -eInval else r.ret) < 0 := by
        split
        · decide
        · omega
      refine ⟨Int.le_of_lt hneg, 0, r.alen, rfl, .lost ht h0 hopen.found rfl, .inr ⟨?_, Nat.pos_of_ne_zero h0, hneg⟩⟩
      split
      · rw [← Nat.add_zero r.alen]
        exact not_fits hno h0
      · exact not_fits hno h0

/-! ## Writing: one round -/

section WriteRounds

variable {mm : Option Nat} {v : Vars} {s₁ s₂ : State}

theorem writeLoop_refused (hlen : v.len ≠ 0) (hcopy : copyIn mm buffer v.base (min iobufSize v.len) s = .ok (false, buf) s₁) :
    sysfileWriteLoop pid fd mm (fuel + 1) buffer v s = .ok (-eInval, v.copied) s₁ := by
  have hcode : -eInval ≠ 0 := by decide
  unfold sysfileWriteLoop
  rw [if_pos hlen, Proc.bind_ok hcopy]
  dsimp only
  rw [if_neg Bool.false_ne_true, Proc.pure_bind']
  dsimp only
  rw [if_pos (Or.inl hcode)]
  rfl

theorem writeLoop_called (hlen : v.len ≠ 0) (hcopy : copyIn mm buffer v.base (min iobufSize v.len) s = .ok (true, buf) s₁)
    (hcall : fileCall pid fd buf (min iobufSize v.len) true s₁ = .ok r s₂) (hle : r.alen ≤ v.len) :
    sysfileWriteLoop pid fd mm (fuel + 1) buffer v s =
      if r.ret ≠ 0 ∨ r.alen = 0 then .ok (r.ret, v.copied + r.alen) s₂
      else sysfileWriteLoop pid fd mm fuel buf (v.advance r.alen) s₂ := by
  rw [sysfileWriteLoop, if_pos hlen, Proc.bind_ok hcopy]
  dsimp only
  rw [if_pos rfl, Proc.bind_ok hcall]
  by_cases h0 : r.alen = 0
  · rw [if_neg (not_not_intro h0), if_pos (Or.inr h0), Proc.pure_bind']
    dsimp only
    rw [if_pos (Or.inr h0), h0]
    rfl
  · rw [if_pos h0, Proc.check_bind_pos hle]
    show (if r.ret ≠ 0 ∨ r.alen = 0 then pure (r.ret, (v.advance r.alen).copied)
      else sysfileWriteLoop pid fd mm fuel buf (v.advance r.alen) : SysM (Int × Nat)) s₂ = _
    by_cases hend : r.ret ≠ 0 ∨ r.alen = 0
    · rw [if_pos hend, if_pos hend]
      rfl
    · rw [if_neg hend, if_neg hend]

end WriteRounds

/-! ## Writing: all rounds -/

/-- The process has the first bytes, the file layer sets about writing them, and none gets into the file. -/
structure Stalls (s : State) (m : Nat) (f : File) (buffer : Bytes) (base len : Nat) : Prop where
  accessible : (s.vm.mm m).Accessible base (min iobufSize len) false
  transfers : IoTransfers s.files.ctx f.pos (min iobufSize len) true
  none : ∃ r c, sfsIoNolock (memcpy buffer 0 s.mem base (min iobufSize len)) f.pos (min iobufSize len) true s.files.ctx = .ok r c ∧
    r.alen = 0

/-- `n` bytes of the process have come into the file, and the position has been moved by as many. -/
structure WriteRun (s : State) (pid fd : Nat) (f : File) (base n : Nat) (s' : State) : Prop where
  found : fileOf s' pid fd = some { f with pos := f.pos + n }
  stored : ∀ p, s'.files.ctx.stored p =
    if f.pos.toNat ≤ p ∧ p < f.pos.toNat + n then s.mem (base + (p - f.pos.toNat)) else s.files.ctx.stored p
  size_le : s.files.ctx.sin.din.size ≤ s'.files.ctx.sin.din.size
  range : n ≠ 0 → 0 ≤ f.pos ∧ f.pos.toNat + n ≤ sfsMaxFileSize ∧ f.pos.toNat + n ≤ s'.files.ctx.sin.din.size

theorem Stalls.len_ne_zero (h : Stalls s m f buffer base len) : len ≠ 0 := by
  rintro rfl
  have hlt := h.transfers.2.2.2
  rw [Nat.min_zero] at hlt
  unfold ioLimit at hlt
  split at hlt <;> omega

/-- What the size is when no byte has come into the file. -/
def WriteEnds (s : State) (f : File) (stalls : Prop) (n : Nat) (ret : Int) (s' : State) : Prop :=
  n = 0 ∧ stalls ∧ ret < 0 ∧ s'.files.ctx.sin.din.size = max s.files.ctx.sin.din.size f.pos.toNat ∨
    ¬ stalls ∧ (n = 0 → s'.files.ctx.sin.din.size = s.files.ctx.sin.din.size)

theorem WriteRun.none (hfound : fileOf s' pid fd = some f)
    (hstored : ∀ p, s'.files.ctx.stored p = s.files.ctx.stored p)
    (hsize : s.files.ctx.sin.din.size ≤ s'.files.ctx.sin.din.size) : WriteRun s pid fd f base 0 s' := by
  refine ⟨?_, fun p => ?_, hsize, fun hc => absurd rfl hc⟩
  · rw [hfound, Int.natCast_zero, Int.add_zero]
  · rw [if_neg (by omega), hstored]

/-- A round in which the file layer gives no byte to the file. -/
theorem WriteEnds.idle {c : SfsCtx} {vm : Vm} (hac : (s.vm.mm m).Accessible base (min iobufSize len) false)
    (hio : sfsIoNolock (memcpy buffer 0 s.mem base (min iobufSize len)) f.pos (min iobufSize len) true s.files.ctx = .ok r c)
    (ht : Transferred true (memcpy buffer 0 s.mem base (min iobufSize len)) f.pos (min iobufSize len) s.files.ctx r c)
    (h0 : r.alen = 0) (hret : r.ret ≤ 0) :
    WriteEnds s f (Stalls s m f buffer base len) 0 r.ret
      { s with files := moved s.files pid fd c (f.pos + r.alen), vm := vm } := by
  by_cases htr : IoTransfers s.files.ctx f.pos (min iobufSize len) true
  · have hfail := ht.failed h0 htr
    exact .inl ⟨rfl, ⟨hac, htr, r, c, hio, h0⟩, by omega, hfail.2⟩
  · have hsize : c.sin.din.size = s.files.ctx.sin.din.size := by rw [ht.idle htr]
    exact .inr ⟨fun hs => htr hs.transfers, fun _ => hsize⟩

/-- The outcome of the first call is only one. -/
theorem not_stalls {c : SfsCtx}
    (hio : sfsIoNolock (memcpy buffer 0 s.mem base (min iobufSize len)) f.pos (min iobufSize len) true s.files.ctx = .ok r c)
    (hne : r.alen ≠ 0) : ¬ Stalls s m f buffer base len := by
  rintro ⟨-, -, r', c', hio', h0'⟩
  cases hio.symm.trans hio'
  exact hne h0'

/-- The bytes of a round, before those of the others. -/
theorem WriteRun.next {c : SfsCtx} {vm : Vm} {n : Nat}
    (ht : Transferred true (memcpy buffer 0 s.mem base len) f.pos len s.files.ctx r c) (hne : r.alen ≠ 0)
    (hrest : WriteRun { files := moved s.files pid fd c (f.pos + r.alen), vm := vm, mem := s.mem }
      pid fd { f with pos := f.pos + r.alen } (base + r.alen) n s') :
    WriteRun s pid fd f base (r.alen + n) s' := by
  obtain ⟨hpos, hmax⟩ := range_max ht hne
  have hfile : (f.pos + r.alen).toNat = f.pos.toNat + r.alen := by omega
  have hreach := ht.reach hne
  have hgrow : c.sin.din.size ≤ s'.files.ctx.sin.din.size := hrest.size_le
  refine ⟨?_, fun p => ?_, ht.size_le.trans hgrow, fun _ => ⟨hpos, ?_, ?_⟩⟩
  · rw [← moved_twice]
    exact hrest.found
  · have hbyte := hrest.stored p
    dsimp only at hbyte
    rw [hfile] at hbyte
    rw [hbyte]
    by_cases hlater : f.pos.toNat + r.alen ≤ p ∧ p < f.pos.toNat + r.alen + n
    · have hplace : base + r.alen + (p - (f.pos.toNat + r.alen)) = base + (p - f.pos.toNat) := by omega
      rw [if_pos hlater, if_pos (by omega), hplace]
    · rw [if_neg hlater]
      refine (ht.stored p).trans ?_
      by_cases hin : f.pos.toNat ≤ p ∧ p < f.pos.toNat + r.alen
      · have halen := ht.alen_le
        rw [if_pos ⟨rfl, hin⟩, if_pos (by omega), memcpy_in (by omega), Nat.sub_zero]
      · rw [if_neg fun hc => hin hc.2, if_neg (by omega)]
  · by_cases hn : n = 0
    · rw [hn, Nat.add_zero]
      exact hmax
    · have hlast := (hrest.range hn).2.1
      dsimp only at hlast
      omega
  · by_cases hn : n = 0
    · omega
    · have hlast := (hrest.range hn).2.2
      dsimp only at hlast
      omega

/-- **The loop of `sysfile_write`.** It ends, unless the file system stops the machine. -/
theorem writeLoop_run (fuel : Nat) : ∀ {s : State} {f : File} {buffer : Bytes} {v : Vars}, Opened s pid fd m f →
    f.writable = true → v.base < 2 ^ 64 → v.len < 2 ^ 64 → v.len < fuel →
    (sysfileWriteLoop pid fd (some m) fuel buffer v s).Meets
      (fun out s' => out.1 ≤ 0 ∧ ∃ n, out.2 = v.copied + n ∧ WriteRun s pid fd f v.base n s' ∧
        WriteEnds s f (Stalls s m f buffer v.base v.len) n out.1 s')
      (fun _ _ => False) (fun p => ∃ q, p = .fs q) := by
  induction fuel with
  | zero => exact fun _ _ _ _ hfuel => absurd hfuel (Nat.not_lt_zero _)
  | succ fuel ih =>
    intro s f buffer v h hw hbase hsmall hfuel
    by_cases hlen : v.len = 0
    · have hrun : sysfileWriteLoop pid fd (some m) (fuel + 1) buffer v s = .ok (0, v.copied) s := by
        rw [sysfileWriteLoop, if_neg (not_not_intro hlen)]
        rfl
      rw [hrun]
      refine ⟨Int.le_refl 0, 0, rfl, .none h.found (fun _ => rfl) (Nat.le_refl _), .inr ⟨fun hs => ?_, fun _ => rfl⟩⟩
      exact absurd hlen hs.len_ne_zero
    have hchunk : min iobufSize v.len < 2 ^ 64 := lt_of_le_of_lt (Nat.min_le_right ..) hsmall
    have hpos : 0 < min iobufSize v.len := lt_min (by decide) (Nat.pos_of_ne_zero hlen)
    obtain ⟨vm, hsame, ⟨hac, hcopy⟩ | ⟨hno, hcopy⟩⟩ := copyIn_cases buffer h.sorted hbase hpos hchunk
    · have hcopied := h.looked hsame s.mem
      rcases @fileCall_cases _ pid fd m _ f (memcpy buffer 0 s.mem v.base (min iobufSize v.len)) true hcopied hw hchunk with
        ⟨p, hrun⟩ | ⟨r, c, hcall, -, hio, ht, hret, hopen⟩
      · have hstop : sysfileWriteLoop pid fd (some m) (fuel + 1) buffer v s = .panic (.fs p) := by
          rw [sysfileWriteLoop, if_pos hlen, Proc.bind_ok hcopy]
          dsimp only
          rw [if_pos rfl, Proc.bind_panic hrun]
        rw [hstop]
        exact ⟨p, rfl⟩
      have hle : r.alen ≤ v.len := ht.alen_le.trans (Nat.min_le_right ..)
      rw [writeLoop_called hlen hcopy hcall hle]
      by_cases h0 : r.alen = 0
      · have hfound : fileOf { s with files := moved s.files pid fd c (f.pos + r.alen), vm := vm } pid fd = some f := by
          rw [hopen.found, h0, Int.natCast_zero, Int.add_zero]
        rw [if_pos (Or.inr h0)]
        refine ⟨hret, 0, congrArg (v.copied + ·) h0, .none hfound (fun p => ?_) ht.size_le, .idle hac hio ht h0 hret⟩
        refine (ht.stored p).trans (if_neg ?_)
        omega
      have hgoes : ¬ Stalls s m f buffer v.base v.len := not_stalls hio h0
      by_cases hend : r.ret ≠ 0
      · rw [if_pos (Or.inl hend)]
        have hlast := WriteRun.next ht h0 (.none hopen.found (fun _ => rfl) (Nat.le_refl _))
        exact ⟨hret, _, rfl, hlast, .inr ⟨hgoes, fun hc => absurd hc h0⟩⟩
      · -- the other rounds start behind the bytes of this one
        have hshort : (v.advance r.alen).len < v.len := Nat.sub_lt (Nat.pos_of_ne_zero hlen) (Nat.pos_of_ne_zero h0)
        have hsum : v.base + r.alen < 2 ^ 64 := by
          have halen := ht.alen_le
          have htop := hac.1
          omega
        have hbase' : (v.advance r.alen).base = v.base + r.alen := Nat.mod_eq_of_lt hsum
        have hnext := @ih _ _ (memcpy buffer 0 s.mem v.base (min iobufSize v.len)) (v.advance r.alen) hopen hw
          (Nat.mod_lt _ (by decide)) (hshort.trans hsmall) (by omega)
        rw [if_neg (not_or.mpr ⟨hend, h0⟩)]
        refine hnext.imp ?_ (fun _ _ hc => hc) fun _ hp => hp
        rintro out s' ⟨hout, n, hn, hrest, -⟩
        rw [hbase'] at hrest
        refine ⟨hout, r.alen + n, ?_, .next ht h0 hrest, .inr ⟨hgoes, fun hc => by omega⟩⟩
        rw [hn]
        exact Nat.add_assoc ..
    · have hcode : -eInval ≤ 0 := by decide
      rw [writeLoop_refused hlen hcopy]
      exact ⟨hcode, 0, rfl, .none h.found (fun _ => rfl) (Nat.le_refl _), .inr ⟨fun hs => hno hs.accessible, fun _ => rfl⟩⟩

end Ucore.Sysfile
