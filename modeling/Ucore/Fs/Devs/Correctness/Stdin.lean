import Ucore.Fs.Devs.Stdin
import Ucore.Lib.RingBuffer
import Ucore.Lib.Simulates
import Ucore.Process.Correctness.Positions
import Ucore.Process.Correctness.System

/-!
# `Fs.Devs.Correctness.Stdin` — the keyboard buffer is a queue, as long as it is not full

`Fifo`: the characters that were accepted are those that were delivered and those that are unread, in this order; and what a
call has stored is the end of what its process was given. Every step keeps it, but for a character that comes when the buffer
is full: `dev_stdin_write` stores it before it looks whether there is room.

Without the characters the system is the one of `Process.System` (`step_sys`, `sys_step`).
-/

namespace Ucore.Stdin

variable {d d' : Dev} {s s' : Console} {l : Label} {k k' : Kern} {c : UInt8} {left : Nat} {r : Option Nat} {α : Type}

/-- What is still to be read. -/
def Dev.unread (d : Dev) : List UInt8 := contents stdinBufsize d.stdinBuffer d.k.rpos d.k.wpos

/-- What the process `p` has been given by all its calls. -/
def Dev.readBy (d : Dev) (p : Nat) : List UInt8 := (d.delivered.filter fun x => x.1 = p).map Prod.snd

/-- **The invariant.** -/
structure Dev.Fifo (d : Dev) : Prop where
  low : d.k.rpos ≤ d.k.wpos
  room : d.k.wpos ≤ d.k.rpos + stdinBufsize
  order : d.accepted = d.delivered.map Prod.snd ++ d.unread
  readers : ∀ p, d.buf p <:+ d.readBy p

/-- The buffer is not full, or the character is the same as the oldest one in it. -/
def Dev.HasRoom (d : Dev) (c : UInt8) : Prop := c ≠ 0 → d.unread.length = stdinBufsize → d.unread.head? = some c

def Room (s : Console) : Label → Prop
  | .key c => s.dev.HasRoom c
  | _      => True

theorem unread_length (d : Dev) : d.unread.length = d.k.wpos - d.k.rpos := length_contents ..

/-! ## What the functions do -/

theorem Dev.Fifo.congr (h : d.Fifo) (hpos : SamePos d.k k) : ({ d with k := k } : Dev).Fifo := by
  have hunread : ({ d with k := k } : Dev).unread = d.unread := by rw [Dev.unread, Dev.unread, hpos.rpos, hpos.wpos]
  refine ⟨?_, ?_, ?_, h.readers⟩
  · rw [hpos.rpos, hpos.wpos]
    exact h.low
  · rw [hpos.rpos, hpos.wpos]
    exact h.room
  · rw [hunread]
    exact h.order

theorem inKern_ok {x : KernM α} {a : α} (hx : Keeps SamePos x) (h : inKern x d = .ok a d') :
    ∃ k, SamePos d.k k ∧ d' = { d with k := k } := by
  obtain ⟨k, hrun, rfl⟩ := Proc.within_eq_ok.mp h
  exact ⟨k, hx.ok hrun, rfl⟩

theorem Dev.Fifo.inKern {x : KernM α} {a : α} (h : d.Fifo) (hx : Keeps SamePos x) (hrun : inKern x d = .ok a d') : d'.Fifo := by
  obtain ⟨k, hpos, rfl⟩ := inKern_ok hx hrun
  exact h.congr hpos

theorem readBy_store_self : (d.store c).readBy d.k.current = d.readBy d.k.current ++ [c] := by
  simp [Dev.readBy, Dev.store]

theorem readBy_store_of_ne {p : Nat} (hp : p ≠ d.k.current) : (d.store c).readBy p = d.readBy p := by
  simp [Dev.readBy, Dev.store, hp.symm]

/-- The oldest character goes to the process that is running. -/
theorem Dev.Fifo.store (h : d.Fifo) (hlt : d.k.rpos < d.k.wpos) :
    (d.store (d.stdinBuffer (d.k.rpos % stdinBufsize))).Fifo where
  low := hlt
  room := Nat.le_trans h.room (Nat.add_le_add_right (Nat.le_succ _) _)
  order := by
    have hfront : d.unread = d.stdinBuffer (d.k.rpos % stdinBufsize) ::
        (d.store (d.stdinBuffer (d.k.rpos % stdinBufsize))).unread := contents_front hlt
    have horder := h.order
    rw [hfront] at horder
    show d.accepted = (d.delivered ++ [_]).map Prod.snd ++ _
    rw [List.map_append, List.append_assoc]
    exact horder
  readers := by
    intro p
    by_cases hp : p = d.k.current
    · subst hp
      rw [readBy_store_self]
      show Function.update d.buf d.k.current (d.buf d.k.current ++ [_]) d.k.current <:+ _
      rw [Function.update_self]
      obtain ⟨before, heq⟩ := h.readers d.k.current
      exact ⟨before, by rw [← heq, List.append_assoc]⟩
    · rw [readBy_store_of_ne hp]
      show Function.update d.buf d.k.current (d.buf d.k.current ++ [_]) p <:+ _
      rw [Function.update_of_ne hp]
      exact h.readers p

theorem Dev.Fifo.clear (h : d.Fifo) : d.clear.Fifo where
  low := h.low
  room := h.room
  order := h.order
  readers := by
    intro p
    by_cases hp : p = d.k.current
    · subst hp
      show Function.update d.buf d.k.current [] d.k.current <:+ _
      rw [Function.update_self]
      exact List.nil_suffix
    · show Function.update d.buf d.k.current [] p <:+ _
      rw [Function.update_of_ne hp]
      exact h.readers p

/-- **The loop of `dev_stdin_read`**, by induction on the characters that are left. -/
theorem Dev.Fifo.readLoop (left : Nat) : ∀ {d : Dev}, d.Fifo → readLoop left d = .ok r d' → d'.Fifo := by
  induction left with
  | zero =>
    intro d h hrun
    cases hrun
    exact h
  | succ left ih =>
    intro d h hrun
    rw [Stdin.readLoop, Proc.get_bind] at hrun
    by_cases hlt : d.k.rpos < d.k.wpos
    · rw [if_pos hlt, Proc.modify_bind] at hrun
      exact ih (h.store hlt) hrun
    · rw [if_neg hlt] at hrun
      obtain ⟨_, d₁, hset, hend⟩ := Proc.bind_eq_ok.mp hrun
      cases hend
      exact h.inKern (SamePos.waitCurrentSet _ _) hset

theorem Dev.Fifo.resume (h : d.Fifo) (hrun : devStdinResume left d = .ok r d') : d'.Fifo := by
  obtain ⟨_, d₁, hdel, hrest⟩ := Proc.bind_eq_ok.mp hrun
  have h₁ := h.inKern (SamePos.waitCurrentDel _) hdel
  rw [Proc.get_bind] at hrest
  split at hrest
  · exact h₁.readLoop left hrest
  · cases hrest
    exact h₁

/-! ## `dev_stdin_write` -/

/-- The buffer after the character has been stored, and the position moved if there was room. -/
def Dev.put (d : Dev) (c : UInt8) : Dev := if d.k.wpos - d.k.rpos < stdinBufsize then (d.setChar c).advance c else d.setChar c

/-- Then the readers are woken. -/
theorem devStdinWrite_ok (hc : c ≠ 0) (h : devStdinWrite c d = .ok () d') :
    ∃ k, SamePos (d.put c).k k ∧ d' = { d.put c with k := k } := by
  rw [devStdinWrite, if_pos hc, Proc.modify_bind, Proc.modify_bind, Proc.get_bind] at h
  have hput : (if (d.setChar c).k.wpos - (d.setChar c).k.rpos < stdinBufsize then (d.setChar c).advance c else d.setChar c) =
    d.put c := rfl
  rw [hput] at h
  split at h
  · exact inKern_ok (SamePos.wakeupQueue _ _) h
  · cases h
    exact ⟨_, ⟨rfl, rfl⟩, rfl⟩

/-- There is room. -/
theorem put_lt (h : d.Fifo) (hlt : d.unread.length < stdinBufsize) :
    (d.put c).unread = d.unread ++ [c] ∧ (d.put c).accepted = d.accepted ++ [c] ∧ (d.put c).Fifo := by
  rw [unread_length] at hlt
  have hlow := h.low
  have hroom : d.k.wpos < d.k.rpos + stdinBufsize := by omega
  have hput : d.put c = (d.setChar c).advance c := if_pos hlt
  have hunread : (d.put c).unread = d.unread ++ [c] := by
    rw [hput]
    exact contents_push hlow hroom
  refine ⟨hunread, by rw [hput]; rfl, ?_, ?_, ?_, ?_⟩
  · rw [hput]
    exact Nat.le_succ_of_le h.low
  · rw [hput]
    exact hroom
  · rw [hunread, ← List.append_assoc, hput]
    show d.accepted ++ [c] = _
    rw [h.order]
    rfl
  · rw [hput]
    exact h.readers

/-- There is none, and the oldest character is overwritten. -/
theorem put_full (h : d.Fifo) (hfull : d.unread.length = stdinBufsize) :
    d.put c = d.setChar c ∧ ∃ old rest, d.unread = old :: rest ∧ (d.put c).unread = c :: rest := by
  rw [unread_length] at hfull
  have hB : 0 < stdinBufsize := by decide
  have hlow := h.low
  have hwpos : d.k.wpos = d.k.rpos + stdinBufsize := by omega
  have hput : d.put c = d.setChar c := if_neg hfull.not_lt
  refine ⟨hput, _, _, contents_front (by omega), ?_⟩
  rw [hput]
  exact contents_overwrite hB hwpos

theorem unread_le (h : d.Fifo) : d.unread.length ≤ stdinBufsize := by
  have hroom := h.room
  rw [unread_length]
  omega

/-- **Where the character goes**, if there are readers or none. -/
theorem put_fifo (h : d.Fifo) (hc : c ≠ 0) : (d.put c).Fifo ↔ d.HasRoom c := by
  rcases (unread_le h).lt_or_eq with hlt | hfull
  · exact ⟨fun _ _ hfull => absurd hfull hlt.ne, fun _ => (put_lt h hlt).2.2⟩
  · obtain ⟨hput, old, rest, hold, hnew⟩ := put_full (c := c) h hfull
    have haccepted : (d.put c).accepted = d.delivered.map Prod.snd ++ old :: rest := by
      rw [hput, ← hold]
      exact h.order
    have hdelivered : (d.put c).delivered = d.delivered := by rw [hput]; rfl
    constructor
    · intro hfifo _ _
      have horder := hfifo.order
      rw [haccepted, hdelivered, hnew] at horder
      rw [hold, (List.cons.inj (List.append_cancel_left horder)).1]
      rfl
    · intro hroom
      have hsame : some old = some c := by
        rw [← hroom hc hfull, hold]
        rfl
      refine ⟨?_, ?_, ?_, ?_⟩
      · rw [hput]
        exact h.low
      · rw [hput]
        exact h.room
      · rw [haccepted, hdelivered, hnew, Option.some.inj hsame]
      · rw [hput]
        exact h.readers

/-! ## The other steps -/

theorem other_samePos {s s' : Sys} {l : Ucore.Label} (hother : Other s l) (h : Ucore.Step s l s') : SamePos s.k s'.k := by
  cases h with
  | @call c _ _ _ hpc hok hrun =>
    refine (SamePos.start (c := c) ?_).ok hrun
    rintro len rfl
    exact hother
  | switch hpc hrun => exact SamePos.schedule.ok hrun
  | @resume b _ _ _ hpc hrun =>
    refine (SamePos.resume (b := b) ?_).ok hrun
    rintro left rfl
    exact hother left hpc
  | tick hrun => exact SamePos.runTimerList.ok hrun
  | key hrun => exact hother.elim

/-- **The step lemma.** -/
theorem step_fifo (h : s.dev.Fifo) (hroom : Room s l) (hs : Step s l s') : s'.dev.Fifo := by
  cases hs with
  | other hother hstep => exact h.congr (other_samePos hother hstep)
  | read hpc hok hrun =>
    rw [devStdinRead, Proc.modify_bind] at hrun
    exact h.clear.readLoop _ hrun
  | resume hpc hrun => exact h.resume hrun
  | key hc hrun =>
    obtain ⟨k, hpos, rfl⟩ := devStdinWrite_ok hc hrun
    exact ((put_fifo h hc).mpr hroom).congr hpos
  | nul hrun =>
    cases hrun
    exact h

/-- **The run lemma.** -/
theorem reaches_fifo (h : Reaches Start Step Room s) : s.dev.Fifo := by
  refine h.invariant (I := fun s => s.dev.Fifo) ?_ fun _ _ _ hi hroom hs => step_fifo hi hroom hs
  rintro s ⟨⟨semValue, -, p, -, hinit, -, -⟩, hbuf, haccepted, hdelivered⟩
  have hpos := (SamePos.procInit p).ok hinit
  have hr : s.dev.k.rpos = 0 := hpos.rpos
  have hw : s.dev.k.wpos = 0 := hpos.wpos
  refine ⟨by rw [hr, hw], by rw [hr, hw]; exact Nat.zero_le _, ?_, fun p => ?_⟩
  · rw [haccepted, hdelivered, Dev.unread, contents_nil (by rw [hr, hw])]
    rfl
  · rw [hbuf]
    exact List.nil_suffix

/-- What a character does, in a state with the invariant. -/
theorem key_step (h : s.dev.Fifo) (hs : Step s (.key c) s') :
    (s'.dev.Fifo ↔ Room s (.key c)) ∧ s'.dev.delivered = s.dev.delivered ∧
    (c ≠ 0 → s.dev.unread.length < stdinBufsize → s'.dev.accepted = s.dev.accepted ++ [c]) ∧
    (s.dev.unread.length = stdinBufsize →
      s'.dev.accepted = s.dev.accepted ∧ (s'.dev.unread = s.dev.unread ↔ Room s (.key c))) := by
  cases hs with
  | @key _ dev hc hrun =>
    obtain ⟨k, hpos, rfl⟩ := devStdinWrite_ok hc hrun
    have hfifo : ({ s.dev.put c with k := k } : Dev).Fifo ↔ s.dev.HasRoom c := by
      rw [← put_fifo h hc]
      exact ⟨fun hh => hh.congr (k := (s.dev.put c).k) ⟨hpos.rpos.symm, hpos.wpos.symm⟩, fun hh => hh.congr hpos⟩
    have hunread : ({ s.dev.put c with k := k } : Dev).unread = (s.dev.put c).unread := by
      rw [Dev.unread, Dev.unread, hpos.rpos, hpos.wpos]
    have hdelivered : (s.dev.put c).delivered = s.dev.delivered := by
      rw [Dev.put]
      split
      · rfl
      · rfl
    refine ⟨hfifo, hdelivered, fun _ hlt => (put_lt h hlt).2.1, fun hfull => ?_⟩
    obtain ⟨hput, old, rest, hold, hnew⟩ := put_full (c := c) h hfull
    have haccepted : (s.dev.put c).accepted = s.dev.accepted := by rw [hput]; rfl
    refine ⟨haccepted, ?_⟩
    show ({ s.dev.put c with k := k } : Dev).unread = s.dev.unread ↔ s.dev.HasRoom c
    rw [hunread, hnew, hold, Dev.HasRoom, hold]
    constructor
    · intro heq _ _
      rw [(List.cons.inj heq).1]
      rfl
    · intro hroom
      rw [Option.some.inj (hroom hc (hold ▸ hfull))]
  | nul hrun =>
    cases hrun
    refine ⟨⟨fun _ hc => absurd rfl hc, fun _ => h⟩, rfl, fun hc => absurd rfl hc, fun _ => ⟨rfl, ?_⟩⟩
    exact ⟨fun _ hc => absurd rfl hc, fun _ => rfl⟩

/-- **The keyboard buffer.** In every run in which no character comes to a full buffer, what was accepted is what was
delivered and what is unread, in the order of arrival, each character to one reader. A character that does come to a full
buffer takes the place of the oldest one. -/
theorem stdin_fifo (h : Reaches Start Step Room s) : s.dev.Fifo ∧ ∀ c s', Step s (.key c) s' →
    (s'.dev.Fifo ↔ Room s (.key c)) ∧ s'.dev.delivered = s.dev.delivered ∧
    (c ≠ 0 → s.dev.unread.length < stdinBufsize → s'.dev.accepted = s.dev.accepted ++ [c]) ∧
    (s.dev.unread.length = stdinBufsize →
      s'.dev.accepted = s.dev.accepted ∧ (s'.dev.unread = s.dev.unread ↔ Room s (.key c))) :=
  ⟨reaches_fifo h, fun _ _ hs => key_step (reaches_fifo h) hs⟩

/-! ## The same system without the characters -/

/-- The states of the kernel are the same. -/
abbrev SameKern (d : Dev) (k : Kern) : Prop := d.k = k

theorem inKern_simulates (x : KernM α) : Simulates SameKern id (inKern x) x :=
  .within x (fun _ _ h => h) fun _ _ _ _ => rfl

theorem readLoop_simulates (left : Nat) : Simulates SameKern id (readLoop left) (Ucore.devStdinRead left) := by
  induction left with
  | zero => exact .of_pure none
  | succ left ih =>
    rintro d _ rfl
    rw [readLoop, Ucore.devStdinRead, Proc.get_bind, Proc.get_bind]
    by_cases hlt : d.k.rpos < d.k.wpos
    · rw [if_pos hlt, if_pos hlt]
      exact ih _ _ rfl
    · rw [if_neg hlt, if_neg hlt]
      exact (Simulates.bind (inKern_simulates _) fun _ => .of_pure _) d d.k rfl

theorem devStdinRead_simulates (len : Nat) : Simulates SameKern id (devStdinRead len) (Ucore.devStdinRead len) := by
  rintro d _ rfl
  exact readLoop_simulates len d.clear d.k rfl

theorem devStdinResume_simulates (left : Nat) : Simulates SameKern id (devStdinResume left) (Ucore.devStdinResume left) := by
  refine .bind (inKern_simulates _) fun _ => .of_get ?_
  rintro d _ rfl
  exact .ite (readLoop_simulates left) (.of_pure none)

theorem devStdinWrite_simulates (hc : c ≠ 0) : Simulates SameKern id (devStdinWrite c) Ucore.devStdinWrite := by
  rw [devStdinWrite, if_pos hc, Ucore.devStdinWrite]
  refine .step (fun _ => True) (fun d k h => ⟨(), d.setChar c, rfl, h, trivial⟩) fun _ _ => .bind ?_ fun _ => .of_get ?_
  · rintro d _ rfl
    refine .ok () ?_
    show (ite _ (d.advance c) d).k = ite _ _ d.k
    split
    · rfl
    · rfl
  · rintro d _ rfl
    exact .ite (inKern_simulates _) (.of_pure ())

/-- A step is one of the system without the characters, or the character is a NUL. -/
theorem step_sys (h : Step s l s') : s'.sys = s.sys ∨ ∃ l', Ucore.Step s.sys l' s'.sys := by
  cases h with
  | other hother hstep => exact .inr ⟨_, hstep⟩
  | @read len r dev hpc hok hrun =>
    obtain ⟨k, hread, hk⟩ := (devStdinRead_simulates len).ok rfl hrun
    obtain rfl : dev.k = k := hk
    have hstart : (Call.read len).start s.dev.k = .ok (.other, readPc r) dev.k := by
      rw [Call.start, readGo, Proc.bind_ok hread]
      cases r with
      | none => rfl
      | some left => rfl
    exact .inr ⟨.call (.read len), .call hpc hok hstart⟩
  | @resume left r dev hpc hrun =>
    obtain ⟨k, hread, hk⟩ := (devStdinResume_simulates left).ok rfl hrun
    obtain rfl : dev.k = k := hk
    have hresume : (Blocked.read left).resume s.dev.k = .ok (.other, readPc r) dev.k := by
      rw [Blocked.resume, Proc.bind_ok hread]
      cases r with
      | none => rfl
      | some left => rfl
    exact .inr ⟨.resume, .resume hpc hresume⟩
  | @key c dev hc hrun =>
    obtain ⟨k, hwrite, hk⟩ := (devStdinWrite_simulates hc).ok rfl hrun
    obtain rfl : dev.k = k := hk
    exact .inr ⟨.key, .key hwrite⟩
  | nul hrun =>
    cases hrun
    exact .inl rfl

/-- So the kernel is in a state that it can get to, and its invariant holds. -/
theorem reaches_sys {ok : Console → Label → Prop} (h : Reaches Start Step ok s) : SysReaches s.sys := by
  refine h.invariant (I := fun s => SysReaches s.sys) (fun _ h => .start h.1) fun s l s' hi _ hs => ?_
  rcases step_sys hs with hsame | ⟨l', hstep⟩
  · rw [hsame]
    exact hi
  · exact hi.next trivial hstep

/-- The interleavings are those of the system: to each of its steps there is one here, with any character. -/
theorem sys_step {sys : Sys} {l : Ucore.Label} (h : Ucore.Step s.sys l sys) (hc : c ≠ 0) : ∃ l' s', Step s l' s' ∧ s'.sys = sys ∧
    (l = .key → l' = .key c) := by
  by_cases hother : Other s.sys l
  · refine ⟨.other l, _, .other hother h, rfl, ?_⟩
    rintro rfl
    exact hother.elim
  · cases h with
    | @call call e pc k hpc hok hrun =>
      cases call with
      | read len =>
        obtain ⟨r, k', hread, hend⟩ := Proc.bind_eq_ok.mp hrun
        obtain ⟨dev, hdev, hk⟩ := (devStdinRead_simulates len).ok_of (s := s.dev) rfl hread
        refine ⟨.read len, _, .read hpc hok hdev, ?_, Ucore.Label.noConfusion⟩
        obtain rfl : dev.k = k' := hk
        cases r with
        | none =>
          cases hend
          rfl
        | some left =>
          cases hend
          rfl
      | _ => exact absurd trivial hother
    | switch hpc hrun => exact absurd trivial hother
    | @resume b e pc k hpc hrun =>
      cases b with
      | read left =>
        obtain ⟨r, k', hread, hend⟩ := Proc.bind_eq_ok.mp hrun
        obtain ⟨dev, hdev, hk⟩ := (devStdinResume_simulates left).ok_of (s := s.dev) rfl hread
        refine ⟨.resume, _, .resume hpc hdev, ?_, Ucore.Label.noConfusion⟩
        obtain rfl : dev.k = k' := hk
        cases r with
        | none =>
          cases hend
          rfl
        | some left =>
          cases hend
          rfl
      | _ => exact absurd (fun left hcon => nomatch hpc.symm.trans hcon) hother
    | tick hrun => exact absurd trivial hother
    | key hrun =>
      obtain ⟨dev, hdev, hk⟩ := (devStdinWrite_simulates hc).ok_of (s := s.dev) rfl hrun
      refine ⟨.key c, _, .key hc hdev, ?_, fun _ => rfl⟩
      obtain rfl := hk
      rfl

/-! ## A full buffer -/

/-- The system, where no character has come yet. -/
def bootConsole (sys : Sys) : Console where
  dev := { k := sys.k, stdinBuffer := fun _ => 0, buf := fun _ => [], accepted := [], delivered := [] }
  pc := sys.pc
  events := sys.events

/-- `initproc` runs, and nobody waits for a character. -/
theorem exists_ready : ∃ sys, Reaches Start Step Room (bootConsole sys) ∧ sys.k.current = 1 ∧ sys.k.idleproc = 0 ∧
    sys.pc 1 = .run ∧ sys.k.waitQueue .stdin = [] ∧ sys.k.rpos = 0 ∧ sys.k.wpos = 0 := by
  have hrun : ((Sys.boot (fun _ => 1) 1).bind fun s => (s.next (.call .yield)).bind fun s => s.next .switch).map
      (fun s => (s.k.current, s.k.idleproc, s.pc 1, s.k.waitQueue .stdin, s.k.rpos, s.k.wpos)) =
      some (1, 0, .run, [], 0, 0) := by decide +kernel
  obtain ⟨s₂, hboot, hfacts⟩ := Option.map_eq_some_iff.mp hrun
  obtain ⟨s₀, hs₀, hsteps⟩ := Option.bind_eq_some_iff.mp hboot
  obtain ⟨s₁, hs₁, hs₂⟩ := Option.bind_eq_some_iff.mp hsteps
  have hinit : SysInit s₀ := ⟨fun _ => 1, fun _ => Int.one_nonneg, sysStart_boot (by decide) hs₀⟩
  have hstart : Reaches Start Step Room (bootConsole s₀) := .start ⟨hinit, rfl, rfl, rfl⟩
  have hyield : Step (bootConsole s₀) (.other (.call .yield)) (bootConsole s₁) := .other trivial (Sys.step_of_next hs₁)
  have hswitch : Step (bootConsole s₁) (.other .switch) (bootConsole s₂) := .other trivial (Sys.step_of_next hs₂)
  have hroom : ∀ s l, Room s (.other l) := fun _ _ => trivial
  simp only [Prod.mk.injEq] at hfacts
  exact ⟨s₂, (hstart.next (hroom _ _) hyield).next (hroom _ _) hswitch, hfacts⟩

/-- With nobody to wake. -/
theorem devStdinWrite_quiet (hc : c ≠ 0) (hq : d.k.waitQueue .stdin = []) : devStdinWrite c d = .ok () (d.put c) := by
  have hput : (d.put c).k.waitQueue = d.k.waitQueue := by
    rw [Dev.put]
    split
    · rfl
    · rfl
  rw [devStdinWrite, if_pos hc, Proc.modify_bind, Proc.modify_bind, Proc.get_bind]
  show (if (d.put c).k.waitQueue .stdin ≠ [] then _ else pure () : DevM Unit) (d.put c) = _
  rw [hput, if_neg (not_not.mpr hq)]
  rfl

/-- A character that comes while nobody waits. -/
theorem key_quiet (hc : c ≠ 0) (hq : s.dev.k.waitQueue .stdin = []) :
    ∃ s', Step s (.key c) s' ∧ s'.dev = s.dev.put c ∧ s'.pc = s.pc := by
  have hkey : Step s (.key c) (s.move (s.dev.put c) .other (s.pc s.dev.k.current)) := .key hc (devStdinWrite_quiet hc hq)
  refine ⟨_, hkey, rfl, funext fun p => ?_⟩
  show (if p = s.dev.k.current then s.pc s.dev.k.current else if Event.other = .fork p then Pc.run else s.pc p) = s.pc p
  split
  · next hp => rw [hp]
  · rfl

/-- The same character comes `n` times. -/
theorem exists_typed (n : Nat) (hn : n ≤ stdinBufsize) : ∃ s, Reaches Start Step Room s ∧ s.dev.accepted = List.replicate n 97 ∧
    s.dev.delivered = [] ∧ s.dev.k.current = 1 ∧ s.dev.k.idleproc = 0 ∧ s.pc 1 = .run ∧ s.dev.k.waitQueue .stdin = [] ∧
    s.dev.k.rpos = 0 ∧ s.dev.k.wpos = n := by
  induction n with
  | zero =>
    obtain ⟨sys, hreach, hcur, hidle, hpc, hq, hr, hw⟩ := exists_ready
    exact ⟨_, hreach, rfl, rfl, hcur, hidle, hpc, hq, hr, hw⟩
  | succ n ih =>
    obtain ⟨s, hreach, hacc, hdel, hcur, hidle, hpc, hq, hr, hw⟩ := ih (Nat.le_of_succ_le hn)
    obtain ⟨s', hkey, hdev, hpc'⟩ := key_quiet (c := 97) (by decide) hq
    have hlt : s.dev.k.wpos - s.dev.k.rpos < stdinBufsize := by
      rw [hr, hw]
      exact hn
    have hput : s'.dev = (s.dev.setChar 97).advance 97 := hdev.trans (if_pos hlt)
    have hroom : Room s (.key 97) := fun _ hfull => absurd hfull (by rw [unread_length]; exact hlt.ne)
    refine ⟨s', hreach.next hroom hkey, ?_, ?_, ?_, ?_, ?_, ?_, ?_, ?_⟩
    · rw [hput, List.replicate_succ', ← hacc]
      rfl
    · rw [hput]
      exact hdel
    · rw [hput]
      exact hcur
    · rw [hput]
      exact hidle
    · rw [hpc']
      exact hpc
    · rw [hput]
      exact hq
    · rw [hput]
      exact hr
    · rw [hput]
      exact congrArg Nat.succ hw

/-- A read of one character. -/
theorem devStdinRead_one (hlt : d.k.rpos < d.k.wpos) :
    devStdinRead 1 d = .ok none (d.clear.store (d.stdinBuffer (d.k.rpos % stdinBufsize))) := by
  rw [devStdinRead, Proc.modify_bind, readLoop, Proc.get_bind]
  exact congrFun (if_pos hlt) d.clear

/-- After 4096 times `a` a `b` comes. It is not accepted, and yet the next reader gets it. -/
theorem stdin_overwrites : ∃ s s' s'', Reaches Start Step Room s ∧ Step s (.key 98) s' ∧ Step s' (.read 1) s'' ∧
    s.dev.unread = List.replicate stdinBufsize 97 ∧ s'.dev.accepted = s.dev.accepted ∧ s'.dev.unread ≠ s.dev.unread ∧
    s''.dev.accepted = List.replicate stdinBufsize 97 ∧ s''.dev.delivered = [(1, 98)] ∧ ¬ s'.dev.Fifo := by
  obtain ⟨s, hreach, hacc, hdel, hcur, hidle, hpc, hq, hr, hw⟩ := exists_typed stdinBufsize (Nat.le_refl _)
  obtain ⟨s', hkey, hdev, hpc'⟩ := key_quiet (c := 98) (by decide) hq
  have hfifo := reaches_fifo hreach
  have hunread : s.dev.unread = List.replicate stdinBufsize 97 := by
    have horder := hfifo.order
    rw [hacc, hdel] at horder
    exact horder.symm
  have hfull : s.dev.unread.length = stdinBufsize := by rw [hunread, List.length_replicate]
  have hput : s'.dev = s.dev.setChar 98 := hdev.trans (put_full hfifo hfull).1
  have hnoRoom : ¬ Room s (.key 98) := by
    intro hroom
    have hhead := hroom (by decide) hfull
    rw [hunread, List.head?_replicate, if_neg (by decide)] at hhead
    exact absurd hhead (by decide)
  obtain ⟨hkept, -, -, hdropped⟩ := key_step hfifo hkey
  obtain ⟨hacc', hunread'⟩ := hdropped hfull
  -- the cell of the oldest character
  have hr' : s'.dev.k.rpos = 0 := by rw [hput]; exact hr
  have hw' : s'.dev.k.wpos = stdinBufsize := by rw [hput]; exact hw
  have hcur' : s'.dev.k.current = 1 := by rw [hput]; exact hcur
  have hidle' : s'.dev.k.idleproc = 0 := by rw [hput]; exact hidle
  have hcell : s'.dev.stdinBuffer (s'.dev.k.rpos % stdinBufsize) = 98 := by
    rw [hr', hput]
    show Function.update s.dev.stdinBuffer (s.dev.k.wpos % stdinBufsize) 98 (0 % stdinBufsize) = 98
    rw [hw, Nat.mod_self, Nat.zero_mod, Function.update_self]
  have hread := devStdinRead_one (d := s'.dev) (by rw [hr', hw']; decide)
  rw [hcell] at hread
  have hok : (Call.read 1).Ok s'.dev.k := by
    show s'.dev.k.current ≠ s'.dev.k.idleproc
    rw [hcur', hidle']
    decide
  have hrun : s'.pc s'.dev.k.current = .run := by rw [hcur', hpc']; exact hpc
  refine ⟨s, s', _, hreach, hkey, .read hrun hok hread, hunread, hacc', fun heq => hnoRoom (hunread'.mp heq), ?_, ?_,
    fun hcon => hnoRoom (hkept.mp hcon)⟩
  · show s'.dev.accepted = _
    rw [hacc', hacc]
  · show s'.dev.delivered ++ [(s'.dev.k.current, 98)] = _
    rw [hcur', hput]
    show s.dev.delivered ++ _ = _
    rw [hdel]
    rfl

/-- The first character is accepted. -/
theorem stdin_fifo_first : ∃ s s', Reaches Start Step Room s ∧ Step s (.key 97) s' ∧ s.dev.Fifo ∧ s'.dev.Fifo ∧
    s'.dev.accepted = [97] := by
  obtain ⟨s, hreach, hacc, -, -, -, -, hq, hr, hw⟩ := exists_typed 0 (Nat.zero_le _)
  obtain ⟨s', hkey, -, -⟩ := key_quiet (c := 97) (by decide) hq
  have hlen : s.dev.unread.length = 0 := by rw [unread_length, hr, hw]
  obtain ⟨hfifo, hkeys⟩ := stdin_fifo hreach
  obtain ⟨hkept, -, htaken, -⟩ := hkeys 97 s' hkey
  refine ⟨s, s', hreach, hkey, hfifo, hkept.mpr fun _ hfull => ?_, ?_⟩
  · exact absurd (hlen.symm.trans hfull) (by decide)
  · rw [htaken (by decide) (by rw [hlen]; decide), hacc]
    rfl

end Ucore.Stdin
