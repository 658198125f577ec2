import Ucore.Process.System

/-!
# `Process.Correctness.Positions` — who moves the positions of the keyboard buffer

`p_rpos` and `p_wpos` belong to `dev_stdin.c`. Whatever else the kernel does leaves them where they are (`SamePos`).
-/

namespace Ucore

/-- The positions are the same. -/
structure SamePos (k k' : Kern) : Prop where
  rpos : k'.rpos = k.rpos
  wpos : k'.wpos = k.wpos

instance : Std.Refl SamePos := ⟨fun _ => ⟨rfl, rfl⟩⟩

instance : IsTrans Kern SamePos := ⟨fun _ _ _ h h' => ⟨h'.rpos.trans h.rpos, h'.wpos.trans h.wpos⟩⟩

namespace SamePos

variable {α β : Type} {k k' : Kern}

theorem of_modify {f : Kern → Kern} (h : ∀ k, SamePos k (f k)) : Keeps SamePos (Proc.modify f : KernM Unit) := h

/-- The current state is looked at. -/
theorem of_get {f : Kern → KernM α} (h : ∀ k, (f k k).Leaves (SamePos k)) : Keeps SamePos (Proc.get >>= f) := h

/-- The state is replaced. -/
theorem put_bind {f : Unit → KernM α} (h : SamePos k k') (hf : Keeps SamePos (f ())) :
    ((Proc.put k' >>= f : KernM α) k).Leaves (SamePos k) := (hf k').imp fun _ h' => trans_of SamePos h h'

theorem check_bind {p : KernPanic} {c : Prop} [Decidable c] {f : Unit → KernM α} (hf : c → (f () k).Leaves (SamePos k)) :
    ((Proc.check p c >>= f : KernM α) k).Leaves (SamePos k) := by
  by_cases h : c
  · rw [Proc.check_bind_pos h]
    exact hf h
  · rw [Proc.check_bind_neg h]
    trivial

theorem modSome (k : Kern) (o : Option Nat) (f : ProcStruct → ProcStruct) : SamePos k (k.modSome o f) := by
  cases o with
  | none => exact ⟨rfl, rfl⟩
  | some p => exact ⟨rfl, rfl⟩

/-! ## `sched.c` -/

theorem schedClassEnqueue (p : Nat) : Keeps SamePos (schedClassEnqueue p) := by
  refine .bind .of_get fun k => ?_
  split
  · exact of_get fun k => check_bind fun _ => ⟨rfl, rfl⟩
  · exact .of_pure _

theorem wakeupProc (p : Nat) : Keeps SamePos (wakeupProc p) := by
  refine .bind (of_modify fun _ => ⟨rfl, rfl⟩) fun _ => of_get fun k => check_bind fun _ => ?_
  split
  · refine put_bind ⟨rfl, rfl⟩ ?_
    split
    · exact schedClassEnqueue p
    · exact .of_pure _
  · exact ⟨rfl, rfl⟩

theorem schedule : Keeps SamePos schedule := by
  have hyield : Keeps SamePos yieldCurrent := by
    refine .bind (of_modify fun _ => ⟨rfl, rfl⟩) fun _ => .bind .of_get fun k => ?_
    split
    · exact schedClassEnqueue _
    · exact .of_pure _
  refine .bind hyield fun _ => .bind (.bind .of_get fun _ => .of_pure _) fun next => ?_
  cases next with
  | none => exact of_modify fun _ => ⟨rfl, rfl⟩
  | some p =>
    refine .bind (of_get fun k => check_bind fun _ => ⟨rfl, rfl⟩) fun _ => ?_
    exact of_modify fun _ => ⟨rfl, rfl⟩

theorem addTimer (t : Timer) : Keeps SamePos (addTimer t) :=
  of_get fun _ => check_bind fun _ => check_bind fun _ => ⟨rfl, rfl⟩

theorem delTimer (link : Nat) : Keeps SamePos (delTimer link) := of_modify fun _ => ⟨rfl, rfl⟩

theorem expireLoop : ∀ ts : List Timer, Keeps SamePos (expireLoop ts)
  | []        => .of_pure _
  | t :: rest => by
    rw [Ucore.expireLoop]
    split
    · refine .bind .of_get fun k => .bind (.of_check _ _) fun _ => .bind (wakeupProc _) fun _ => ?_
      exact .bind (delTimer _) fun _ => expireLoop rest
    · exact .of_pure _

theorem procTick (p : Nat) : Keeps SamePos (schedClassProcTick p) := by
  refine .bind .of_get fun k => ?_
  split
  · exact of_modify fun _ => ⟨rfl, rfl⟩
  · exact of_modify fun _ => ⟨rfl, rfl⟩

theorem runTimerList : Keeps SamePos runTimerList := by
  have hlast : Keeps SamePos (Proc.get >>= fun k => schedClassProcTick k.current) := .bind .of_get fun k => procTick _
  refine of_get fun k => ?_
  cases k.timerList with
  | nil => exact hlast k
  | cons t rest => exact check_bind fun _ => put_bind ⟨rfl, rfl⟩ (.bind (expireLoop _) fun _ => hlast)

/-! ## `wait.c` and `sem.c` -/

theorem waitQueueDel (q : QueueId) (p : Nat) : Keeps SamePos (waitQueueDel q p) :=
  of_get fun _ => check_bind fun _ => ⟨rfl, rfl⟩

theorem wakeupWait (q : QueueId) (p flags : Nat) : Keeps SamePos (wakeupWait q p flags) :=
  .bind (waitQueueDel q p) fun _ => .bind (of_modify fun _ => ⟨rfl, rfl⟩) fun _ => wakeupProc p

theorem wakeupQueueLoop (q : QueueId) (flags : Nat) : ∀ fuel, Keeps SamePos (wakeupQueueLoop q flags fuel)
  | 0        => .of_stop _
  | fuel + 1 => by
    refine .bind .of_get fun k => ?_
    split
    · exact .of_pure _
    · exact .bind (wakeupWait _ _ _) fun _ => wakeupQueueLoop q flags fuel

theorem wakeupQueue (q : QueueId) (flags : Nat) : Keeps SamePos (wakeupQueue q flags) :=
  .bind .of_get fun _ => wakeupQueueLoop _ _ _

theorem waitCurrentSet (q : QueueId) (waitState : Nat) : Keeps SamePos (waitCurrentSet q waitState) := by
  refine .bind .of_get fun k => .bind (of_modify fun _ => ⟨rfl, rfl⟩) fun _ => .bind (of_modify fun _ => ⟨rfl, rfl⟩) fun _ => ?_
  exact of_get fun _ => check_bind fun _ => ⟨rfl, rfl⟩

theorem waitCurrentDel (q : QueueId) : Keeps SamePos (waitCurrentDel q) := by
  refine .bind .of_get fun k => ?_
  split
  · exact waitQueueDel q _
  · exact .of_pure _

theorem up (i : Nat) : Keeps SamePos (up i) := by
  refine of_get fun k => ?_
  cases k.waitQueue (.sem i) with
  | nil => exact ⟨rfl, rfl⟩
  | cons p _ => exact check_bind fun _ => wakeupWait _ p _ k

theorem downStart (i : Nat) : Keeps SamePos (downStart i) := by
  refine of_get fun k => ?_
  split
  · exact ⟨rfl, rfl⟩
  · exact (Keeps.bind (waitCurrentSet _ _) fun _ => .of_pure _) k

theorem downEnd (i : Nat) : Keeps SamePos (downEnd i) :=
  .bind (waitCurrentDel _) fun _ => .bind .of_get fun _ => .of_check _ _

theorem tryDown (i : Nat) : Keeps SamePos (tryDown i) := by
  refine of_get fun k => ?_
  split
  · exact ⟨rfl, rfl⟩
  · exact ⟨rfl, rfl⟩

/-! ## `proc.c` -/

theorem setLinks (p : Nat) : Keeps SamePos (setLinks p) := by
  refine .bind .of_get fun k => ?_
  cases (k.proc p).parent with
  | none => exact .of_stop _
  | some q =>
    refine .bind (of_modify fun _ => ⟨rfl, rfl⟩) fun _ => .bind (of_modify fun _ => ⟨rfl, rfl⟩) fun _ => ?_
    exact .bind (of_modify fun k => modSome k _ _) fun _ => of_modify fun _ => ⟨rfl, rfl⟩

theorem getPid : Keeps SamePos getPid := by
  refine of_get fun k => ?_
  cases nextPid (k.procList.map fun p => (k.proc p).pid) { nextSafe := k.nextSafe, lastPid := k.lastPid } with
  | none => trivial
  | some v => exact ⟨rfl, rfl⟩

theorem doFork (p : Nat) : Keeps SamePos (doFork p) := by
  refine .bind .of_get fun k => ?_
  split
  · exact .of_fail _
  · refine .bind (of_modify fun _ => ⟨rfl, rfl⟩) fun _ => .bind (of_modify fun _ => ⟨rfl, rfl⟩) fun _ => .bind .of_get fun k => ?_
    refine .bind (.of_check _ _) fun _ => .bind getPid fun pid => .bind (of_modify fun _ => ⟨rfl, rfl⟩) fun _ => ?_
    refine .bind (of_modify fun _ => ⟨rfl, rfl⟩) fun _ => .bind (setLinks p) fun _ => .bind (wakeupProc p) fun _ => .of_pure _

theorem exitChild (p : Nat) : Keeps SamePos (exitChild p) := by
  refine .bind (of_modify fun _ => ⟨rfl, rfl⟩) fun _ => .bind (of_modify fun _ => ⟨rfl, rfl⟩) fun _ =>
    .bind (of_modify fun k => modSome k _ _) fun _ => .bind (of_modify fun _ => ⟨rfl, rfl⟩) fun _ =>
    .bind (of_modify fun _ => ⟨rfl, rfl⟩) fun _ => .bind .of_get fun k => ?_
  split
  · exact wakeupProc _
  · exact .of_pure _

theorem exitChildren : ∀ fuel, Keeps SamePos (exitChildren fuel)
  | 0        => .of_stop _
  | fuel + 1 => by
    refine .bind .of_get fun k => ?_
    cases (k.proc k.current).cptr with
    | none => exact .of_pure _
    | some p => exact .bind (exitChild p) fun _ => exitChildren fuel

theorem doExit (code : Int) : Keeps SamePos (doExit code) := by
  refine .bind .of_get fun k => .bind (.of_check _ _) fun _ => .bind (.of_check _ _) fun _ =>
    .bind (of_modify fun _ => ⟨rfl, rfl⟩) fun _ => .bind .of_get fun k => ?_
  cases (k.proc k.current).parent with
  | none => exact .bind (.of_stop _) fun _ => exitChildren _
  | some q =>
    dsimp only
    split
    · exact .bind (wakeupProc q) fun _ => exitChildren _
    · exact exitChildren _

theorem waitChildren (haskid : Bool) : ∀ fuel o, Keeps SamePos (waitChildren haskid fuel o)
  | 0, _ => .of_stop _
  | _ + 1, none => .of_pure _
  | fuel + 1, some p => by
    refine .bind .of_get fun k => ?_
    split
    · exact .of_pure _
    · exact waitChildren true fuel _

theorem waitLook (pid : Int) : Keeps SamePos (waitLook pid) := by
  refine .bind .of_get fun k => ?_
  split
  · cases k.findProc pid with
    | none => exact .of_pure _
    | some p =>
      dsimp only
      split
      · split
        · exact .of_pure _
        · exact .of_pure _
      · exact .of_pure _
  · exact waitChildren _ _ _

theorem removeLinks (p : Nat) : Keeps SamePos (removeLinks p) := by
  refine .bind (of_modify fun _ => ⟨rfl, rfl⟩) fun _ => .bind (of_modify fun k => modSome k _ _) fun _ => of_get fun k => ?_
  cases (k.proc p).yptr with
  | some y => exact put_bind ⟨rfl, rfl⟩ (of_modify fun _ => ⟨rfl, rfl⟩)
  | none =>
    cases (k.proc p).parent with
    | some q => exact put_bind ⟨rfl, rfl⟩ (of_modify fun _ => ⟨rfl, rfl⟩)
    | none => trivial

theorem doWait (pid : Int) : Keeps SamePos (doWait pid) := by
  refine .bind (waitLook pid) fun look => ?_
  cases look with
  | bad => exact .of_fail _
  | none => exact .bind (of_modify fun _ => ⟨rfl, rfl⟩) fun _ => .of_pure _
  | found p =>
    have hfound : Keeps SamePos (waitFound p) := by
      refine .bind .of_get fun k => .bind (.of_check _ _) fun _ => .bind (of_modify fun _ => ⟨rfl, rfl⟩) fun _ => ?_
      exact .bind (removeLinks p) fun _ => .bind (of_modify fun _ => ⟨rfl, rfl⟩) fun _ => .of_pure _
    exact .bind hfound fun _ => .of_pure _

theorem doKill (pid : Int) : Keeps SamePos (doKill pid) := by
  refine of_get fun k => ?_
  cases k.findProc pid with
  | none => exact ⟨rfl, rfl⟩
  | some p =>
    dsimp only
    split
    · refine put_bind ⟨rfl, rfl⟩ ?_
      split
      · exact .bind (wakeupProc p) fun _ => .of_pure _
      · exact .bind (.of_pure _) fun _ => .of_pure _
    · exact ⟨rfl, rfl⟩

theorem doSleep (time : Nat) : Keeps SamePos (doSleep time) := by
  rw [Ucore.doSleep]
  split
  · exact .of_pure _
  · exact of_get fun k => put_bind ⟨rfl, rfl⟩ (.bind (addTimer _) fun _ => .of_pure _)

/-! ## Calls -/

theorem exitGo (code : Int) : Keeps SamePos (exitGo code) := .bind .of_get fun _ => .bind (doExit code) fun _ => .of_pure _

theorem waitGo (pid : Int) : Keeps SamePos (waitGo pid) := by
  refine .bind .of_get fun k => .bind (.attempt (doWait pid)) fun r => ?_
  cases r with
  | error e => exact .of_pure _
  | ok o =>
    cases o with
    | none => exact .of_pure _
    | some x => exact .of_pure _

/-- Every call but a read. -/
theorem start {c : Call} (hc : ∀ len, c ≠ .read len) : Keeps SamePos c.start := by
  cases c with
  | yield => exact .of_pure _
  | up i => exact .bind .of_get fun _ => .bind (up i) fun _ => .of_pure _
  | down i =>
    refine .bind .of_get fun _ => .bind (downStart i) fun took => ?_
    split
    · exact .of_pure _
    · exact .of_pure _
  | tryDown i =>
    refine .bind .of_get fun _ => .bind (tryDown i) fun took => ?_
    split
    · exact .of_pure _
    · exact .of_pure _
  | fork p =>
    refine .bind (.attempt (doFork p)) fun r => ?_
    cases r with
    | error e => exact .of_pure _
    | ok o => exact .of_pure _
  | exit code => exact exitGo code
  | wait pid => exact waitGo pid
  | kill pid => exact .bind (.attempt (doKill pid)) fun _ => .of_pure _
  | sleep time =>
    refine .bind (doSleep time) fun done => ?_
    split
    · exact .of_pure _
    · exact .of_pure _
  | read len => exact absurd rfl (hc len)

/-- What comes behind a `schedule` that was not for a read. -/
theorem resume {b : Blocked} (hb : ∀ left, b ≠ .read left) : Keeps SamePos b.resume := by
  cases b with
  | yield => exact .of_pure _
  | down i => exact .bind (downEnd i) fun _ => .of_pure _
  | wait pid =>
    refine .bind .of_get fun k => ?_
    split
    · exact exitGo _
    · exact waitGo pid
  | sleep => exact .bind .of_get fun _ => .bind (delTimer _) fun _ => .of_pure _
  | read left => exact absurd rfl (hb left)
  | exit => exact .of_stop _

theorem procInit (p : Nat) : Keeps SamePos (procInit p) := by
  refine .bind (doFork p) fun pid => of_get fun k => ?_
  cases k.findProc pid with
  | none => trivial
  | some q => exact ⟨rfl, rfl⟩

end SamePos

end Ucore
