import Ucore.Process.Correctness.System

/-!
# `Schedule.Correctness.RoundRobin` — how long a process waits for the processor

The run queue grows at its end only and is taken from at its front only, so nobody is overtaken. What is in front of a process has
a time slice each, and the clock takes one unit of the running one's at every tick: `Kern.ahead` is how many ticks can come
before the process is run.
-/

namespace Ucore

variable {α : Type} {k k' k₁ : Kern} {p q : Nat} {s s' : Sys} {l : Label} {ls : List Label} {front behind : List Nat}
  {f : ProcStruct → ProcStruct}

/-! ## Everything but the scheduler and the clock -/

/-- What a process in the run queue may have left of its time slice. -/
def InSlice (n : Nat) : Prop := 1 ≤ n ∧ n ≤ maxTimeSlice

/-- **`RR_enqueue`** gives a time slice to a process that has none. -/
theorem inSlice_enqueued (k : Kern) (p : Nat) : InSlice ((k.enqueued p).proc p).timeSlice := by
  show InSlice (Function.update k.proc p _ p).timeSlice
  rw [Function.update_self]
  dsimp only
  split
  · exact ⟨by decide, Nat.le_refl _⟩
  · next hin =>
    rw [not_or] at hin
    exact ⟨Nat.pos_of_ne_zero hin.1, Nat.le_of_not_lt hin.2⟩

/-- The queue has at most grown at its end, and neither those in it nor the running process have lost any time. -/
structure Queues (k k' : Kern) : Prop where
  current : k'.current = k.current
  idleproc : k'.idleproc = k.idleproc
  list : ∃ new, k'.runList = k.runList ++ new ∧ ∀ q ∈ new, InSlice (k'.proc q).timeSlice
  slice : ∀ q ∈ k.runList, (k'.proc q).timeSlice = (k.proc q).timeSlice
  running : (k'.proc k.current).timeSlice = (k.proc k.current).timeSlice ∧
    (k'.proc k.current).needResched = (k.proc k.current).needResched

namespace Queues

/-- Nothing of it has changed. -/
theorem of_procs (hproc : ∀ q, (k'.proc q).timeSlice = (k.proc q).timeSlice ∧ (k'.proc q).needResched = (k.proc q).needResched)
    (hcur : k'.current = k.current) (hidle : k'.idleproc = k.idleproc) (hlist : k'.runList = k.runList) : Queues k k' where
  current := hcur
  idleproc := hidle
  list := ⟨[], by rw [hlist, List.append_nil], fun _ hq => absurd hq List.not_mem_nil⟩
  slice q _ := (hproc q).1
  running := hproc k.current

theorem of_same (hproc : k'.proc = k.proc) (hcur : k'.current = k.current) (hidle : k'.idleproc = k.idleproc)
    (hlist : k'.runList = k.runList) : Queues k k' :=
  of_procs (fun q => by rw [hproc]; exact ⟨rfl, rfl⟩) hcur hidle hlist

theorem trans (h : Queues k k₁) (h' : Queues k₁ k') : Queues k k' where
  current := h'.current.trans h.current
  idleproc := h'.idleproc.trans h.idleproc
  list := by
    obtain ⟨new, hlist, hnew⟩ := h.list
    obtain ⟨new', hlist', hnew'⟩ := h'.list
    refine ⟨new ++ new', by rw [hlist', hlist, List.append_assoc], fun q hq => ?_⟩
    rcases List.mem_append.mp hq with hq | hq
    · rw [h'.slice q (by rw [hlist]; exact List.mem_append_right _ hq)]
      exact hnew q hq
    · exact hnew' q hq
  slice q hq := by
    obtain ⟨new, hlist, -⟩ := h.list
    rw [h'.slice q (by rw [hlist]; exact List.mem_append_left _ hq)]
    exact h.slice q hq
  running := by
    have hlater := h'.running
    rw [h.current] at hlater
    exact ⟨hlater.1.trans h.running.1, hlater.2.trans h.running.2⟩

instance : Std.Refl Queues := ⟨fun _ => of_same rfl rfl rfl rfl⟩
instance : IsTrans Kern Queues := ⟨fun _ _ _ => trans⟩

/-- A field of the `proc_struct` that the clock does not use. -/
theorem modProc (hf : ∀ x, (f x).timeSlice = x.timeSlice ∧ (f x).needResched = x.needResched) (k : Kern) (p : Nat) :
    Queues k (k.modProc p f) := by
  refine of_procs (fun q => ?_) rfl rfl rfl
  by_cases hq : q = p
  · rw [hq, Kern.modProc_self]
    exact hf _
  · rw [Kern.modProc_other k f hq]
    exact ⟨rfl, rfl⟩

theorem modSome (hf : ∀ x, (f x).timeSlice = x.timeSlice ∧ (f x).needResched = x.needResched) (k : Kern) (o : Option Nat) :
    Queues k (k.modSome o f) := by
  cases o with
  | none => exact refl_of Queues k
  | some p => exact modProc hf k p

theorem enqueued (hp : p ∉ k.runList) (hcur : p ≠ k.current) : Queues k (k.enqueued p) where
  current := rfl
  idleproc := rfl
  list := by
    refine ⟨[p], rfl, fun q hq => ?_⟩
    obtain rfl := List.mem_singleton.mp hq
    exact inSlice_enqueued k q
  slice q hq := by
    have hqp : q ≠ p := by
      rintro rfl
      exact hp hq
    exact congrArg ProcStruct.timeSlice (Function.update_of_ne hqp _ _)
  running := by
    have hsame : (k.enqueued p).proc k.current = k.proc k.current := Function.update_of_ne hcur.symm _ _
    rw [hsame]
    exact ⟨rfl, rfl⟩

theorem classEnqueued (hp : p ≠ k.idleproc → p ∉ k.runList) (hcur : p ≠ k.current) : Queues k (k.classEnqueued p) := by
  rw [Kern.classEnqueued]
  split
  · next hidle => exact enqueued (hp hidle) hcur
  · exact refl_of Queues k

end Queues

/-- `wakeup_proc` does not queue a process twice. -/
theorem not_mem_of_wakeupProc (h : wakeupProc p k = .ok () k') (hr : (k.proc p).state ≠ .runnable) (hcur : p ≠ k.current)
    (hidle : p ≠ k.idleproc) : p ∉ k.runList := by
  intro hmem
  have hz : ((k.log p).proc p).state ≠ .zombie := by
    intro hz
    rw [wakeupProc, Proc.modify_bind, Proc.get_bind, Proc.check_bind_neg (not_not_intro hz)] at h
    cases h
  rw [wakeupProc, Proc.modify_bind, Proc.get_bind, Proc.check_bind_pos hz] at h
  change (if (k.proc p).state ≠ .runnable then _ else _ : KernM Unit) _ = _ at h
  rw [if_pos hr, Proc.put_bind] at h
  change (if p ≠ k.current then _ else _ : KernM Unit) _ = _ at h
  rw [if_pos hcur, schedClassEnqueue_panic (k := (k.log p).ready p) hidle hmem] at h
  cases h

theorem queues_wakeupProc (p : Nat) : Keeps Queues (wakeupProc p) := by
  intro k
  rcases wakeupProc_cases p k with hrun | hrun | hrun
  · have hlog : Queues k (k.log p) := .of_same rfl rfl rfl rfl
    have hready : Queues k ((k.log p).ready p) := by
      refine hlog.trans (.modProc ?_ _ p)
      exact fun _ => ⟨rfl, rfl⟩
    have hnot := not_mem_of_wakeupProc hrun
    rw [hrun]
    show Queues k (k.woke p)
    rw [Kern.woke]
    split
    · next hr =>
      split
      · next hcur => exact hready.trans (.classEnqueued (hnot hr hcur) hcur)
      · exact hready
    · exact .of_same rfl rfl rfl rfl
  · rw [hrun]
    trivial
  · rw [hrun]
    trivial

section Calls

/-- What is done to the state as it is read. -/
theorem queues_get {x : Kern → KernM α} (h : ∀ k, (x k k).Leaves (Queues k)) : Keeps Queues (Proc.get >>= x) := h

theorem Queues.andThen {x : KernM α} (h : Queues k k₁) (hx : Keeps Queues x) : (x k₁).Leaves (Queues k) :=
  (hx k₁).imp fun _ => h.trans

theorem leaves_check {e : KernPanic} {c : Prop} [Decidable c] {x : Unit → KernM α} (h : c → (x () k).Leaves (Queues k₁)) :
    ((Proc.check e c >>= x) k).Leaves (Queues k₁) := by
  by_cases hc : c
  · rw [Proc.check_bind_pos hc]
    exact h hc
  · rw [Proc.check_bind_neg hc]
    trivial

theorem queues_modProc (hf : ∀ x, (f x).timeSlice = x.timeSlice ∧ (f x).needResched = x.needResched) (p : Nat) :
    Keeps Queues (Proc.modify (fun k : Kern => k.modProc p f) : KernM Unit) := .of_modify fun k => .modProc hf k p

/-! ### Waiting -/

theorem queues_waitQueueDel (q : QueueId) (p : Nat) : Keeps Queues (waitQueueDel q p) :=
  queues_get fun _ => leaves_check fun _ => .of_same rfl rfl rfl rfl

theorem queues_wakeupWait (q : QueueId) (p flags : Nat) : Keeps Queues (wakeupWait q p flags) := by
  refine .bind (queues_waitQueueDel q p) fun _ => .bind (.of_modify fun _ => ?_) fun _ => queues_wakeupProc p
  exact .of_same rfl rfl rfl rfl

theorem queues_wakeupQueueLoop (q : QueueId) (flags : Nat) : ∀ fuel, Keeps Queues (wakeupQueueLoop q flags fuel)
  | 0        => .of_stop _
  | fuel + 1 => by
    refine .bind .of_get fun k => ?_
    split
    · exact .of_pure _
    · exact .bind (queues_wakeupWait _ _ _) fun _ => queues_wakeupQueueLoop q flags fuel

theorem queues_waitCurrentSet (q : QueueId) (ws : Nat) : Keeps Queues (waitCurrentSet q ws) := by
  refine .bind .of_get fun k => .bind (.of_modify fun _ => .of_same rfl rfl rfl rfl) fun _ => .bind ?_ fun _ => ?_
  · refine .of_modify fun k => .modProc ?_ k k.current
    exact fun _ => ⟨rfl, rfl⟩
  · exact queues_get fun _ => leaves_check fun _ => .of_same rfl rfl rfl rfl

theorem queues_waitCurrentDel (q : QueueId) : Keeps Queues (waitCurrentDel q) := by
  refine .bind .of_get fun k => ?_
  split
  · exact queues_waitQueueDel q _
  · exact .of_pure _

theorem queues_up (i : Nat) : Keeps Queues (up i) := by
  refine queues_get fun k => ?_
  generalize k.waitQueue (.sem i) = ps
  cases ps with
  | nil => exact Queues.of_same rfl rfl rfl rfl
  | cons p rest => exact leaves_check fun _ => queues_wakeupWait _ _ _ k

theorem queues_downStart (i : Nat) : Keeps Queues (downStart i) := by
  refine queues_get fun k => ?_
  split
  · exact .of_same rfl rfl rfl rfl
  · exact (Keeps.bind (queues_waitCurrentSet _ _) fun _ => .of_pure _) k

theorem queues_tryDown (i : Nat) : Keeps Queues (tryDown i) := by
  refine queues_get fun k => ?_
  split
  · exact .of_same rfl rfl rfl rfl
  · exact refl_of Queues k

theorem queues_downEnd (i : Nat) : Keeps Queues (downEnd i) :=
  .bind (queues_waitCurrentDel _) fun _ => .bind .of_get fun _ => .of_check _ _

theorem queues_devStdinRead : ∀ left, Keeps Queues (devStdinRead left)
  | 0        => .of_pure _
  | left + 1 => by
    refine queues_get fun k => ?_
    split
    · rw [Proc.put_bind]
      exact Queues.andThen (.of_same rfl rfl rfl rfl) (queues_devStdinRead left)
    · exact (Keeps.bind (queues_waitCurrentSet _ _) fun _ => .of_pure _) k

theorem queues_devStdinResume (left : Nat) : Keeps Queues (devStdinResume left) := by
  refine .bind (queues_waitCurrentDel _) fun _ => .bind .of_get fun k => ?_
  split
  · exact queues_devStdinRead left
  · exact .of_pure _

theorem queues_devStdinWrite : Keeps Queues devStdinWrite := by
  refine .bind (.of_modify fun k => ?_) fun _ => .bind .of_get fun k => ?_
  · split
    · exact .of_same rfl rfl rfl rfl
    · exact refl_of Queues k
  · split
    · exact .bind .of_get fun _ => queues_wakeupQueueLoop _ _ _
    · exact .of_pure _

/-! ### Processes -/

theorem queues_removeLinks (p : Nat) : Keeps Queues (removeLinks p) := by
  refine .bind (.of_modify fun _ => .of_same rfl rfl rfl rfl) fun _ => .bind (.of_modify fun k => ?_) fun _ => ?_
  · refine .modSome ?_ k _
    exact fun _ => ⟨rfl, rfl⟩
  · have hlast : Keeps Queues (Proc.modify fun k : Kern => { k with nrProcess := k.nrProcess - 1 } : KernM Unit) :=
      .of_modify fun _ => .of_same rfl rfl rfl rfl
    refine queues_get fun k => ?_
    dsimp only
    cases (k.proc p).yptr with
    | some y =>
      dsimp only
      rw [Proc.put_bind]
      refine Queues.andThen (.modProc ?_ k y) hlast
      exact fun _ => ⟨rfl, rfl⟩
    | none =>
      cases (k.proc p).parent with
      | some q =>
        dsimp only
        rw [Proc.put_bind]
        refine Queues.andThen (.modProc ?_ k q) hlast
        exact fun _ => ⟨rfl, rfl⟩
      | none => trivial

theorem queues_setLinks (p : Nat) : Keeps Queues (setLinks p) := by
  refine .bind .of_get fun k => ?_
  cases (k.proc p).parent with
  | none => exact .of_stop _
  | some q =>
    refine .bind (.of_modify fun _ => .of_same rfl rfl rfl rfl) fun _ => .bind (.of_modify fun k => ?_) fun _ => ?_
    · refine .modProc ?_ k p
      exact fun _ => ⟨rfl, rfl⟩
    refine .bind (.of_modify fun k => ?_) fun _ => .of_modify fun k => ?_
    · refine .modSome ?_ k _
      exact fun _ => ⟨rfl, rfl⟩
    · have hmod : Queues k (k.modProc q fun x => { x with cptr := some p }) := by
        refine .modProc ?_ k q
        exact fun _ => ⟨rfl, rfl⟩
      exact hmod.trans (.of_same rfl rfl rfl rfl)

theorem queues_getPid : Keeps Queues getPid := by
  refine queues_get fun k => ?_
  cases nextPid (k.procList.map fun p => (k.proc p).pid) { nextSafe := k.nextSafe, lastPid := k.lastPid } with
  | none => trivial
  | some v => exact .of_same rfl rfl rfl rfl

/-- **`do_fork`** starts with a `proc_struct` that nobody has in the queue. -/
theorem queues_doFork (hp : p ∉ k.runList) (hcur : p ≠ k.current) : (doFork p k).Leaves (Queues k) := by
  rw [doFork, Proc.get_bind]
  split
  · exact refl_of Queues k
  · have halloc : Queues k { k.setProc p .fresh with live := insert p k.live } := by
      refine ⟨rfl, rfl, ⟨[], (List.append_nil _).symm, fun _ hq => absurd hq List.not_mem_nil⟩, fun q hq => ?_, ?_⟩
      · have hqp : q ≠ p := by
          rintro rfl
          exact hp hq
        exact congrArg ProcStruct.timeSlice (Function.update_of_ne hqp _ _)
      · show (Function.update k.proc p _ k.current).timeSlice = _ ∧ (Function.update k.proc p _ k.current).needResched = _
        rw [Function.update_of_ne hcur.symm]
        exact ⟨rfl, rfl⟩
    rw [allocProc, Proc.modify_bind]
    refine halloc.andThen (.bind (.of_modify fun k => .modProc ?_ k p) fun _ => .bind .of_get fun k => .bind (.of_check _ _) fun _ => ?_)
    · exact fun _ => ⟨rfl, rfl⟩
    refine .bind queues_getPid fun pid => .bind (queues_modProc ?_ p) fun _ => ?_
    · exact fun _ => ⟨rfl, rfl⟩
    refine .bind (.of_modify fun _ => .of_same rfl rfl rfl rfl) fun _ => .bind (queues_setLinks p) fun _ => ?_
    exact .bind (queues_wakeupProc p) fun _ => .of_pure _

theorem queues_exitChild (p : Nat) : Keeps Queues (exitChild p) := by
  refine .bind (.of_modify fun k => .modProc ?_ k _) fun _ => .bind (.of_modify fun k => .modProc ?_ k _) fun _ => ?_
  · exact fun _ => ⟨rfl, rfl⟩
  · exact fun _ => ⟨rfl, rfl⟩
  refine .bind (.of_modify fun k => .modSome ?_ k _) fun _ => .bind (.of_modify fun k => .modProc ?_ k _) fun _ => ?_
  · exact fun _ => ⟨rfl, rfl⟩
  · exact fun _ => ⟨rfl, rfl⟩
  refine .bind (.of_modify fun k => .modProc ?_ k _) fun _ => .bind .of_get fun k => ?_
  · exact fun _ => ⟨rfl, rfl⟩
  split
  · exact queues_wakeupProc _
  · exact .of_pure _

theorem queues_exitChildren : ∀ fuel, Keeps Queues (exitChildren fuel)
  | 0        => .of_stop _
  | fuel + 1 => by
    refine .bind .of_get fun k => ?_
    cases (k.proc k.current).cptr with
    | none => exact .of_pure _
    | some p => exact .bind (queues_exitChild p) fun _ => queues_exitChildren fuel

theorem queues_exitGo (code : Int) : Keeps Queues (exitGo code) := by
  refine .bind .of_get fun k => .bind ?_ fun _ => .of_pure _
  refine .bind .of_get fun k => .bind (.of_check _ _) fun _ => .bind (.of_check _ _) fun _ => ?_
  refine .bind (.of_modify fun k => .modProc ?_ k _) fun _ => .bind .of_get fun k => ?_
  · exact fun _ => ⟨rfl, rfl⟩
  cases (k.proc k.current).parent with
  | none => exact .bind (.of_stop _) fun _ => queues_exitChildren _
  | some q =>
    dsimp only
    split
    · exact .bind (queues_wakeupProc q) fun _ => queues_exitChildren _
    · exact queues_exitChildren _

theorem queues_waitChildren (kid : Bool) : ∀ fuel o, Keeps Queues (waitChildren kid fuel o)
  | 0, _             => .of_stop _
  | _ + 1, none      => .of_pure _
  | fuel + 1, some p => by
    refine .bind .of_get fun k => ?_
    split
    · exact .of_pure _
    · exact queues_waitChildren true fuel _

theorem queues_waitLook (pid : Int) : Keeps Queues (waitLook pid) := by
  refine .bind .of_get fun k => ?_
  split
  · cases k.findProc pid with
    | none => exact .of_pure _
    | some p =>
      dsimp only
      split
      · split
        · exact .of_pure _
        · exact .of_pure _
      · exact .of_pure _
  · exact queues_waitChildren false _ _

theorem queues_waitFound (p : Nat) : Keeps Queues (waitFound p) := by
  refine .bind .of_get fun k => .bind (.of_check _ _) fun _ => .bind (.of_modify fun _ => .of_same rfl rfl rfl rfl) fun _ => ?_
  exact .bind (queues_removeLinks p) fun _ => .bind (.of_modify fun _ => .of_same rfl rfl rfl rfl) fun _ => .of_pure _

theorem queues_waitGo (pid : Int) : Keeps Queues (waitGo pid) := by
  refine .bind .of_get fun k => .bind (.attempt (.bind (queues_waitLook pid) fun look => ?_)) fun r => ?_
  · cases look with
    | bad => exact .of_fail _
    | none =>
      refine .bind (.of_modify fun k => .modProc ?_ k _) fun _ => .of_pure _
      exact fun _ => ⟨rfl, rfl⟩
    | found p => exact .bind (queues_waitFound p) fun _ => .of_pure _
  · rcases r with e | _ | c
    · exact .of_pure _
    · exact .of_pure _
    · exact .of_pure _

theorem queues_doKill (pid : Int) : Keeps Queues (doKill pid) := by
  refine queues_get fun k => ?_
  cases k.findProc pid with
  | none => exact refl_of Queues k
  | some p =>
    dsimp only
    split
    · have hmod : Queues k (k.modProc p fun x => { x with exiting := true }) := by
        refine .modProc ?_ k p
        exact fun _ => ⟨rfl, rfl⟩
      rw [Proc.put_bind]
      split
      · exact hmod.andThen (.bind (queues_wakeupProc p) fun _ => .of_pure _)
      · exact hmod.andThen (.of_pure _)
    · exact refl_of Queues k

theorem queues_doSleep (time : Nat) : Keeps Queues (doSleep time) := by
  rw [doSleep]
  split
  · exact .of_pure _
  · refine queues_get fun k => ?_
    have hmod : Queues k (k.modProc k.current fun x => { x with state := .sleeping, waitState := wtTimer }) := by
      refine .modProc ?_ k _
      exact fun _ => ⟨rfl, rfl⟩
    rw [Proc.put_bind]
    refine hmod.andThen (.bind (queues_get fun k => ?_) fun _ => .of_pure _)
    exact leaves_check fun _ => leaves_check fun _ => .of_same rfl rfl rfl rfl

theorem queues_delTimer (link : Nat) : Keeps Queues (delTimer link) := .of_modify fun _ => .of_same rfl rfl rfl rfl

/-! ### Steps -/

/-- **A call** up to the `schedule` in it. -/
theorem queues_start {c : Call} (h : RunInv k) (hok : c.Ok k) : (c.start k).Leaves (Queues k) := by
  cases c with
  | yield => exact refl_of Queues k
  | up i => exact (Keeps.bind .of_get fun _ => .bind (queues_up i) fun _ => .of_pure _) k
  | down i =>
    refine (Keeps.bind .of_get fun _ => .bind (queues_downStart i) fun b => ?_) k
    split
    · exact .of_pure _
    · exact .of_pure _
  | tryDown i =>
    refine (Keeps.bind .of_get fun _ => .bind (queues_tryDown i) fun b => ?_) k
    split
    · exact .of_pure _
    · exact .of_pure _
  | fork p =>
    have hnot : p ∉ k.runList := fun hmem => hok.2 ((h.mem p).mp hmem).1
    have hcur : p ≠ k.current := by
      rintro rfl
      exact hok.2 h.current
    have hfork := queues_doFork hnot hcur
    rw [Call.start]
    cases hrun : doFork p k with
    | ok pid k' =>
      rw [Proc.bind_ok (Proc.attempt_ok hrun)]
      exact hfork.of_ok hrun
    | err e k' =>
      rw [Proc.bind_ok (Proc.attempt_err hrun)]
      exact hfork.of_err hrun
    | panic x =>
      rw [Proc.bind_panic (Proc.attempt_panic hrun)]
      trivial
  | exit code => exact queues_exitGo code k
  | wait pid => exact queues_waitGo pid k
  | kill pid => exact (Keeps.bind (.attempt (queues_doKill pid)) fun _ => .of_pure _) k
  | sleep time =>
    refine (Keeps.bind (queues_doSleep time) fun b => ?_) k
    split
    · exact .of_pure _
    · exact .of_pure _
  | read len =>
    refine (Keeps.bind (queues_devStdinRead len) fun o => ?_) k
    cases o with
    | none => exact .of_pure _
    | some left => exact .of_pure _

/-- **What comes behind a `schedule`** -/
theorem queues_resume (b : Blocked) : Keeps Queues b.resume := by
  cases b with
  | yield => exact .of_pure _
  | down i => exact .bind (queues_downEnd i) fun _ => .of_pure _
  | wait pid =>
    refine .bind .of_get fun k => ?_
    split
    · exact queues_exitGo _
    · exact queues_waitGo pid
  | sleep => exact .bind .of_get fun k => .bind (queues_delTimer _) fun _ => .of_pure _
  | read left =>
    refine .bind (queues_devStdinResume left) fun o => ?_
    cases o with
    | none => exact .of_pure _
    | some left => exact .of_pure _
  | exit => exact .of_stop _

theorem queues_expireLoop : ∀ ts : List Timer, Keeps Queues (expireLoop ts)
  | []        => .of_pure _
  | t :: rest => by
    rw [expireLoop]
    split
    · refine .bind .of_get fun k => .bind (.of_check _ _) fun _ => .bind (queues_wakeupProc _) fun _ => ?_
      exact .bind (queues_delTimer _) fun _ => queues_expireLoop rest
    · exact .of_pure _

end Calls

/-! ## The clock -/

/-- `sched_class_proc_tick` of the running process -/
def Kern.ticked (k : Kern) : Kern :=
  k.modProc k.current fun x =>
    if k.current ≠ k.idleproc then
      { x with timeSlice := x.timeSlice - 1, needResched := if x.timeSlice - 1 = 0 then true else x.needResched }
    else { x with needResched := true }

/-- **`run_timer_list`** wakes those whose time has come, and takes a unit from the running process. -/
theorem runTimerList_ticked (h : runTimerList k = .ok () k') : ∃ k₁, Queues k k₁ ∧ k' = k₁.ticked := by
  have hlast : ∀ {k₁ : Kern}, (Proc.get >>= fun k => schedClassProcTick k.current : KernM Unit) k₁ = .ok () k' → k' = k₁.ticked := by
    intro k₁ hrun
    rw [Proc.get_bind, schedClassProcTick, Proc.get_bind] at hrun
    rw [Kern.ticked]
    by_cases hidle : k₁.current ≠ k₁.idleproc
    · rw [if_pos hidle] at hrun
      simp only [if_pos hidle]
      obtain ⟨-, rfl⟩ := Outcome.ok.inj hrun
      rfl
    · rw [if_neg hidle] at hrun
      simp only [if_neg hidle]
      obtain ⟨-, rfl⟩ := Outcome.ok.inj hrun
      rfl
  rw [runTimerList, Proc.get_bind] at h
  cases hlist : k.timerList with
  | nil =>
    rw [hlist] at h
    exact ⟨k, refl_of Queues k, hlast h⟩
  | cons t rest =>
    rw [hlist] at h
    obtain ⟨_, k₁, hcheck, h⟩ := Proc.bind_eq_ok.mp h
    obtain ⟨-, rfl⟩ := Proc.check_eq_ok.mp hcheck
    obtain ⟨_, k₂, hput, h⟩ := Proc.bind_eq_ok.mp h
    cases hput
    obtain ⟨_, k₃, hloop, h⟩ := Proc.bind_eq_ok.mp h
    have htimers : Queues k₁ (k₁.setTimers ({ t with expires := t.expires - 1 } :: rest)) := .of_same rfl rfl rfl rfl
    exact ⟨k₃, htimers.trans ((queues_expireLoop _).ok hloop), hlast h⟩

/-! ## What is ahead of a process -/

/-- Who is in the queue has time left, and so has the running process until it is asked to give way. -/
structure Sliced (k : Kern) : Prop where
  queue : ∀ q ∈ k.runList, InSlice (k.proc q).timeSlice
  running : k.current ≠ k.idleproc → (k.proc k.current).needResched = false → InSlice (k.proc k.current).timeSlice

namespace Kern

/-- How many ticks can come before the running process is asked to give way. -/
def budget (k : Kern) : Nat :=
  if (k.proc k.current).needResched = true then 0 else if k.current = k.idleproc then 1 else (k.proc k.current).timeSlice

/-- How many ticks can come before those in `front` have had their turn. -/
def ahead (k : Kern) (front : List Nat) : Nat := k.budget + (front.map fun q => (k.proc q).timeSlice).sum

end Kern

theorem sum_slices (h : ∀ q ∈ front, (k'.proc q).timeSlice = (k.proc q).timeSlice) :
    (front.map fun q => (k'.proc q).timeSlice).sum = (front.map fun q => (k.proc q).timeSlice).sum := by
  rw [List.map_congr_left h]

theorem sum_slices_le (h : ∀ q ∈ front, InSlice (k.proc q).timeSlice) :
    (front.map fun q => (k.proc q).timeSlice).sum ≤ maxTimeSlice * front.length := by
  induction front with
  | nil => simp
  | cons q front ih =>
    have hq := (h q List.mem_cons_self).2
    have hrest := ih fun q hq => h q (List.mem_cons_of_mem _ hq)
    simp only [List.map_cons, List.sum_cons, List.length_cons, Nat.mul_add, Nat.mul_one]
    omega

theorem Sliced.ahead_le (h : Sliced k) (hfront : ∀ q ∈ front, q ∈ k.runList) :
    k.ahead front ≤ maxTimeSlice * (front.length + 1) := by
  have hsum := sum_slices_le fun q hq => h.queue q (hfront q hq)
  have hbudget : k.budget ≤ maxTimeSlice := by
    rw [Kern.budget]
    split
    · exact Nat.zero_le _
    · next hresched =>
      split
      · decide
      · next hidle => exact (h.running hidle (by simpa using hresched)).2
  rw [Kern.ahead, Nat.mul_add, Nat.mul_one]
  omega

/-! ### Everything but the scheduler and the clock -/

theorem Sliced.queues (h : Sliced k) (hq : Queues k k') : Sliced k' where
  queue q hmem := by
    obtain ⟨new, hlist, hnew⟩ := hq.list
    rw [hlist] at hmem
    rcases List.mem_append.mp hmem with hmem | hmem
    · rw [hq.slice q hmem]
      exact h.queue q hmem
    · exact hnew q hmem
  running hidle hresched := by
    rw [hq.current, hq.idleproc] at hidle
    rw [hq.current, hq.running.2] at hresched
    rw [hq.current, hq.running.1]
    exact h.running hidle hresched

theorem Queues.ahead (h : Queues k k') (hfront : ∀ q ∈ front, q ∈ k.runList) : k'.ahead front = k.ahead front := by
  rw [Kern.ahead, Kern.ahead, sum_slices fun q hq => h.slice q (hfront q hq), Kern.budget, Kern.budget, h.current, h.idleproc,
    h.running.1, h.running.2]

/-! ### The clock -/

theorem ticked_other (h : q ≠ k.current) : k.ticked.proc q = k.proc q := Kern.modProc_other k _ h

theorem ticked_running (hidle : k.current ≠ k.idleproc) : (k.ticked.proc k.current).timeSlice = (k.proc k.current).timeSlice - 1 ∧
    (k.ticked.proc k.current).needResched =
      if (k.proc k.current).timeSlice - 1 = 0 then true else (k.proc k.current).needResched := by
  rw [Kern.ticked, Kern.modProc_self, if_pos hidle]
  exact ⟨rfl, rfl⟩

theorem ticked_idle (hidle : k.current = k.idleproc) : (k.ticked.proc k.current).needResched = true := by
  rw [Kern.ticked, Kern.modProc_self, if_neg (not_not_intro hidle)]

theorem Sliced.ticked (h : Sliced k) (hcur : k.current ∉ k.runList) : Sliced k.ticked where
  queue q hmem := by
    have hq : q ≠ k.current := by
      rintro rfl
      exact hcur hmem
    rw [ticked_other hq]
    exact h.queue q hmem
  running hidle hresched := by
    change k.current ≠ k.idleproc at hidle
    obtain ⟨hslice, hasked⟩ := ticked_running hidle
    change (k.ticked.proc k.current).needResched = false at hresched
    show InSlice (k.ticked.proc k.current).timeSlice
    rw [hslice]
    rw [hasked] at hresched
    split at hresched
    · cases hresched
    · next hzero =>
      have hin := h.running hidle hresched
      exact ⟨Nat.pos_of_ne_zero hzero, Nat.le_trans (Nat.sub_le _ _) hin.2⟩

/-- A tick that finds a process that has not been asked to give way. -/
theorem Sliced.ahead_ticked (h : Sliced k) (hcur : k.current ∉ k.runList) (hfront : ∀ q ∈ front, q ∈ k.runList)
    (hresched : (k.proc k.current).needResched = false) : k.ticked.ahead front + 1 = k.ahead front := by
  have hsum : (front.map fun q => (k.ticked.proc q).timeSlice).sum = (front.map fun q => (k.proc q).timeSlice).sum := by
    refine sum_slices fun q hq => ?_
    have hqc : q ≠ k.current := by
      rintro rfl
      exact hcur (hfront _ hq)
    rw [ticked_other hqc]
  have hbudget : k.ticked.budget + 1 = k.budget := by
    have hlast : ¬(k.proc k.current).needResched = true := by simp [hresched]
    rw [Kern.budget, Kern.budget, if_neg hlast]
    show (if (k.ticked.proc k.current).needResched = true then 0 else if k.current = k.idleproc then 1
      else (k.ticked.proc k.current).timeSlice) + 1 = _
    by_cases hidle : k.current = k.idleproc
    · rw [if_pos (ticked_idle hidle), if_pos hidle]
    · obtain ⟨hslice, hasked⟩ := ticked_running hidle
      have hpos := (h.running hidle hresched).1
      rw [if_neg hidle, if_neg hidle, hasked, hslice]
      by_cases hzero : (k.proc k.current).timeSlice - 1 = 0
      · rw [if_pos hzero, if_pos rfl]
        omega
      · rw [if_neg hzero, if_neg hlast]
        omega
  rw [Kern.ahead, Kern.ahead, hsum]
  omega

/-! ### `schedule` -/

/-- Behind the first half of `schedule`. -/
theorem yielded_slices (h : Sliced k) (hcur : k.current ∉ k.runList) : (∃ new, k.yielded.runList = k.runList ++ new) ∧
    (∀ q ∈ k.yielded.runList, InSlice (k.yielded.proc q).timeSlice) ∧
    ∀ q ∈ k.runList, (k.yielded.proc q).timeSlice = (k.proc q).timeSlice := by
  have hmod : ∀ q ∈ k.runList, ((k.modProc k.current fun x => { x with needResched := false }).proc q) = k.proc q := by
    intro q hq
    apply Kern.modProc_other
    rintro rfl
    exact hcur hq
  have hin : ∀ q ∈ k.runList, InSlice ((k.modProc k.current fun x => { x with needResched := false }).proc q).timeSlice := by
    intro q hq
    rw [hmod q hq]
    exact h.queue q hq
  rw [Kern.yielded]
  split
  · rw [Kern.classEnqueued]
    split
    · have hother : ∀ q ∈ k.runList, ((k.modProc k.current fun x => { x with needResched := false }).enqueued k.current).proc q =
          (k.modProc k.current fun x => { x with needResched := false }).proc q := by
        intro q hq
        refine Function.update_of_ne ?_ _ _
        rintro rfl
        exact hcur hq
      refine ⟨⟨[k.current], rfl⟩, fun q hq => ?_, fun q hq => ?_⟩
      · rcases List.mem_append.mp (show q ∈ k.runList ++ [k.current] from hq) with hq | hq
        · rw [hother q hq]
          exact hin q hq
        · obtain rfl := List.mem_singleton.mp hq
          exact inSlice_enqueued _ _
      · rw [hother q hq, hmod q hq]
    · exact ⟨⟨[], (List.append_nil _).symm⟩, hin, fun q hq => by rw [hmod q hq]⟩
  · exact ⟨⟨[], (List.append_nil _).symm⟩, hin, fun q hq => by rw [hmod q hq]⟩

theorem Sliced.switched (h : Sliced k) (hr : RunInv k) : Sliced k.switched := by
  obtain ⟨-, hin, -⟩ := yielded_slices h hr.current_not_mem
  rw [Kern.switched]
  cases hlist : k.yielded.runList with
  | nil => exact ⟨fun q hq => absurd (show q ∈ k.yielded.runList from hq) (by simp [hlist]), fun hidle => absurd rfl hidle⟩
  | cons next rest =>
    refine ⟨fun q hq => hin q ?_, fun _ _ => hin next ?_⟩
    · exact List.mem_of_mem_erase (show q ∈ k.yielded.runList.erase next from hq)
    · rw [hlist]
      exact List.mem_cons_self

/-- **`schedule`** takes the first one, and puts the running process behind all others. -/
theorem switched_front (h : Sliced k) (hr : RunInv k) (hq : k.runList = front ++ p :: behind) (hp : k.switched.current ≠ p) :
    ∃ q rest more, front = q :: rest ∧ k.switched.runList = rest ++ p :: (behind ++ more) ∧
      k.switched.ahead rest ≤ k.ahead front := by
  obtain ⟨⟨more, hlist⟩, -, hslice⟩ := yielded_slices h hr.current_not_mem
  rw [hq, List.append_assoc, List.cons_append] at hlist
  cases front with
  | nil =>
    have heq : k.switched = (k.yielded.dequeued p).setCurrent p := by rw [Kern.switched, hlist]; rfl
    exact absurd (by rw [heq]; rfl) hp
  | cons q rest =>
    have heq : k.switched = (k.yielded.dequeued q).setCurrent q := by rw [Kern.switched, hlist]; rfl
    have hmem : ∀ j ∈ q :: rest, j ∈ k.runList := fun j hj => by rw [hq]; exact List.mem_append_left _ hj
    have hself : (k.switched.proc q).timeSlice = (k.proc q).timeSlice := by
      rw [heq]
      exact hslice q (hmem q List.mem_cons_self)
    have hsum : (rest.map fun j => (k.switched.proc j).timeSlice).sum = (rest.map fun j => (k.proc j).timeSlice).sum := by
      refine sum_slices fun j hj => ?_
      rw [heq]
      exact hslice j (hmem j (List.mem_cons_of_mem _ hj))
    have hidle : q ≠ k.idleproc := ((hr.mem q).mp (hmem q List.mem_cons_self)).2.2.2
    refine ⟨q, rest, more, rfl, ?_, ?_⟩
    · rw [heq]
      show k.yielded.runList.erase q = _
      rw [hlist, List.cons_append, List.erase_cons_head]
    · have hcur : k.switched.current = q := by rw [heq]; rfl
      have hbudget : k.switched.budget ≤ (k.proc q).timeSlice := by
        rw [Kern.budget, hcur]
        split
        · exact Nat.zero_le _
        · rw [if_neg (by rw [(Kern.Rescheduled.switched k).idleproc]; exact hidle)]
          exact Nat.le_of_eq hself
      rw [Kern.ahead, Kern.ahead, hsum, List.map_cons, List.sum_cons]
      omega

/-! ## Runs -/

def Label.isSwitch : Label → Bool
  | .switch => true
  | _       => false

def Label.isTick : Label → Bool
  | .tick => true
  | _     => false

/-- What a step does to the queue and to the time slices. -/
theorem step_clock (h : SysInv s) (hs : Step s l s') :
    (l.isSwitch = false ∧ l.isTick = false ∧ Queues s.k s'.k) ∨
    (l = .tick ∧ ∃ k₁, Queues s.k k₁ ∧ s'.k = k₁.ticked) ∨ (l = .switch ∧ s'.k = s.k.switched) := by
  cases hs with
  | call _ hok hrun => exact .inl ⟨rfl, rfl, (queues_start h.kern.run hok).of_ok hrun⟩
  | switch _ hrun =>
    obtain ⟨-, rfl⟩ := Outcome.ok.inj (h.kern.run.schedule_run.symm.trans hrun)
    exact .inr (.inr ⟨rfl, rfl⟩)
  | resume _ hrun => exact .inl ⟨rfl, rfl, (queues_resume _).ok hrun⟩
  | tick hrun => exact .inr (.inl ⟨rfl, runTimerList_ticked hrun⟩)
  | key hrun => exact .inl ⟨rfl, rfl, queues_devStdinWrite.ok hrun⟩

theorem Sliced.step (h : Sliced s.k) (hinv : SysInv s) (hs : Step s l s') : Sliced s'.k := by
  have hcur := (hinv.after hs).kern.run.current_not_mem
  rcases step_clock hinv hs with ⟨-, -, hqueues⟩ | ⟨-, k₁, hqueues, hk⟩ | ⟨-, hk⟩
  · exact h.queues hqueues
  · rw [hk] at hcur ⊢
    exact (h.queues hqueues).ticked hcur
  · rw [hk]
    exact h.switched hinv.kern.run

theorem sliced_idle (semValue : Nat → Int) : Sliced (Kern.idle semValue) :=
  ⟨fun _ hq => absurd hq List.not_mem_nil, fun hidle => absurd rfl hidle⟩

theorem sliced_init (h : SysInit s) : Sliced s.k := by
  obtain ⟨semValue, -, p, hp, hrun, -, -⟩ := h
  rw [procInit] at hrun
  obtain ⟨pid, k, hfork, hrun⟩ := Proc.bind_eq_ok.mp hrun
  rw [Proc.get_bind] at hrun
  have hk : Sliced k := (sliced_idle semValue).queues ((queues_doFork List.not_mem_nil hp).of_ok hfork)
  cases hfind : k.findProc pid with
  | none =>
    rw [hfind] at hrun
    cases hrun
  | some q =>
    rw [hfind] at hrun
    obtain ⟨-, hlast⟩ := Outcome.ok.inj hrun
    rw [← hlast]
    exact ⟨hk.queue, hk.running⟩

theorem sysReaches_sliced (h : SysReaches s) : Sliced s.k := by
  refine (h.invariant (I := fun s => SysInv s ∧ Sliced s.k) (fun s h0 => ⟨sysInv_init h0, sliced_init h0⟩) ?_).2
  rintro s l s' ⟨hinv, hsliced⟩ - hs
  exact ⟨hinv.after hs, hsliced.step hinv hs⟩

/-! ### While a process waits -/

/-- What a step may not do while `p` waits. -/
def Waiting (p : Nat) (a : Sys) (l : Label) (b : Sys) : Prop := Step a l b ∧ b.k.current ≠ p

/-- A process that is asked to give way does so before the next tick. -/
def Prompt (a : Sys) (l : Label) : Prop := l = .tick → (a.k.proc a.k.current).needResched = false

/-- **The step lemma.** -/
theorem Waiting.place (hinv : SysInv s) (h : Sliced s.k) (hs : Waiting p s l s') (hq : s.k.runList = front ++ p :: behind) :
    ∃ n more, n = (if l.isSwitch = true then 1 else 0) ∧ n ≤ front.length ∧
      s'.k.runList = front.drop n ++ p :: (behind ++ more) ∧
      (Prompt s l → s'.k.ahead (front.drop n) + (if l.isTick = true then 1 else 0) ≤ s.k.ahead front) := by
  obtain ⟨hs, hp⟩ := hs
  have hcur := (hinv.after hs).kern.run.current_not_mem
  have hfront : ∀ q ∈ front, q ∈ s.k.runList := by
    intro q hmem
    rw [hq]
    exact List.mem_append_left _ hmem
  have hgrown : ∀ {k : Kern}, Queues s.k k → ∃ more, k.runList = front ++ p :: (behind ++ more) := by
    intro k hqueues
    obtain ⟨new, hlist, -⟩ := hqueues.list
    exact ⟨new, by simp [hlist, hq]⟩
  rcases step_clock hinv hs with ⟨hswitch, htick, hqueues⟩ | ⟨rfl, k₁, hqueues, hk⟩ | ⟨rfl, hk⟩
  · obtain ⟨more, hlist⟩ := hgrown hqueues
    refine ⟨0, more, by simp [hswitch], Nat.zero_le _, hlist, fun _ => ?_⟩
    simp [htick, hqueues.ahead hfront]
  · obtain ⟨more, hlist⟩ := hgrown hqueues
    refine ⟨0, more, rfl, Nat.zero_le _, by rw [hk]; exact hlist, fun hprompt => ?_⟩
    have hin : ∀ q ∈ front, q ∈ k₁.runList := by
      intro q hmem
      rw [hlist]
      exact List.mem_append_left _ hmem
    have hasked : (k₁.proc k₁.current).needResched = false := by
      rw [hqueues.current, hqueues.running.2]
      exact hprompt rfl
    rw [hk] at hcur ⊢
    -- one unit less is ahead of `p`
    have hless := (h.queues hqueues).ahead_ticked hcur hin hasked
    rw [hqueues.ahead hfront] at hless
    exact Nat.le_of_eq hless
  · rw [hk] at hp
    obtain ⟨q, rest, more, rfl, hlist, hless⟩ := switched_front h hinv.kern.run hq hp
    refine ⟨1, more, rfl, by simp, by rw [hk]; exact hlist, fun _ => ?_⟩
    rw [hk]
    exact hless

/-- **The run lemma**: every `schedule` has taken one of those in front. -/
theorem waiting_places (hinv : SysInv s) (h : Sliced s.k) (ht : Traced (Waiting p) s ls s')
    (hq : s.k.runList = front ++ p :: behind) : ls.countP Label.isSwitch ≤ front.length ∧
      ∃ more, s'.k.runList = front.drop (ls.countP Label.isSwitch) ++ p :: (behind ++ more) := by
  induction ht generalizing front behind with
  | nil => exact ⟨Nat.zero_le _, [], by simpa using hq⟩
  | cons hs _ ih =>
    obtain ⟨n, more, hn, hle, hlist, -⟩ := hs.place hinv h hq
    obtain ⟨hless, last, hrest⟩ := ih (hinv.after hs.1) (h.step hinv hs.1) hlist
    rw [List.length_drop] at hless
    rw [List.drop_drop] at hrest
    rw [List.countP_cons, ← hn]
    refine ⟨by omega, more ++ last, ?_⟩
    rw [hrest, Nat.add_comm, List.append_assoc]

/-- The ticks so far and those that can still come. -/
theorem waiting_ticks (hinv : SysInv s) (h : Sliced s.k)
    (ht : Traced (fun a l b => Waiting p a l b ∧ Prompt a l) s ls s') (hq : s.k.runList = front ++ p :: behind) :
    ls.countP Label.isTick ≤ s.k.ahead front := by
  induction ht generalizing front behind with
  | nil => exact Nat.zero_le _
  | cons hs _ ih =>
    obtain ⟨hs, hprompt⟩ := hs
    obtain ⟨n, more, -, -, hlist, hless⟩ := hs.place hinv h hq
    have hrest := ih (hinv.after hs.1) (h.step hinv hs.1) hlist
    have hone := hless hprompt
    rw [List.countP_cons]
    omega

/-- **Bounded waiting.** A process in the run queue waits for those in front of it and for nobody else: `schedule` takes them one
    after the other, in this order, then it. If the running process gives way when it is asked to, it waits for no more than
    `MAX_TIME_SLICE` ticks for each of them and for the running one. -/
theorem rr_bounded_wait (hr : SysReaches s) (hq : s.k.runList = front ++ p :: behind) :
    (∀ ls s', Traced (Waiting p) s ls s' → ls.countP Label.isSwitch ≤ front.length ∧
      ∃ more, s'.k.runList = front.drop (ls.countP Label.isSwitch) ++ p :: (behind ++ more)) ∧
    ∀ ls s', Traced (fun a l b => Waiting p a l b ∧ Prompt a l) s ls s' →
      ls.countP Label.isTick ≤ maxTimeSlice * (front.length + 1) := by
  have hinv := sysReaches_inv hr
  have hsliced := sysReaches_sliced hr
  refine ⟨fun _ _ ht => waiting_places hinv hsliced ht hq, fun _ _ ht => ?_⟩
  refine Nat.le_trans (waiting_ticks hinv hsliced ht hq) (hsliced.ahead_le fun q hmem => ?_)
  rw [hq]
  exact List.mem_append_left _ hmem

/-- The third process waits for the second one, in a run with a `schedule` and two ticks. -/
theorem rr_bounded_wait_third : ∃ s ls s', s.k.runList = [2, 3] ∧ s'.k.runList = [3, 1] ∧
    Traced (fun a l b => Waiting 3 a l b ∧ Prompt a l) s ls s' ∧ ls.countP Label.isSwitch ≤ 1 ∧
    ls.countP Label.isTick ≤ maxTimeSlice * 2 := by
  have hrun : (((Sys.boot (fun _ => 0) 1).bind fun s =>
      [Label.call .yield, .switch, .call (.fork 2), .call (.fork 3)].foldlM Sys.next s).bind fun s0 =>
      (s0.next .tick).bind fun s1 => (s1.next (.call .yield)).bind fun s2 => (s2.next .switch).bind fun s3 => (s3.next .tick).map fun s4 =>
        ([s0.k.runList, s4.k.runList], [s1, s2, s3, s4].map fun s => s.k.current,
          [s0, s3].map fun s => (s.k.proc s.k.current).needResched)) =
      some ([[2, 3], [3, 1]], [1, 1, 2, 2], [false, false]) := by decide +kernel
  obtain ⟨s0, hs0, hrun⟩ := Option.bind_eq_some_iff.mp hrun
  obtain ⟨s1, hs1, hrun⟩ := Option.bind_eq_some_iff.mp hrun
  obtain ⟨s2, hs2, hrun⟩ := Option.bind_eq_some_iff.mp hrun
  obtain ⟨s3, hs3, hrun⟩ := Option.bind_eq_some_iff.mp hrun
  obtain ⟨s4, hs4, hfacts⟩ := Option.map_eq_some_iff.mp hrun
  simp only [List.map_cons, List.map_nil, Prod.mk.injEq, List.cons.injEq, and_true] at hfacts
  obtain ⟨⟨hlist0, hlist4⟩, ⟨hcur1, hcur2, hcur3, hcur4⟩, hask0, hask3⟩ := hfacts
  have hwait : ∀ {a b : Sys} {l : Label} {q : Nat}, a.next l = some b → b.k.current = q → q ≠ 3 → Waiting 3 a l b :=
    fun hs hcur hq => ⟨Sys.step_of_next hs, by rw [hcur]; exact hq⟩
  have ht : Traced (fun a l b => Waiting 3 a l b ∧ Prompt a l) s0 [.tick, .call .yield, .switch, .tick] s4 := by
    refine .cons ⟨hwait hs1 hcur1 (by decide), fun _ => hask0⟩ ?_
    refine .cons ⟨hwait hs2 hcur2 (by decide), fun he => by cases he⟩ ?_
    refine .cons ⟨hwait hs3 hcur3 (by decide), fun he => by cases he⟩ ?_
    exact .cons ⟨hwait hs4 hcur4 (by decide), fun _ => hask3⟩ .nil
  have hr : SysReaches s0 := .of_start (fun _ => Int.le_refl 0) (reaches_boot (by decide) hs0)
  have hq : s0.k.runList = [2] ++ 3 :: [] := hlist0
  obtain ⟨hplaces, hticks⟩ := rr_bounded_wait hr hq
  exact ⟨s0, _, s4, hlist0, hlist4, ht, (hplaces _ _ (ht.mono fun _ _ _ h => h.1)).1, hticks _ _ ht⟩

end Ucore
