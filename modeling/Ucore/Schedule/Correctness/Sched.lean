import Ucore.Schedule.Sched

/-!
# `Schedule.Correctness.Sched` — what the functions of the scheduler do

`woke` and `switched` are the states that `wakeup_proc` and `schedule` leave when their assertions hold.
-/

namespace Ucore

namespace Kern

/-- `sched_class_enqueue` -/
def classEnqueued (k : Kern) (p : Nat) : Kern := if p ≠ k.idleproc then k.enqueued p else k

/-- `wakeup_proc` -/
def woke (k : Kern) (p : Nat) : Kern :=
  if (k.proc p).state ≠ .runnable then
    if p ≠ k.current then ((k.log p).ready p).classEnqueued p else (k.log p).ready p
  else k.log p

/-- The first half of `schedule`. -/
def yielded (k : Kern) : Kern :=
  if (k.proc k.current).state = .runnable then
    (k.modProc k.current fun x => { x with needResched := false }).classEnqueued k.current
  else k.modProc k.current fun x => { x with needResched := false }

/-- `schedule` -/
def switched (k : Kern) : Kern :=
  match k.yielded.runList with
  | []        => k.yielded.setCurrent k.yielded.idleproc
  | next :: _ => (k.yielded.dequeued next).setCurrent next

end Kern

variable {k k' : Kern} {p q : Nat}

/-! ## Running the functions -/

theorem rrEnqueue_run (h : p ∉ k.runList) : rrEnqueue p k = .ok () (k.enqueued p) := by
  rw [rrEnqueue, Proc.get_bind, Proc.check_bind_pos h]
  rfl

theorem schedClassEnqueue_run (h : p ≠ k.idleproc → p ∉ k.runList) :
    schedClassEnqueue p k = .ok () (k.classEnqueued p) := by
  rw [schedClassEnqueue, Proc.get_bind, Kern.classEnqueued]
  split
  · next hne => exact rrEnqueue_run (h hne)
  · rfl

theorem schedClassEnqueue_panic (hne : p ≠ k.idleproc) (h : p ∈ k.runList) :
    schedClassEnqueue p k = .panic .enqueue := by
  rw [schedClassEnqueue, Proc.get_bind, if_pos hne, rrEnqueue, Proc.get_bind]
  exact Proc.check_bind_neg (not_not_intro h) _ _

/-- **`wakeup_proc`** of a process that is no zombie, and in the run queue only if it is runnable. -/
theorem wakeupProc_run (hz : (k.proc p).state ≠ .zombie) (hq : p ∈ k.runList → (k.proc p).state = .runnable) :
    wakeupProc p k = .ok () (k.woke p) := by
  have hz' : ((k.log p).proc p).state ≠ .zombie := hz
  rw [wakeupProc, Proc.modify_bind, Proc.get_bind, Proc.check_bind_pos hz', Kern.woke]
  show (if (k.proc p).state ≠ .runnable then _ else _ : KernM Unit) _ = _
  by_cases hr : (k.proc p).state ≠ .runnable
  · rw [if_pos hr, if_pos hr, Proc.put_bind]
    show (if p ≠ k.current then _ else _ : KernM Unit) _ = _
    by_cases hc : p ≠ k.current
    · rw [if_pos hc, if_pos hc]
      exact schedClassEnqueue_run fun _ hmem => hr (hq hmem)
    · rw [if_neg hc, if_neg hc]
      rfl
  · rw [if_neg hr, if_neg hr]
    rfl

/-- However `wakeup_proc` ends. -/
theorem wakeupProc_cases (p : Nat) (k : Kern) : wakeupProc p k = .ok () (k.woke p) ∨
    wakeupProc p k = .panic .wakeupZombie ∨ wakeupProc p k = .panic .enqueue := by
  by_cases hz : (k.proc p).state = .zombie
  · refine .inr (.inl ?_)
    have hz' : ¬ ((k.log p).proc p).state ≠ .zombie := not_not_intro hz
    rw [wakeupProc, Proc.modify_bind, Proc.get_bind, Proc.check_bind_neg hz']
  · have hz' : ((k.log p).proc p).state ≠ .zombie := hz
    rw [wakeupProc, Proc.modify_bind, Proc.get_bind, Proc.check_bind_pos hz', Kern.woke]
    show (if (k.proc p).state ≠ .runnable then _ else _ : KernM Unit) _ = _ ∨
      (if (k.proc p).state ≠ .runnable then _ else _ : KernM Unit) _ = _ ∨
      (if (k.proc p).state ≠ .runnable then _ else _ : KernM Unit) _ = _
    by_cases hr : (k.proc p).state ≠ .runnable
    · simp only [if_pos hr, Proc.put_bind]
      show (if p ≠ k.current then _ else _ : KernM Unit) _ = _ ∨ (if p ≠ k.current then _ else _ : KernM Unit) _ = _ ∨
        (if p ≠ k.current then _ else _ : KernM Unit) _ = _
      by_cases hc : p ≠ k.current
      · simp only [if_pos hc]
        by_cases hq : p ≠ k.idleproc ∧ p ∈ k.runList
        · exact .inr (.inr (schedClassEnqueue_panic hq.1 hq.2))
        · exact .inl (schedClassEnqueue_run fun hne hmem => hq ⟨hne, hmem⟩)
      · simp only [if_neg hc]
        exact .inl rfl
    · simp only [if_neg hr]
      exact .inl rfl

theorem yieldCurrent_run (h : k.current ≠ k.idleproc → (k.proc k.current).state = .runnable → k.current ∉ k.runList) :
    yieldCurrent k = .ok () k.yielded := by
  have hstate : ((k.modProc k.current fun x => { x with needResched := false }).proc k.current).state =
      (k.proc k.current).state := by
    show (Function.update k.proc k.current _ k.current).state = _
    rw [Function.update_self]
  rw [yieldCurrent, Proc.modify_bind, Proc.get_bind, Kern.yielded]
  show (if ((k.modProc k.current _).proc k.current).state = .runnable then _ else _ : KernM Unit) _ = _
  rw [hstate]
  split
  · next hr => exact schedClassEnqueue_run fun hne => h hne hr
  · rfl

/-- **`schedule`** when the queue holds neither the current process nor one that was not put there. -/
theorem schedule_run (h : k.current ≠ k.idleproc → (k.proc k.current).state = .runnable → k.current ∉ k.runList)
    (hq : ∀ p ∈ k.yielded.runList, (k.yielded.proc p).queued = true) : schedule k = .ok () k.switched := by
  rw [schedule, Proc.bind_ok (yieldCurrent_run h), rrPickNext, Kern.switched, Proc.bind_run, Proc.bind_run, Proc.get_run]
  dsimp only
  cases hlist : k.yielded.runList with
  | nil => rfl
  | cons next rest =>
    have hmem : next ∈ k.yielded.runList := by
      rw [hlist]
      exact List.mem_cons_self
    have hdeq : rrDequeue next k.yielded = .ok () (k.yielded.dequeued next) := by
      rw [rrDequeue, Proc.get_bind, Proc.check_bind_pos ⟨hmem, hq next hmem⟩]
      rfl
    show (rrDequeue next >>= _) k.yielded = _
    rw [Proc.bind_ok hdeq]
    rfl

/-! ## What `wakeup_proc` changes -/

namespace Kern

theorem modProc_self (k : Kern) (p : Nat) (f : ProcStruct → ProcStruct) : (k.modProc p f).proc p = f (k.proc p) :=
  Function.update_self p _ _

theorem modProc_other (k : Kern) (f : ProcStruct → ProcStruct) (h : q ≠ p) : (k.modProc p f).proc q = k.proc q :=
  Function.update_of_ne h _ _

theorem classEnqueued_other (h : q ≠ p) : (k.classEnqueued p).proc q = k.proc q := by
  rw [classEnqueued]
  split
  · exact Function.update_of_ne h _ _
  · rfl

/-- The time slice and the mark of the queue are all that changes of a process on its way into the queue. -/
theorem classEnqueued_self {α : Type} (f : ProcStruct → α)
    (hf : ∀ x slice queued, f { x with timeSlice := slice, queued := queued } = f x) :
    f ((k.classEnqueued p).proc p) = f (k.proc p) := by
  rw [classEnqueued]
  split
  · exact (congrArg f (Function.update_self p _ _)).trans (hf (k.proc p) _ true)
  · rfl

theorem woke_other (h : q ≠ p) : (k.woke p).proc q = k.proc q := by
  have hready : ((k.log p).ready p).proc q = k.proc q := modProc_other (k.log p) _ h
  rw [woke]
  split
  · split
    · exact (classEnqueued_other h).trans hready
    · exact hready
  · rfl

theorem woke_state : ((k.woke p).proc p).state = .runnable := by
  have hready : (((k.log p).ready p).proc p).state = .runnable := congrArg ProcStruct.state (modProc_self (k.log p) p _)
  rw [woke]
  split
  · split
    · exact (classEnqueued_self ProcStruct.state fun _ _ _ => rfl).trans hready
    · exact hready
  · next hr => exact not_not.mp hr

theorem woke_waitState : ((k.woke p).proc p).waitState = 0 ∨
    ((k.proc p).state = .runnable ∧ ((k.woke p).proc p).waitState = (k.proc p).waitState) := by
  have hready : (((k.log p).ready p).proc p).waitState = 0 := congrArg ProcStruct.waitState (modProc_self (k.log p) p _)
  rw [woke]
  split
  · refine .inl ?_
    split
    · exact (classEnqueued_self ProcStruct.waitState fun _ _ _ => rfl).trans hready
    · exact hready
  · next hr => exact .inr ⟨not_not.mp hr, rfl⟩

theorem classEnqueued_woken : (k.classEnqueued p).woken = k.woken := by
  rw [classEnqueued]
  split <;> rfl

theorem woke_woken : (k.woke p).woken = p :: k.woken := by
  rw [woke]
  split
  · split
    · exact classEnqueued_woken
    · rfl
  · rfl

theorem mem_woke_runList (h : q ∈ (k.woke p).runList) : q ∈ k.runList ∨ q = p := by
  rw [woke, classEnqueued] at h
  split at h
  · split at h
    · split at h
      · exact (List.mem_append.mp h).imp_right List.mem_singleton.mp
      · exact .inl h
    · exact .inl h
  · exact .inl h

/-! ## What the scheduler leaves alone -/

/-- At most the fields of the scheduler have changed. -/
structure Rescheduled (k k' : Kern) : Prop where
  proc : ∀ p, k'.proc p = { k.proc p with
    state := (k'.proc p).state, waitState := (k'.proc p).waitState, needResched := (k'.proc p).needResched,
    queued := (k'.proc p).queued, timeSlice := (k'.proc p).timeSlice }
  live : k'.live = k.live
  idleproc : k'.idleproc = k.idleproc
  initproc : k'.initproc = k.initproc
  procList : k'.procList = k.procList
  hashList : k'.hashList = k.hashList
  nrProcess : k'.nrProcess = k.nrProcess
  nextSafe : k'.nextSafe = k.nextSafe
  lastPid : k'.lastPid = k.lastPid
  timerList : k'.timerList = k.timerList
  semValue : k'.semValue = k.semValue
  waitQueue : k'.waitQueue = k.waitQueue
  wait : k'.wait = k.wait

namespace Rescheduled

variable {k1 k2 k3 : Kern}

theorem refl (k : Kern) : Rescheduled k k :=
  ⟨fun _ => rfl, rfl, rfl, rfl, rfl, rfl, rfl, rfl, rfl, rfl, rfl, rfl, rfl⟩

theorem trans (h : Rescheduled k1 k2) (h' : Rescheduled k2 k3) : Rescheduled k1 k3 where
  proc p := by
    rw [h'.proc p, h.proc p]
  live := h'.live.trans h.live
  idleproc := h'.idleproc.trans h.idleproc
  initproc := h'.initproc.trans h.initproc
  procList := h'.procList.trans h.procList
  hashList := h'.hashList.trans h.hashList
  nrProcess := h'.nrProcess.trans h.nrProcess
  nextSafe := h'.nextSafe.trans h.nextSafe
  lastPid := h'.lastPid.trans h.lastPid
  timerList := h'.timerList.trans h.timerList
  semValue := h'.semValue.trans h.semValue
  waitQueue := h'.waitQueue.trans h.waitQueue
  wait := h'.wait.trans h.wait

/-- A change of one process in the fields of the scheduler. -/
theorem modProc {f : ProcStruct → ProcStruct} (hf : ∀ x, f x = { x with
    state := (f x).state, waitState := (f x).waitState, needResched := (f x).needResched, queued := (f x).queued,
    timeSlice := (f x).timeSlice }) (k : Kern) (p : Nat) : Rescheduled k (k.modProc p f) := by
  refine ⟨fun q => ?_, rfl, rfl, rfl, rfl, rfl, rfl, rfl, rfl, rfl, rfl, rfl, rfl⟩
  by_cases hq : q = p
  · rw [hq, modProc_self]
    exact hf _
  · rw [modProc_other k f hq]

theorem classEnqueued (k : Kern) (p : Nat) : Rescheduled k (k.classEnqueued p) := by
  rw [Kern.classEnqueued]
  split
  · have hmod := modProc (f := fun x => { x with
      timeSlice := if (k.proc p).timeSlice = 0 ∨ (k.proc p).timeSlice > maxTimeSlice then maxTimeSlice
        else (k.proc p).timeSlice
      queued := true }) (fun _ => rfl) k p
    exact ⟨hmod.proc, rfl, rfl, rfl, rfl, rfl, rfl, rfl, rfl, rfl, rfl, rfl, rfl⟩
  · exact refl k

theorem log (k : Kern) (p : Nat) : Rescheduled k (k.log p) :=
  ⟨fun _ => rfl, rfl, rfl, rfl, rfl, rfl, rfl, rfl, rfl, rfl, rfl, rfl, rfl⟩

theorem woke (k : Kern) (p : Nat) : Rescheduled k (k.woke p) := by
  have hready : Rescheduled k ((k.log p).ready p) := (log k p).trans (modProc (fun _ => rfl) _ p)
  rw [Kern.woke]
  split
  · split
    · exact hready.trans (classEnqueued _ p)
    · exact hready
  · exact log k p

theorem yielded (k : Kern) : Rescheduled k k.yielded := by
  have hmod : Rescheduled k (k.modProc k.current fun x => { x with needResched := false }) := modProc (fun _ => rfl) k _
  rw [Kern.yielded]
  split
  · exact hmod.trans (classEnqueued _ _)
  · exact hmod

theorem switched (k : Kern) : Rescheduled k k.switched := by
  have hyield := yielded k
  rw [Kern.switched]
  split
  · exact ⟨hyield.proc, hyield.live, hyield.idleproc, hyield.initproc, hyield.procList, hyield.hashList,
      hyield.nrProcess, hyield.nextSafe, hyield.lastPid, hyield.timerList, hyield.semValue, hyield.waitQueue, hyield.wait⟩
  · exact ⟨hyield.proc, hyield.live, hyield.idleproc, hyield.initproc, hyield.procList, hyield.hashList,
      hyield.nrProcess, hyield.nextSafe, hyield.lastPid, hyield.timerList, hyield.semValue, hyield.waitQueue, hyield.wait⟩

end Rescheduled

theorem woke_timerList : (k.woke p).timerList = k.timerList := (Rescheduled.woke k p).timerList

@[simp] theorem woke_current : (k.woke p).current = k.current := by
  have henq : ∀ k : Kern, (k.classEnqueued p).current = k.current := by
    intro k
    rw [classEnqueued]
    split <;> rfl
  rw [woke]
  split
  · split
    · exact henq _
    · rfl
  · rfl

end Kern

end Ucore
