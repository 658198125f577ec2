import Ucore.Process.Kern

/-!
# `Schedule.Sched` — `kern/schedule/sched.c` and the round-robin class of `default_sched.c`

The scheduler and the timer list. Switching to another process is a change of `current`.
-/

namespace Ucore

namespace Kern

/-- `proc` goes to the end of the run queue, with a time slice. -/
def enqueued (k : Kern) (p : Nat) : Kern :=
  let slice := (k.proc p).timeSlice
  let slice := if slice = 0 ∨ slice > maxTimeSlice then maxTimeSlice else slice
  { (k.modProc p fun x => { x with timeSlice := slice, queued := true }) with
    runList := k.runList ++ [p], procNum := k.procNum + 1 }

def dequeued (k : Kern) (p : Nat) : Kern := { k with runList := k.runList.erase p, procNum := k.procNum - 1 }

def log (k : Kern) (p : Nat) : Kern := { k with woken := p :: k.woken }

def ready (k : Kern) (p : Nat) : Kern := k.modProc p fun x => { x with state := .runnable, waitState := 0 }

def setCurrent (k : Kern) (p : Nat) : Kern := { k with current := p }

def setTimers (k : Kern) (ts : List Timer) : Kern := { k with timerList := ts }

end Kern

/-! ## `default_sched.c` -/

/-- `list_empty(&(proc->run_link))` holds as long as the process is not in `run_list`. -/
def rrEnqueue (p : Nat) : KernM Unit := do
  let k ← Proc.get
  Proc.check .enqueue (p ∉ k.runList)
  Proc.put (k.enqueued p)

def rrDequeue (p : Nat) : KernM Unit := do
  let k ← Proc.get
  Proc.check .dequeue (p ∈ k.runList ∧ (k.proc p).queued = true)
  Proc.put (k.dequeued p)

def rrPickNext : KernM (Option Nat) := do
  let k ← Proc.get
  pure k.runList.head?

def rrProcTick (p : Nat) : KernM Unit :=
  Proc.modify fun k => k.modProc p fun x =>
    let slice := x.timeSlice - 1
    { x with timeSlice := slice, needResched := if slice = 0 then true else x.needResched }

/-! ## `sched.c` -/

def schedClassEnqueue (p : Nat) : KernM Unit := do
  let k ← Proc.get
  if p ≠ k.idleproc then rrEnqueue p else pure ()

def schedClassProcTick (p : Nat) : KernM Unit := do
  let k ← Proc.get
  if p ≠ k.idleproc then rrProcTick p
  else Proc.modify fun k => k.modProc p fun x => { x with needResched := true }

def wakeupProc (p : Nat) : KernM Unit := do
  Proc.modify fun k => k.log p
  let k ← Proc.get
  Proc.check .wakeupZombie ((k.proc p).state ≠ .zombie)
  if (k.proc p).state ≠ .runnable then do
    Proc.put (k.ready p)
    if p ≠ k.current then schedClassEnqueue p else pure ()
  else pure ()

/-- The first half of `schedule`: a process that can go on goes back to the run queue. -/
def yieldCurrent : KernM Unit := do
  Proc.modify fun k => k.modProc k.current fun x => { x with needResched := false }
  let k ← Proc.get
  if (k.proc k.current).state = .runnable then schedClassEnqueue k.current else pure ()

def schedule : KernM Unit := do
  yieldCurrent
  let next ← rrPickNext
  match next with
  | some next => do
    rrDequeue next
    Proc.modify fun k => k.setCurrent next
  | none      => Proc.modify fun k => k.setCurrent k.idleproc

/-! ## Timers -/

/-- The loop of `add_timer`: where the timer goes, and how it and the timer behind it change. The sums are those of
    32-bit counters. -/
def timerInsert (timer : Timer) : List Timer → List Timer
  | []           => [timer]
  | next :: rest =>
    if timer.expires < next.expires then timer :: { next with expires := next.expires - timer.expires } :: rest
    else next :: timerInsert { timer with expires := timer.expires - next.expires } rest

/-- The timer is in the list. -/
def timerQueued (link : Nat) (ts : List Timer) : Bool := ts.any fun t => t.link == link

def addTimer (timer : Timer) : KernM Unit := do
  let k ← Proc.get
  Proc.check .timerAdd (timer.expires > 0)
  Proc.check .timerLinked (timerQueued timer.link k.timerList = false)
  Proc.put (k.setTimers (timerInsert timer k.timerList))

/-- Taking a timer out; the one behind it takes over what was left of it. -/
def timerRemove (link : Nat) : List Timer → List Timer
  | []        => []
  | t :: rest =>
    if t.link = link then
      match rest with
      | []            => []
      | next :: rest =>
        if t.expires ≠ 0 then { next with expires := (next.expires + t.expires) % 2 ^ 32 } :: rest
        else next :: rest
    else t :: timerRemove link rest

/-- `del_timer`; a timer that is not in the list stays out. -/
def delTimer (link : Nat) : KernM Unit := Proc.modify fun k => k.setTimers (timerRemove link k.timerList)

/-- The loop of `run_timer_list`; `timer` and `rest` are what the cursor has in front of it. Taking out a timer with
    `expires == 0` leaves them as they are. -/
def expireLoop : List Timer → KernM Unit
  | []            => pure ()
  | timer :: rest =>
    if timer.expires = 0 then do
      let k ← Proc.get
      let waitState := (k.proc timer.proc).waitState
      Proc.check .timerWait (waitState ≠ 0 → interruptible waitState = true)
      wakeupProc timer.proc
      delTimer timer.link
      expireLoop rest
    else pure ()

def runTimerList : KernM Unit := do
  let k ← Proc.get
  match k.timerList with
  | []            => pure ()
  | timer :: rest => do
    Proc.check .timerHead (timer.expires ≠ 0)
    let timer := { timer with expires := timer.expires - 1 }
    Proc.put (k.setTimers (timer :: rest))
    expireLoop (timer :: rest)
  let k ← Proc.get
  schedClassProcTick k.current

end Ucore
