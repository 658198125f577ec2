import Mathlib.Data.Finset.Card
import Ucore.Lib.Proc
import Ucore.Libs.Error

/-!
# `Process.Kern` — the processes of the kernel and what they wait for

`Kern` is the state that `proc.c`, `sched.c`, `sem.c`, `wait.c` and the keyboard device share: the `proc_struct`s,
known by their addresses, the run queue, the process list, the hash list, the timers, and the wait queues. The
intrusive lists are lists of addresses here, in their order. A `wait_t` and a `timer_t` of a process live on its
kernel stack, and a process has one of them at a time. Of the buffer of `dev_stdin.c` only the two positions matter.

`woken` remembers the calls of `wakeup_proc`, the last one first.
-/

namespace Ucore

/-- `enum proc_state` -/
inductive ProcState where
  | uninit
  | sleeping
  | runnable
  | zombie
deriving DecidableEq

/-- `WT_INTERRUPTED`, `WT_CHILD`, `WT_KSEM`, `WT_TIMER` and `WT_KBD` -/
def wtInterrupted : Nat := 0x80000000
def wtChild : Nat := 0x80000001
def wtKsem : Nat := 0x00000100
def wtTimer : Nat := 0x80000002
def wtKbd : Nat := 0x80000004

/-- `wait_state & WT_INTERRUPTED` -/
def interruptible (waitState : Nat) : Bool := waitState &&& wtInterrupted != 0

/-- `MAX_TIME_SLICE`, `MAX_PROCESS` and `MAX_PID` -/
def maxTimeSlice : Nat := 5
def maxProcess : Int := 4096
def maxPid : Int := maxProcess * 2

/-- `struct proc_struct`; `exiting` is `flags & PF_EXITING`, and `queued` is `rq != NULL`. -/
structure ProcStruct where
  state : ProcState
  pid : Int
  needResched : Bool
  parent : Option Nat
  exiting : Bool
  exitCode : Int
  waitState : Nat
  cptr : Option Nat
  yptr : Option Nat
  optr : Option Nat
  queued : Bool
  timeSlice : Nat

/-- `timer_t`; `link` is the address of the timer itself. -/
structure Timer where
  link : Nat
  proc : Nat
  expires : Nat
deriving DecidableEq

/-- The wait queues: those of the semaphores, and the one of `dev_stdin.c`. -/
inductive QueueId where
  | sem (i : Nat)
  | stdin
deriving DecidableEq

/-- `wait_t`, apart from its process and its link. -/
structure Wait where
  wakeupFlags : Nat
  waitQueue : QueueId

structure Kern where
  proc : Nat → ProcStruct
  live : Finset Nat
  current : Nat
  idleproc : Nat
  initproc : Nat
  runList : List Nat
  procNum : Int
  procList : List Nat
  hashList : Nat → List Nat
  nrProcess : Int
  nextSafe : Int
  lastPid : Int
  timerList : List Timer
  semValue : Nat → Int
  waitQueue : QueueId → List Nat
  wait : Nat → Wait
  rpos : Nat
  wpos : Nat
  woken : List Nat

/-- The assertions and panics of the functions below. -/
inductive KernPanic where
  | wakeupZombie   -- `wakeup_proc`: `assert(proc->state != PROC_ZOMBIE)`
  | enqueue        -- `RR_enqueue`: `assert(list_empty(&(proc->run_link)))`
  | dequeue        -- `RR_dequeue`: `assert(!list_empty(&(proc->run_link)) && proc->rq == rq)`
  | timerAdd       -- `add_timer`: `assert(timer->expires > 0 && timer->proc != NULL)`
  | timerLinked    -- `add_timer`: `assert(list_empty(&(timer->timer_link)))`
  | timerHead      -- `run_timer_list`: `assert(timer->expires != 0)`
  | timerWait      -- `run_timer_list`: `assert(proc->wait_state & WT_INTERRUPTED)`
  | waitAdd        -- `wait_queue_add`: `assert(list_empty(&(wait->wait_link)) && …)`
  | waitDel        -- `wait_queue_del`: `assert(!list_empty(&(wait->wait_link)) && …)`
  | upState        -- `__up`: `assert(wait->proc->wait_state == wait_state)`
  | downFlags      -- `down`: `assert(flags == 0)`
  | forkState      -- `do_fork`: `assert(current->wait_state == 0)`
  | idleExit       -- `do_exit`: `panic("idleproc exit.\n")`
  | initExit       -- `do_exit`: `panic("initproc exit.\n")`
  | exitReturns    -- `do_exit`: `panic("do_exit will not return!! …")`
  | waitInit       -- `do_wait`: `panic("wait idleproc or initproc.\n")`
  | null           -- a `NULL` pointer is followed
  | loops          -- a loop that would not end
deriving DecidableEq

abbrev KernM (α : Type) := Proc KernPanic Int Kern α

namespace Kern

def setProc (k : Kern) (p : Nat) (x : ProcStruct) : Kern := { k with proc := Function.update k.proc p x }

/-- Change the `proc_struct` at `p`. -/
def modProc (k : Kern) (p : Nat) (f : ProcStruct → ProcStruct) : Kern := k.setProc p (f (k.proc p))

/-- Change the `proc_struct` that a pointer leads to, unless it is `NULL`. -/
def modSome (k : Kern) (o : Option Nat) (f : ProcStruct → ProcStruct) : Kern :=
  match o with
  | some p => k.modProc p f
  | none   => k

def setQueue (k : Kern) (q : QueueId) (ps : List Nat) : Kern :=
  { k with waitQueue := Function.update k.waitQueue q ps }

def setWait (k : Kern) (p : Nat) (w : Wait) : Kern := { k with wait := Function.update k.wait p w }

def setSem (k : Kern) (i : Nat) (v : Int) : Kern := { k with semValue := Function.update k.semValue i v }

end Kern

end Ucore
