import Ucore.Libs.SkewHeap
import Ucore.Process.Kern

/-!
# `Schedule.DefaultSchedStride` — `kern/schedule/default_sched_stride.c` of lab6

The stride class, and the functions of lab6's `sched.c` and `proc.c` that drive it. A process is known by its number, and so
is the heap node inside it; `idleproc` is number 0. `lab6_stride` and `lab6_priority` are `uint32_t`. The list `run_list`,
which this class only initialises, is left out, and so is `runs`.

`skew_heap_insert` and `skew_heap_remove` get one unit of fuel for each queued process.
-/

namespace Ucore.Stride

/-- `BIG_STRIDE` -/
def bigStride : Nat := 0x7FFFFFFF

/-- `idleproc` -/
def idleproc : Nat := 0

/-- The fields of `struct proc_struct` that the class works with. -/
structure StrideProc where
  state : ProcState
  needResched : Bool
  onRq : Bool              -- `proc->rq` points at the run queue
  timeSlice : Int
  lab6Stride : BitVec 32
  lab6Priority : BitVec 32

/-- `struct run_queue`, with the processes and their heap nodes. -/
structure RunQueue where
  proc : Nat → StrideProc
  node : SkewHeapMem Nat
  lab6RunPool : Option Nat
  procNum : Nat
  maxTimeSlice : Int

namespace RunQueue

def modProc (rq : RunQueue) (p : Nat) (f : StrideProc → StrideProc) : RunQueue :=
  { rq with proc := Function.update rq.proc p (f (rq.proc p)) }

end RunQueue

def procStrideCompF (rq : RunQueue) (p q : Nat) : Int :=
  let c := ((rq.proc p).lab6Stride - (rq.proc q).lab6Stride).toInt
  if 0 < c then 1 else if c = 0 then 0 else -1

def strideInit (rq : RunQueue) : RunQueue := { rq with lab6RunPool := none, procNum := 0 }

def strideEnqueue (rq : RunQueue) (proc : Nat) : Option RunQueue := do
  let (node, pool) ← skewHeapInsert (procStrideCompF rq) (rq.procNum + 1) rq.node rq.lab6RunPool proc
  let rq := { rq with node := node, lab6RunPool := pool }
  let rq := rq.modProc proc fun p =>
    { p with timeSlice := if p.timeSlice = 0 ∨ rq.maxTimeSlice < p.timeSlice then rq.maxTimeSlice else p.timeSlice }
  let rq := rq.modProc proc fun p => { p with onRq := true }
  pure { rq with procNum := rq.procNum + 1 }

def strideDequeue (rq : RunQueue) (proc : Nat) : Option RunQueue := do
  let (node, pool) ← skewHeapRemove (procStrideCompF rq) rq.procNum rq.node rq.lab6RunPool proc
  pure { rq with node := node, lab6RunPool := pool, procNum := rq.procNum - 1 }

/-- `BIG_STRIDE / p->lab6_priority` -/
def StrideProc.pass (p : StrideProc) : BitVec 32 := BitVec.ofNat 32 bigStride / p.lab6Priority

/-- The process chosen, and the queue with its new stride; it stays on the queue. -/
def stridePickNext (rq : RunQueue) : Option Nat × RunQueue :=
  match rq.lab6RunPool with
  | none   => (none, rq)
  | some p =>
    let rq := rq.modProc p fun p => { p with lab6Priority := if p.lab6Priority = 0 then 1 else p.lab6Priority }
    (some p, rq.modProc p fun p => { p with lab6Stride := p.lab6Stride + p.pass })

def strideProcTick (rq : RunQueue) (proc : Nat) : RunQueue :=
  let rq := rq.modProc proc fun p => { p with timeSlice := if 0 < p.timeSlice then p.timeSlice - 1 else p.timeSlice }
  rq.modProc proc fun p => { p with needResched := if p.timeSlice = 0 then true else p.needResched }

/-! ## `sched.c` -/

structure StrideKern where
  rq : RunQueue
  current : Nat

namespace StrideKern

def modProc (k : StrideKern) (p : Nat) (f : StrideProc → StrideProc) : StrideKern := { k with rq := k.rq.modProc p f }

end StrideKern

def schedClassEnqueue (k : StrideKern) (proc : Nat) : Option StrideKern :=
  if proc ≠ idleproc then do
    let rq ← strideEnqueue k.rq proc
    pure { k with rq := rq }
  else pure k

def schedClassProcTick (k : StrideKern) (proc : Nat) : StrideKern :=
  if proc ≠ idleproc then { k with rq := strideProcTick k.rq proc }
  else k.modProc proc fun p => { p with needResched := true }

/-- The caller sees to it that `proc` is not a zombie. -/
def wakeupProc (k : StrideKern) (proc : Nat) : Option StrideKern :=
  if (k.rq.proc proc).state ≠ .runnable then
    let k := k.modProc proc fun p => { p with state := .runnable }
    if proc ≠ k.current then schedClassEnqueue k proc else pure k
  else pure k

/-- The first part of `schedule`: the current process goes back on the queue if it can go on. -/
def requeueCurrent (k : StrideKern) : Option StrideKern :=
  let k := k.modProc k.current fun p => { p with needResched := false }
  if (k.rq.proc k.current).state = .runnable then schedClassEnqueue k k.current else pure k

def schedule (k : StrideKern) : Option StrideKern := do
  let k ← requeueCurrent k
  match stridePickNext k.rq with
  | (none, rq)      => pure { rq := rq, current := idleproc }
  | (some next, rq) => do
    let rq ← strideDequeue rq next
    pure { rq := rq, current := next }

/-! ## `proc.c` -/

/-- What `alloc_proc` sets, and the heap node, are those of a new process. -/
def allocProc (k : StrideKern) (proc : Nat) : StrideKern :=
  { k with rq := { k.rq.modProc proc fun _ =>
      { state := .uninit, needResched := false, onRq := false, timeSlice := 0, lab6Stride := 0, lab6Priority := 1 } with
    node := skewHeapInit k.rq.node proc } }

def lab6SetPriority (k : StrideKern) (priority : BitVec 32) : StrideKern :=
  k.modProc k.current fun p => { p with lab6Priority := if priority = 0 then 1 else priority }

end Ucore.Stride
