import Ucore.Schedule.DefaultSchedStride

/-!
# `Schedule.StrideLab8` — `kern/schedule/default_sched_stride.c` of lab8

Where the stride class of lab8 differs from that of lab6: `BIG_STRIDE` is smaller, `stride_dequeue` has an assertion,
`alloc_proc` starts with the priority 0, and `stride_pick_next` divides by the priority whatever it is. The other functions are
those of lab6. The language does not say what a division by zero gives; here it is the number `byZero`, any one.
-/

namespace Ucore.Stride.Lab8

/-- `BIG_STRIDE` -/
def bigStride : Nat := 2 ^ 30

/-- The assertion, and then lab6's `stride_dequeue`. -/
def strideDequeue (rq : RunQueue) (proc : Nat) : Option RunQueue :=
  if (rq.proc proc).onRq ∧ 0 < rq.procNum then Stride.strideDequeue rq proc else none

/-- `BIG_STRIDE / proc->lab6_priority` -/
def pass (byZero : BitVec 32) (p : StrideProc) : BitVec 32 :=
  if p.lab6Priority = 0 then byZero else BitVec.ofNat 32 bigStride / p.lab6Priority

def stridePickNext (byZero : BitVec 32) (rq : RunQueue) : Option Nat × RunQueue :=
  match rq.lab6RunPool with
  | none   => (none, rq)
  | some p => (some p, rq.modProc p fun p => { p with lab6Stride := p.lab6Stride + pass byZero p })

def schedule (byZero : BitVec 32) (k : StrideKern) : Option StrideKern := do
  let k ← requeueCurrent k
  match stridePickNext byZero k.rq with
  | (none, rq)      => pure { rq := rq, current := idleproc }
  | (some next, rq) => do
    let rq ← strideDequeue rq next
    pure { rq := rq, current := next }

/-- What `alloc_proc` sets, and the heap node, are those of a new process. -/
def allocProc (k : StrideKern) (proc : Nat) : StrideKern :=
  { k with rq := { k.rq.modProc proc fun _ =>
      { state := .uninit, needResched := false, onRq := false, timeSlice := 0, lab6Stride := 0, lab6Priority := 0 } with
    node := skewHeapInit k.rq.node proc } }

end Ucore.Stride.Lab8
