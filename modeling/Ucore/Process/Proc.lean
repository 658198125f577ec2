import Ucore.Sync.Sem

/-!
# `Process.Proc` — `kern/process/proc.c`, processes that come and go

`do_fork`, `do_exit`, `do_wait` and `do_kill` on the relations between processes. What they do with memory and files
is left to those subsystems: a `do_fork` here is one whose allocations succeed, with `proc` the address that
`kmalloc` returned.
-/

namespace Ucore

/-! ## Links -/

def setLinks (p : Nat) : KernM Unit := do
  let k ← Proc.get
  match (k.proc p).parent with
  | none   => Proc.stop .null
  | some q => do
    Proc.modify fun k => { k with procList := p :: k.procList }
    Proc.modify fun k => k.modProc p fun x => { x with yptr := none, optr := (k.proc q).cptr }
    Proc.modify fun k => k.modSome (k.proc p).optr fun x => { x with yptr := some p }
    Proc.modify fun k => { (k.modProc q fun x => { x with cptr := some p }) with nrProcess := k.nrProcess + 1 }

def removeLinks (p : Nat) : KernM Unit := do
  Proc.modify fun k => { k with procList := k.procList.erase p }
  Proc.modify fun k => k.modSome (k.proc p).optr fun x => { x with yptr := (k.proc p).yptr }
  let k ← Proc.get
  match (k.proc p).yptr, (k.proc p).parent with
  | some y, _    => Proc.put (k.modProc y fun x => { x with optr := (k.proc p).optr })
  | none, some q => Proc.put (k.modProc q fun x => { x with cptr := (k.proc p).optr })
  | none, none   => Proc.stop .null
  Proc.modify fun k => { k with nrProcess := k.nrProcess - 1 }

/-! ## Process ids -/

/-- `next_safe` and `last_pid` -/
structure PidVars where
  nextSafe : Int
  lastPid : Int
deriving DecidableEq

/-- The part of `get_pid` behind `repeat`, with the pids in `proc_list` and those that the cursor has in front of it. -/
def pidScan (pids : List Int) : Nat → List Int → PidVars → Option PidVars
  | 0, _, _                => none
  | _ + 1, [], v           => some v
  | fuel + 1, pid :: rest, v =>
    if pid = v.lastPid then
      let last := v.lastPid + 1
      if last ≥ v.nextSafe then
        pidScan pids fuel pids { nextSafe := maxPid, lastPid := if last ≥ maxPid then 1 else last }
      else pidScan pids fuel rest { v with lastPid := last }
    else if pid > v.lastPid ∧ v.nextSafe > pid then pidScan pids fuel rest { v with nextSafe := pid }
    else pidScan pids fuel rest v

/-- Enough rounds to go through the list once for every pid. -/
def pidFuel (pids : List Int) : Nat := (2 * maxPid.toNat + 1) * (pids.length + 1)

/-- `get_pid` on its static variables; the pid is `last_pid`. -/
def nextPid (pids : List Int) (v : PidVars) : Option PidVars :=
  let last := v.lastPid + 1
  if last ≥ maxPid then pidScan pids (pidFuel pids) pids { nextSafe := maxPid, lastPid := 1 }
  else if last ≥ v.nextSafe then pidScan pids (pidFuel pids) pids { nextSafe := maxPid, lastPid := last }
  else some { v with lastPid := last }

def getPid : KernM Int := do
  let k ← Proc.get
  match nextPid (k.procList.map fun p => (k.proc p).pid) { nextSafe := k.nextSafe, lastPid := k.lastPid } with
  | none   => Proc.stop .loops
  | some v => do
    Proc.put { k with nextSafe := v.nextSafe, lastPid := v.lastPid }
    pure v.lastPid

/-- `pid_hashfn(x)`: the upper 10 bits of the 32-bit product with `GOLDEN_RATIO_PRIME_32` -/
def pidHashfn (pid : Int) : Nat := (pid % 2 ^ 32).toNat * 0x9e370001 % 2 ^ 32 / 2 ^ 22

def hashProc (p : Nat) : KernM Unit := Proc.modify fun k =>
  let b := pidHashfn (k.proc p).pid
  { k with hashList := Function.update k.hashList b (p :: k.hashList b) }

/-- `list_del` takes the process out of the list it is in. -/
def unhashProc (p : Nat) : KernM Unit := Proc.modify fun k => { k with hashList := fun b => (k.hashList b).erase p }

/-- What `find_proc` returns. -/
def Kern.findProc (k : Kern) (pid : Int) : Option Nat :=
  if 0 < pid ∧ pid < maxPid then (k.hashList (pidHashfn pid)).find? fun p => (k.proc p).pid = pid else none

/-! ## `do_fork` -/

/-- What `alloc_proc` sets. -/
def ProcStruct.fresh : ProcStruct :=
  { state := .uninit, pid := -1, needResched := false, parent := none, exiting := false, exitCode := 0, waitState := 0,
    cptr := none, yptr := none, optr := none, queued := false, timeSlice := 0 }

def allocProc (p : Nat) : KernM Unit := Proc.modify fun k => { k.setProc p .fresh with live := insert p k.live }

def doFork (p : Nat) : KernM Int := do
  let k ← Proc.get
  if k.nrProcess ≥ maxProcess then Proc.fail (-eNoFreeProc)
  else do
    allocProc p
    Proc.modify fun k => k.modProc p fun x => { x with parent := some k.current }
    let k ← Proc.get
    Proc.check .forkState ((k.proc k.current).waitState = 0)
    let pid ← getPid
    Proc.modify fun k => k.modProc p fun x => { x with pid := pid }
    hashProc p
    setLinks p
    wakeupProc p
    pure pid

/-! ## `do_exit` -/

/-- A round of the loop of `do_exit`: the child `p` is handed over to `initproc`. -/
def exitChild (p : Nat) : KernM Unit := do
  Proc.modify fun k => k.modProc k.current fun x => { x with cptr := (k.proc p).optr }
  Proc.modify fun k => k.modProc p fun x => { x with yptr := none, optr := (k.proc k.initproc).cptr }
  Proc.modify fun k => k.modSome (k.proc k.initproc).cptr fun x => { x with yptr := some p }
  Proc.modify fun k => k.modProc p fun x => { x with parent := some k.initproc }
  Proc.modify fun k => k.modProc k.initproc fun x => { x with cptr := some p }
  let k ← Proc.get
  if (k.proc p).state = .zombie ∧ (k.proc k.initproc).waitState = wtChild then wakeupProc k.initproc else pure ()

def exitChildren : Nat → KernM Unit
  | 0        => Proc.stop .loops
  | fuel + 1 => do
    let k ← Proc.get
    match (k.proc k.current).cptr with
    | none   => pure ()
    | some p => do
      exitChild p
      exitChildren fuel

/-- `do_exit` up to its `schedule()`, which does not return. -/
def doExit (errorCode : Int) : KernM Unit := do
  let k ← Proc.get
  Proc.check .idleExit (k.current ≠ k.idleproc)
  Proc.check .initExit (k.current ≠ k.initproc)
  Proc.modify fun k => k.modProc k.current fun x => { x with state := .zombie, exitCode := errorCode }
  let k ← Proc.get
  match (k.proc k.current).parent with
  | none   => Proc.stop .null
  | some q => if (k.proc q).waitState = wtChild then wakeupProc q else pure ()
  exitChildren (k.live.card + 1)

/-! ## `do_wait` -/

/-- What the search for a child comes to: none at all, none that is a zombie, or a zombie. -/
inductive WaitLook where
  | bad
  | none
  | found (p : Nat)

/-- The loop of `do_wait` over `cptr`, `optr`, … -/
def waitChildren (haskid : Bool) : Nat → Option Nat → KernM WaitLook
  | 0, _             => Proc.stop .loops
  | _ + 1, .none     => pure (if haskid = true then .none else .bad)
  | fuel + 1, some p => do
    let k ← Proc.get
    if (k.proc p).state = .zombie then pure (.found p) else waitChildren true fuel (k.proc p).optr

def waitLook (pid : Int) : KernM WaitLook := do
  let k ← Proc.get
  if pid ≠ 0 then
    match k.findProc pid with
    | some p =>
      if (k.proc p).parent = some k.current then
        if (k.proc p).state = .zombie then pure (.found p) else pure .none
      else pure .bad
    | none   => pure .bad
  else waitChildren false (k.live.card + 1) (k.proc k.current).cptr

/-- `do_wait` behind `found`; returns the child's exit code. -/
def waitFound (p : Nat) : KernM Int := do
  let k ← Proc.get
  Proc.check .waitInit (p ≠ k.idleproc ∧ p ≠ k.initproc)
  let exitCode := (k.proc p).exitCode
  unhashProc p
  removeLinks p
  Proc.modify fun k => { k with live := k.live.erase p }
  pure exitCode

/-- `do_wait` from `repeat` to its `schedule()` or its end: `none` when it has to wait, else the child and the exit code
    stored. -/
def doWait (pid : Int) : KernM (Option (Nat × Int)) := do
  let look ← waitLook pid
  match look with
  | .bad     => Proc.fail (-eBadProc)
  | .none    => do
    Proc.modify fun k => k.modProc k.current fun x => { x with state := .sleeping, waitState := wtChild }
    pure none
  | .found p => do
    let exitCode ← waitFound p
    pure (some (p, exitCode))

/-! ## `do_kill` and `do_sleep` -/

def doKill (pid : Int) : KernM Int := do
  let k ← Proc.get
  match k.findProc pid with
  | none   => Proc.fail (-eInval)
  | some p =>
    if (k.proc p).exiting = false then do
      Proc.put (k.modProc p fun x => { x with exiting := true })
      if interruptible (k.proc p).waitState = true then wakeupProc p else pure ()
      pure 0
    else Proc.fail (-eKilled)

/-- `do_sleep` up to its `schedule()`, `false` if it gets that far; behind it comes `del_timer`. The timer of a
    process has its address here. -/
def doSleep (time : Nat) : KernM Bool := do
  if time = 0 then pure true
  else do
    let k ← Proc.get
    Proc.put (k.modProc k.current fun x => { x with state := .sleeping, waitState := wtTimer })
    addTimer { link := k.current, proc := k.current, expires := time }
    pure false

/-! ## `proc_init` -/

/-- The kernel when `proc_init` has set up `idleproc`, at the address 0, with the semaphores as they were set up. -/
def Kern.idle (semValue : Nat → Int) : Kern where
  proc _ := { ProcStruct.fresh with pid := 0, state := .runnable, needResched := true }
  live := {0}
  current := 0
  idleproc := 0
  initproc := 0
  runList := []
  procNum := 0
  procList := []
  hashList _ := []
  nrProcess := 1
  nextSafe := maxPid
  lastPid := maxPid
  timerList := []
  semValue := semValue
  waitQueue _ := []
  wait _ := { wakeupFlags := 0, waitQueue := .stdin }
  rpos := 0
  wpos := 0
  woken := []

/-- The rest of `proc_init`: the thread for `init_main` is at `p`. -/
def procInit (p : Nat) : KernM Unit := do
  let pid ← doFork p
  let k ← Proc.get
  match k.findProc pid with
  | none   => Proc.stop .null
  | some q => Proc.put { k with initproc := q }

end Ucore
