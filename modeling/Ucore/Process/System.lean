import Ucore.Lib.Run
import Ucore.Process.Proc

/-!
# `Process.System` — the kernel as a system of processes

Processes switch only in `schedule`, so what a process does between two calls of it is one step. A process that is about
to call `schedule` stands at `pre`, and behind that call, whether it is running again or not yet, at `post`; `Blocked` is
what it called `schedule` for. Interrupts come at any of these points.

The history `events` has the last event first.
-/

namespace Ucore

/-- What a process has called `schedule` for. -/
inductive Blocked where
  | yield
  | down (i : Nat)
  | wait (pid : Int)
  | sleep
  | read (left : Nat)
  | exit
deriving DecidableEq

inductive Pc where
  | run
  | pre (b : Blocked)
  | post (b : Blocked)
deriving DecidableEq

def Pc.blocked : Pc → Option Blocked
  | .run    => none
  | .pre b  => some b
  | .post b => some b

/-- A step of the system as far as it matters for the history. -/
inductive Event where
  | other
  | up (i : Nat) (next : Option Nat)    -- `next` is the process that it released
  | took (i p : Nat)                    -- `p` took a unit without waiting
  | queued (i p : Nat)                  -- `p` has to wait in `down`
  | fork (p : Nat)
  | exit (p : Nat) (code : Int)
  | reported (caller : Nat) (pid : Int) (child : Nat) (code : Int)   -- `do_wait(pid)` has returned 0
deriving DecidableEq

/-- What a process calls. -/
inductive Call where
  | yield
  | up (i : Nat)
  | down (i : Nat)
  | tryDown (i : Nat)
  | fork (p : Nat)        -- with a `proc_struct` at `p`
  | exit (code : Int)
  | wait (pid : Int)
  | kill (pid : Int)
  | sleep (time : Nat)
  | read (len : Nat)

/-- `do_wait` again and again until it has to wait or ends. -/
def waitGo (pid : Int) : KernM (Event × Pc) := do
  let k ← Proc.get
  match ← Proc.attempt (doWait pid) with
  | .ok none               => pure (.other, .pre (.wait pid))
  | .ok (some (child, code)) => pure (.reported k.current pid child code, .run)
  | .error _               => pure (.other, .run)

def exitGo (code : Int) : KernM (Event × Pc) := do
  let k ← Proc.get
  doExit code
  pure (.exit k.current code, .pre .exit)

def readGo (len : Nat) : KernM (Event × Pc) := do
  match ← devStdinRead len with
  | none      => pure (.other, .run)
  | some left => pure (.other, .pre (.read left))

/-- A call, up to the `schedule` in it or to its end. -/
def Call.start : Call → KernM (Event × Pc)
  | .yield      => pure (.other, .pre .yield)
  | .up i       => do
    let k ← Proc.get
    Ucore.up i
    pure (.up i (k.waitQueue (.sem i)).head?, .run)
  | .down i     => do
    let k ← Proc.get
    if ← downStart i then pure (.took i k.current, .run) else pure (.queued i k.current, .pre (.down i))
  | .tryDown i  => do
    let k ← Proc.get
    if ← Ucore.tryDown i then pure (.took i k.current, .run) else pure (.other, .run)
  | .fork p     => do
    match ← Proc.attempt (doFork p) with
    | .ok _    => pure (.fork p, .run)
    | .error _ => pure (.other, .run)
  | .exit code  => exitGo code
  | .wait pid   => waitGo pid
  | .kill pid   => do
    let _ ← Proc.attempt (doKill pid)
    pure (.other, .run)
  | .sleep time => do
    if ← doSleep time then pure (.other, .run) else pure (.other, .pre .sleep)
  | .read len   => readGo len

/-- What comes behind a `schedule`. -/
def Blocked.resume : Blocked → KernM (Event × Pc)
  | .yield     => pure (.other, .run)
  | .down i    => do
    downEnd i
    pure (.other, .run)
  | .wait pid  => do
    let k ← Proc.get
    if (k.proc k.current).exiting = true then exitGo (-eKilled) else waitGo pid
  | .sleep     => do
    let k ← Proc.get
    delTimer k.current
    pure (.other, .run)
  | .read left => do
    match ← devStdinResume left with
    | none      => pure (.other, .run)
    | some left => pure (.other, .pre (.read left))
  | .exit      => Proc.stop .exitReturns

structure Sys where
  k : Kern
  pc : Nat → Pc
  events : List Event

/-- The running process has got to `pc`. A new process starts with its own code. -/
def Sys.move (s : Sys) (k : Kern) (e : Event) (pc : Pc) : Sys where
  k := k
  pc p := if p = s.k.current then pc else if e = .fork p then .run else s.pc p
  events := e :: s.events

/-- What the processes may call: `idleproc` does nothing but yield, and `kmalloc` returns memory that is not in use. -/
def Call.Ok (k : Kern) : Call → Prop
  | .yield  => True
  | .fork p => k.current ≠ k.idleproc ∧ p ∉ k.live
  | _       => k.current ≠ k.idleproc

inductive Label where
  | call (c : Call)
  | switch
  | resume
  | tick
  | key

/-- A step of the running process, or an interrupt. -/
inductive Step : Sys → Label → Sys → Prop where
  | call {s : Sys} {c : Call} {e : Event} {pc : Pc} {k : Kern} (hpc : s.pc s.k.current = .run) (hok : c.Ok s.k)
      (h : c.start s.k = .ok (e, pc) k) : Step s (.call c) (s.move k e pc)
  | switch {s : Sys} {b : Blocked} {k : Kern} (hpc : s.pc s.k.current = .pre b) (h : schedule s.k = .ok () k) :
      Step s .switch (s.move k .other (.post b))
  | resume {s : Sys} {b : Blocked} {e : Event} {pc : Pc} {k : Kern} (hpc : s.pc s.k.current = .post b)
      (h : b.resume s.k = .ok (e, pc) k) : Step s .resume (s.move k e pc)
  | tick {s : Sys} {k : Kern} (h : runTimerList s.k = .ok () k) :
      Step s .tick (s.move k .other (s.pc s.k.current))
  | key {s : Sys} {k : Kern} (h : devStdinWrite s.k = .ok () k) :
      Step s .key (s.move k .other (s.pc s.k.current))

/-- Where the next step of the running process, or an interrupt, stops the machine. -/
inductive Stops : Sys → KernPanic → Prop where
  | call {s : Sys} {c : Call} {x : KernPanic} (hpc : s.pc s.k.current = .run) (hok : c.Ok s.k)
      (h : c.start s.k = .panic x) : Stops s x
  | switch {s : Sys} {b : Blocked} {x : KernPanic} (hpc : s.pc s.k.current = .pre b) (h : schedule s.k = .panic x) :
      Stops s x
  | resume {s : Sys} {b : Blocked} {x : KernPanic} (hpc : s.pc s.k.current = .post b) (h : b.resume s.k = .panic x) :
      Stops s x
  | tick {s : Sys} {x : KernPanic} (h : runTimerList s.k = .panic x) : Stops s x
  | key {s : Sys} {x : KernPanic} (h : devStdinWrite s.k = .panic x) : Stops s x

/-- `proc_init` is through, and the semaphores were set up with these values. -/
def SysStart (semValue : Nat → Int) (s : Sys) : Prop :=
  ∃ p, p ≠ 0 ∧ procInit p (Kern.idle semValue) = .ok () s.k ∧ s.pc = (fun _ => .run) ∧ s.events = []

def SysInit (s : Sys) : Prop := ∃ semValue, (∀ i, 0 ≤ semValue i) ∧ SysStart semValue s

/-! ## Running the system -/

instance (k : Kern) : DecidablePred (Call.Ok k)
  | .yield     => inferInstanceAs (Decidable True)
  | .fork p    => inferInstanceAs (Decidable (k.current ≠ k.idleproc ∧ p ∉ k.live))
  | .up _      => inferInstanceAs (Decidable (k.current ≠ k.idleproc))
  | .down _    => inferInstanceAs (Decidable (k.current ≠ k.idleproc))
  | .tryDown _ => inferInstanceAs (Decidable (k.current ≠ k.idleproc))
  | .exit _    => inferInstanceAs (Decidable (k.current ≠ k.idleproc))
  | .wait _    => inferInstanceAs (Decidable (k.current ≠ k.idleproc))
  | .kill _    => inferInstanceAs (Decidable (k.current ≠ k.idleproc))
  | .sleep _   => inferInstanceAs (Decidable (k.current ≠ k.idleproc))
  | .read _    => inferInstanceAs (Decidable (k.current ≠ k.idleproc))

def Sys.moved (s : Sys) : Outcome KernPanic Int Kern (Event × Pc) → Option Sys
  | .ok (e, pc) k => some (s.move k e pc)
  | _             => none

/-- The step with this label, if there is one. -/
def Sys.next (s : Sys) : Label → Option Sys
  | .call c => if s.pc s.k.current = .run ∧ c.Ok s.k then s.moved (c.start s.k) else none
  | .switch =>
    match s.pc s.k.current with
    | .pre b => s.moved ((schedule >>= fun _ => pure (.other, .post b) : KernM (Event × Pc)) s.k)
    | _      => none
  | .resume =>
    match s.pc s.k.current with
    | .post b => s.moved (b.resume s.k)
    | _       => none
  | .tick   => s.moved ((runTimerList >>= fun _ => pure (.other, s.pc s.k.current) : KernM (Event × Pc)) s.k)
  | .key    => s.moved ((devStdinWrite >>= fun _ => pure (.other, s.pc s.k.current) : KernM (Event × Pc)) s.k)

/-- The system when `proc_init` is through. -/
def Sys.boot (semValue : Nat → Int) (p : Nat) : Option Sys :=
  match procInit p (Kern.idle semValue) with
  | .ok _ k => some { k := k, pc := fun _ => .run, events := [] }
  | _       => none

end Ucore
