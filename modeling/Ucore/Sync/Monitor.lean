import Ucore.Process.System

/-!
# `Sync.Monitor` — `kern/sync/monitor.c`

A monitor is made of semaphores of the kernel. `MonSys` is the kernel together with the counters of one monitor and with
where each process is in it. A step of a process in the monitor is what it does between two calls of `up` and `down`,
so that interrupts come at any of these points; every step is a step of the kernel, or none at all.
-/

namespace Ucore

/-- `monitor_t`, by its semaphores. -/
structure Monitor (numCv : Nat) where
  mutex : Nat
  next : Nat
  cv : Fin numCv → Nat
  mutex_ne_next : mutex ≠ next
  mutex_ne_cv : ∀ j, mutex ≠ cv j
  next_ne_cv : ∀ j, next ≠ cv j
  cv_inj : Function.Injective cv

/-- Where a process is in the monitor. -/
inductive MPc (numCv : Nat) where
  | out
  | entering                -- in `down(&(mtp->mutex))`
  | active
  | signalled               -- in `cond_signal`, between its `up` and its `down`
  | signalling              -- in `down(&(mtp->next))`
  | released (j : Fin numCv)  -- in `cond_wait`, between its `up` and its `down`
  | waiting (j : Fin numCv)   -- in `down(&(cvp->sem))`
deriving DecidableEq

variable {numCv : Nat}

/-- The semaphore that a process is in `down` of. -/
def MPc.sem (m : Monitor numCv) : MPc numCv → Option Nat
  | .entering   => some m.mutex
  | .signalling => some m.next
  | .waiting j  => some (m.cv j)
  | _           => none

structure MonSys (numCv : Nat) where
  sys : Sys
  mpc : Nat → MPc numCv
  nextCount : Int
  count : Fin numCv → Int

namespace MonSys

def current (x : MonSys numCv) : Nat := x.sys.k.current

def goto (x : MonSys numCv) (s : Sys) (p : MPc numCv) : MonSys numCv :=
  { x with sys := s, mpc := Function.update x.mpc x.current p }

/-- What follows the `down` that a process was in. -/
def arrived (x : MonSys numCv) (s : Sys) : MPc numCv → MonSys numCv
  | .signalling => { x.goto s .active with nextCount := x.nextCount - 1 }
  | .waiting j  => { x.goto s .active with count := Function.update x.count j (x.count j - 1) }
  | _           => x.goto s .active

/-- `down` has been called; there was a unit if the process still runs. -/
def called (x : MonSys numCv) (s : Sys) (p : MPc numCv) : MonSys numCv :=
  if s.pc x.current = .run then x.arrived s p else x.goto s p

/-- What is upped to leave the monitor, in `cond_wait` or at its end: `next` if `next_count > 0`, else `mutex`. -/
def exitSem (m : Monitor numCv) (x : MonSys numCv) : Nat := if x.nextCount > 0 then m.next else m.mutex

end MonSys

inductive MonLabel (numCv : Nat) where
  | enter
  | signal (j : Fin numCv)
  | wait (j : Fin numCv)
  | leave
  | down
  | back
  | other (l : Label)

def Monitor.IsSem (m : Monitor numCv) (i : Nat) : Prop := i = m.mutex ∨ i = m.next ∨ ∃ j, i = m.cv j

/-- The event is about the semaphore. -/
def Event.OnSem (i : Nat) : Event → Prop
  | .up j _     => j = i
  | .took j _   => j = i
  | .queued j _ => j = i
  | _           => False

inductive MonStep (m : Monitor numCv) : MonSys numCv → MonLabel numCv → MonSys numCv → Prop where
  | enter {x : MonSys numCv} {s : Sys} (hpc : x.mpc x.current = .out) (h : Step x.sys (.call (.down m.mutex)) s) :
      MonStep m x .enter (x.called s .entering)
  /-- `cond_signal` up to its `down` -/
  | signal {x : MonSys numCv} {s : Sys} {j : Fin numCv} (hpc : x.mpc x.current = .active) (hcount : x.count j > 0)
      (h : Step x.sys (.call (.up (m.cv j))) s) :
      MonStep m x (.signal j) { x.goto s .signalled with nextCount := x.nextCount + 1 }
  /-- `cond_signal` with `cvp->count <= 0` -/
  | signalNone {x : MonSys numCv} {j : Fin numCv} (hpc : x.mpc x.current = .active) (hrun : x.sys.pc x.current = .run)
      (hcount : ¬ x.count j > 0) : MonStep m x (.signal j) x
  /-- `cond_wait` up to its `down` -/
  | wait {x : MonSys numCv} {s : Sys} {j : Fin numCv} (hpc : x.mpc x.current = .active)
      (h : Step x.sys (.call (.up (x.exitSem m))) s) :
      MonStep m x (.wait j) { x.goto s (.released j) with count := Function.update x.count j (x.count j + 1) }
  | leave {x : MonSys numCv} {s : Sys} (hpc : x.mpc x.current = .active) (h : Step x.sys (.call (.up (x.exitSem m))) s) :
      MonStep m x .leave (x.goto s .out)
  | downNext {x : MonSys numCv} {s : Sys} (hpc : x.mpc x.current = .signalled)
      (h : Step x.sys (.call (.down m.next)) s) : MonStep m x .down (x.called s .signalling)
  | downCv {x : MonSys numCv} {s : Sys} {j : Fin numCv} (hpc : x.mpc x.current = .released j)
      (h : Step x.sys (.call (.down (m.cv j))) s) : MonStep m x .down (x.called s (.waiting j))
  /-- A process comes back from `schedule` in one of these `down`s. -/
  | back {x : MonSys numCv} {s : Sys} {i : Nat} (hpc : (x.mpc x.current).sem m = some i) (h : Step x.sys .resume s) :
      MonStep m x .back (x.arrived s (x.mpc x.current))
  /-- Anything else, by anybody. A process that is in `cond_signal` or `cond_wait` calls nothing else, nobody else uses
      the semaphores of the monitor, and nobody exits inside. -/
  | other {x : MonSys numCv} {s : Sys} {l : Label} {e : Event} (h : Step x.sys l s) (he : s.events = e :: x.sys.events)
      (hsem : ∀ i, m.IsSem i → ¬ e.OnSem i) (hcall : ∀ c, l = .call c → x.mpc x.current = .out ∨ x.mpc x.current = .active)
      (hback : l = .resume → (x.mpc x.current).sem m = none)
      (hexit : ∀ code, e = .exit x.current code → x.mpc x.current = .out) : MonStep m x (.other l) { x with sys := s }

/-- `monitor_init` -/
def MonInit (m : Monitor numCv) (semValue : Nat → Int) (x : MonSys numCv) : Prop :=
  (∀ i, 0 ≤ semValue i) ∧ semValue m.mutex = 1 ∧ semValue m.next = 0 ∧ (∀ j, semValue (m.cv j) = 0) ∧
    SysStart semValue x.sys ∧ x.mpc = (fun _ => .out) ∧ x.nextCount = 0 ∧ x.count = fun _ => 0

end Ucore
