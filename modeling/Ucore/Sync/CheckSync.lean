import Ucore.Sync.Monitor

/-!
# `Sync.CheckSync` — the dining philosophers of `kern/sync/check_sync.c`

`N` philosophers sit in a ring; each is a process that calls `take_forks` and `put_forks` by turns. A step is what a
philosopher does between two calls of the kernel, or of the monitor; what the other processes and the interrupts do comes
in between. A philosopher may be switched off at any of these points.
-/

namespace Ucore

variable {N : Nat}

/-- `LEFT` -/
def left (i : Fin N) : Fin N := ⟨(i.val + N - 1) % N, Nat.mod_lt _ (Fin.pos i)⟩

/-- `RIGHT` -/
def right (i : Fin N) : Fin N := ⟨(i.val + 1) % N, Nat.mod_lt _ (Fin.pos i)⟩

inductive PhiState where
  | thinking
  | hungry
  | eating
deriving DecidableEq

/-- The condition of `phi_test_sema` and `phi_test_condvar`. -/
def phiTest (st : Fin N → PhiState) (i : Fin N) : Prop := st i = .hungry ∧ st (left i) ≠ .eating ∧ st (right i) ≠ .eating

instance (st : Fin N → PhiState) : DecidablePred (phiTest st) := fun i =>
  inferInstanceAs (Decidable (st i = .hungry ∧ st (left i) ≠ .eating ∧ st (right i) ≠ .eating))

/-- How far a philosopher is. -/
inductive PhiStage where
  | thinking
  | takeIn       -- `down(&mutex)` has been called by `take_forks`
  | takeTested   -- it has become `HUNGRY`, and has tested itself
  | takeLast     -- before the last call of `take_forks`
  | eating
  | putIn        -- `down(&mutex)` has been called by `put_forks`
  | putLeft      -- it is `THINKING`, and has tested the left neighbour
  | putRight     -- it has tested the right neighbour
deriving DecidableEq

/-- The calls of `phi_test`, each with the assignment before it: from where and from which states, for which states and
    whom it is called, and where it ends. -/
inductive PhiTest (i : Fin N) : PhiStage → (Fin N → PhiState) → (Fin N → PhiState) → Fin N → PhiStage → Prop where
  | take {st : Fin N → PhiState} : PhiTest i .takeIn st (Function.update st i .hungry) i .takeTested
  | putLeft {st : Fin N → PhiState} : PhiTest i .putIn st (Function.update st i .thinking) (left i) .putLeft
  | putRight {st : Fin N → PhiState} : PhiTest i .putLeft st st (right i) .putRight

/-! ## With semaphores -/

/-- `mutex` and `s`, and the processes of the philosophers -/
structure PhiSema (N : Nat) where
  philosopher : Fin N → Nat
  mutex : Nat
  s : Fin N → Nat
  philosopher_inj : Function.Injective philosopher
  mutex_ne_s : ∀ i, mutex ≠ s i
  s_inj : Function.Injective s

/-- With `inDown` it has not yet come back from the `down` that it called last. -/
structure PhiPc where
  stage : PhiStage
  inDown : Bool
deriving DecidableEq

/-- The semaphore that a philosopher is in `down` of. -/
def PhiPc.sem (P : PhiSema N) (i : Fin N) : PhiPc → Option Nat
  | ⟨.takeIn, true⟩ => some P.mutex
  | ⟨.eating, true⟩ => some (P.s i)
  | ⟨.putIn, true⟩  => some P.mutex
  | _               => none

structure PhiSys (N : Nat) where
  sys : Sys
  pc : Fin N → PhiPc
  state : Fin N → PhiState    -- `state_sema`

namespace PhiSys

/-- Philosopher `i` goes on to `v`. -/
def goto (x : PhiSys N) (i : Fin N) (s : Sys) (v : PhiStage) : PhiSys N :=
  { x with sys := s, pc := Function.update x.pc i ⟨v, false⟩ }

/-- `down` has been called; there was a unit if the process still runs. -/
def called (x : PhiSys N) (i : Fin N) (s : Sys) (v : PhiStage) : PhiSys N :=
  { x with sys := s, pc := Function.update x.pc i ⟨v, s.pc x.sys.k.current ≠ .run⟩ }

end PhiSys

def PhiSema.IsSem (P : PhiSema N) (j : Nat) : Prop := j = P.mutex ∨ ∃ i, j = P.s i

inductive PhiStep (P : PhiSema N) : PhiSys N → Option (Fin N) → PhiSys N → Prop where
  /-- `down(&mutex)` in `phi_take_forks_sema` -/
  | take {x : PhiSys N} {i : Fin N} {s : Sys} (hi : x.sys.k.current = P.philosopher i) (hpc : x.pc i = ⟨.thinking, false⟩)
      (h : Step x.sys (.call (.down P.mutex)) s) : PhiStep P x (some i) (x.called i s .takeIn)
  /-- `down(&mutex)` in `phi_put_forks_sema` -/
  | put {x : PhiSys N} {i : Fin N} {s : Sys} (hi : x.sys.k.current = P.philosopher i) (hpc : x.pc i = ⟨.eating, false⟩)
      (h : Step x.sys (.call (.down P.mutex)) s) : PhiStep P x (some i) (x.called i s .putIn)
  /-- `phi_test_sema(j)` that lets `j` eat -/
  | test {x : PhiSys N} {i j : Fin N} {v w : PhiStage} {st : Fin N → PhiState} {s : Sys}
      (hi : x.sys.k.current = P.philosopher i) (hpc : x.pc i = ⟨v, false⟩) (ht : PhiTest i v x.state st j w)
      (hj : phiTest st j) (h : Step x.sys (.call (.up (P.s j))) s) :
      PhiStep P x (some i) { x.goto i s w with state := Function.update st j .eating }
  /-- `phi_test_sema(j)` that does nothing -/
  | testNone {x : PhiSys N} {i j : Fin N} {v w : PhiStage} {st : Fin N → PhiState}
      (hi : x.sys.k.current = P.philosopher i) (hrun : x.sys.pc x.sys.k.current = .run) (hpc : x.pc i = ⟨v, false⟩)
      (ht : PhiTest i v x.state st j w) (hj : ¬ phiTest st j) :
      PhiStep P x (some i) { x.goto i x.sys w with state := st }
  /-- `up(&mutex)` in `phi_take_forks_sema` -/
  | takeUp {x : PhiSys N} {i : Fin N} {s : Sys} (hi : x.sys.k.current = P.philosopher i)
      (hpc : x.pc i = ⟨.takeTested, false⟩) (h : Step x.sys (.call (.up P.mutex)) s) :
      PhiStep P x (some i) (x.goto i s .takeLast)
  /-- `down(&s[i])` -/
  | takeLast {x : PhiSys N} {i : Fin N} {s : Sys} (hi : x.sys.k.current = P.philosopher i)
      (hpc : x.pc i = ⟨.takeLast, false⟩) (h : Step x.sys (.call (.down (P.s i))) s) :
      PhiStep P x (some i) (x.called i s .eating)
  /-- `up(&mutex)` in `phi_put_forks_sema` -/
  | putUp {x : PhiSys N} {i : Fin N} {s : Sys} (hi : x.sys.k.current = P.philosopher i)
      (hpc : x.pc i = ⟨.putRight, false⟩) (h : Step x.sys (.call (.up P.mutex)) s) :
      PhiStep P x (some i) (x.goto i s .thinking)
  /-- A philosopher comes back from `schedule` in one of these `down`s. -/
  | back {x : PhiSys N} {i : Fin N} {j : Nat} {s : Sys} (hi : x.sys.k.current = P.philosopher i)
      (hpc : (x.pc i).sem P i = some j) (h : Step x.sys .resume s) : PhiStep P x (some i) (x.goto i s (x.pc i).stage)
  /-- Anything else, by anybody. Nobody else uses these semaphores, and a philosopher exits only when it is thinking. -/
  | other {x : PhiSys N} {s : Sys} {l : Label} {e : Event} (h : Step x.sys l s) (he : s.events = e :: x.sys.events)
      (hsem : ∀ j, P.IsSem j → ¬ e.OnSem j)
      (hback : l = .resume → ∀ i, x.sys.k.current = P.philosopher i → (x.pc i).sem P i = none)
      (hexit : ∀ code, e = .exit x.sys.k.current code → ∀ i, x.sys.k.current = P.philosopher i →
        x.pc i = ⟨.thinking, false⟩) : PhiStep P x none { x with sys := s }

/-- `check_sync` has set up the semaphores. -/
def PhiInit (P : PhiSema N) (semValue : Nat → Int) (x : PhiSys N) : Prop :=
  (∀ j, 0 ≤ semValue j) ∧ semValue P.mutex = 1 ∧ (∀ i, semValue (P.s i) = 0) ∧ SysStart semValue x.sys ∧
    x.pc = (fun _ => ⟨.thinking, false⟩) ∧ x.state = fun _ => .thinking

/-! ## With a monitor -/

structure PhiCondvar (N : Nat) where
  philosopher : Fin N → Nat
  mt : Monitor N
  philosopher_inj : Function.Injective philosopher

structure PhiMon (N : Nat) where
  mon : MonSys N
  stage : Fin N → PhiStage
  state : Fin N → PhiState    -- `state_condvar`

namespace PhiMon

/-- Philosopher `i` goes on to `v`. -/
def goto (x : PhiMon N) (i : Fin N) (y : MonSys N) (v : PhiStage) : PhiMon N :=
  { x with mon := y, stage := Function.update x.stage i v }

/-- Philosopher `i` runs and is active inside. -/
def RunsIn (P : PhiCondvar N) (x : PhiMon N) (i : Fin N) : Prop :=
  x.mon.current = P.philosopher i ∧ x.mon.mpc x.mon.current = .active ∧ x.mon.sys.pc x.mon.current = .run

end PhiMon

inductive PhiMonStep (P : PhiCondvar N) : PhiMon N → Option (Fin N) → PhiMon N → Prop where
  /-- `down(&(mtp->mutex))` in `phi_take_forks_condvar` -/
  | take {x : PhiMon N} {i : Fin N} {y : MonSys N} (hi : x.mon.current = P.philosopher i) (hpc : x.stage i = .thinking)
      (h : MonStep P.mt x.mon .enter y) : PhiMonStep P x (some i) (x.goto i y .takeIn)
  /-- `down(&(mtp->mutex))` in `phi_put_forks_condvar` -/
  | put {x : PhiMon N} {i : Fin N} {y : MonSys N} (hi : x.mon.current = P.philosopher i) (hpc : x.stage i = .eating)
      (h : MonStep P.mt x.mon .enter y) : PhiMonStep P x (some i) (x.goto i y .putIn)
  /-- `phi_test_condvar(j)` that lets `j` eat -/
  | test {x : PhiMon N} {i j : Fin N} {v w : PhiStage} {st : Fin N → PhiState} {y : MonSys N}
      (hi : x.mon.current = P.philosopher i) (hpc : x.stage i = v) (ht : PhiTest i v x.state st j w) (hj : phiTest st j)
      (h : MonStep P.mt x.mon (.signal j) y) :
      PhiMonStep P x (some i) { x.goto i y w with state := Function.update st j .eating }
  /-- `phi_test_condvar(j)` that does nothing -/
  | testNone {x : PhiMon N} {i j : Fin N} {v w : PhiStage} {st : Fin N → PhiState} (hi : x.RunsIn P i)
      (hpc : x.stage i = v) (ht : PhiTest i v x.state st j w) (hj : ¬ phiTest st j) :
      PhiMonStep P x (some i) { x.goto i x.mon w with state := st }
  /-- `cond_wait`, for a philosopher that is still `HUNGRY` -/
  | wait {x : PhiMon N} {i : Fin N} {y : MonSys N} (hi : x.mon.current = P.philosopher i) (hpc : x.stage i = .takeTested)
      (hst : x.state i = .hungry) (h : MonStep P.mt x.mon (.wait i) y) : PhiMonStep P x (some i) (x.goto i y .takeLast)
  | waitNone {x : PhiMon N} {i : Fin N} (hi : x.RunsIn P i) (hpc : x.stage i = .takeTested) (hst : x.state i ≠ .hungry) :
      PhiMonStep P x (some i) (x.goto i x.mon .takeLast)
  | takeLast {x : PhiMon N} {i : Fin N} {y : MonSys N} (hi : x.mon.current = P.philosopher i) (hpc : x.stage i = .takeLast)
      (h : MonStep P.mt x.mon .leave y) : PhiMonStep P x (some i) (x.goto i y .eating)
  | putLast {x : PhiMon N} {i : Fin N} {y : MonSys N} (hi : x.mon.current = P.philosopher i) (hpc : x.stage i = .putRight)
      (h : MonStep P.mt x.mon .leave y) : PhiMonStep P x (some i) (x.goto i y .thinking)
  /-- inside of `cond_signal`, of `cond_wait` and of the `down` at the door -/
  | inside {x : PhiMon N} {y : MonSys N} {l : MonLabel N} (hl : l = .down ∨ l = .back) (h : MonStep P.mt x.mon l y) :
      PhiMonStep P x none { x with mon := y }
  /-- Anything else, by anybody. A philosopher exits only when it is thinking. -/
  | other {x : PhiMon N} {y : MonSys N} {l : Label} {e : Event} (h : MonStep P.mt x.mon (.other l) y)
      (he : y.sys.events = e :: x.mon.sys.events)
      (hexit : ∀ code, e = .exit x.mon.current code → ∀ i, x.mon.current = P.philosopher i → x.stage i = .thinking) :
      PhiMonStep P x none { x with mon := y }

/-- `check_sync` has set up the monitor. -/
def PhiMonInit (P : PhiCondvar N) (semValue : Nat → Int) (x : PhiMon N) : Prop :=
  MonInit P.mt semValue x.mon ∧ x.stage = (fun _ => .thinking) ∧ x.state = fun _ => .thinking

end Ucore
