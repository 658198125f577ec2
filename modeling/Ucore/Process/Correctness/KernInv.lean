import Ucore.Process.System
import Ucore.Schedule.Correctness.RunQueue
import Ucore.Schedule.Correctness.Timers

/-!
# `Process.Correctness.KernInv` — who waits for what

`b p` is what the process `p` has called `schedule` for. `Waits` says what that means for the `proc_struct` and the wait
queues: a process that waits is asleep with its wait state, until somebody wakes it; and one in `down` is asleep exactly
as long as it is in the queue of its semaphore.

The lemmas below are about the single changes that the functions of the kernel are made of.
-/

namespace Ucore

/-- Runnable, and waiting for nothing. -/
def Awake (k : Kern) (p : Nat) : Prop := (k.proc p).state = .runnable ∧ (k.proc p).waitState = 0

def Asleep (k : Kern) (p ws : Nat) : Prop := (k.proc p).state = .sleeping ∧ (k.proc p).waitState = ws

def Waits (k : Kern) (p : Nat) : Option Blocked → Prop
  | none             => Awake k p
  | some .yield      => Awake k p
  | some (.down i)   => (Asleep k p wtKsem ∧ p ∈ k.waitQueue (.sem i)) ∨
      (Awake k p ∧ p ∉ k.waitQueue (.sem i) ∧ (k.wait p).wakeupFlags = wtKsem)
  | some (.wait _)   => Asleep k p wtChild ∨ Awake k p
  | some .sleep      => Asleep k p wtTimer ∨ Awake k p
  | some (.read _)   => Asleep k p wtKbd ∨ Awake k p
  | some .exit       => (k.proc p).state = .zombie ∧ (k.proc p).waitState = 0

/-- The queue is the one of a process that waits like this. -/
def QueueId.Of : QueueId → Option Blocked → Prop
  | .sem i, b => b = some (.down i)
  | .stdin, b => ∃ left, b = some (.read left)

structure QueueInv (k : Kern) (b : Nat → Option Blocked) : Prop where
  nodup : ∀ q, (k.waitQueue q).Nodup
  mem : ∀ q, ∀ p ∈ k.waitQueue q, p ∈ k.live ∧ q.Of (b p) ∧ (k.wait p).waitQueue = q
  timer : ∀ t ∈ k.timerList, t.proc ∈ k.live ∧ t.link = t.proc ∧ b t.proc = some .sleep
  links : (timerLinks k.timerList).Nodup
  value : ∀ i, 0 ≤ k.semValue i
  empty : ∀ i, 0 < k.semValue i → k.waitQueue (.sem i) = []

structure KernInv (k : Kern) (b : Nat → Option Blocked) : Prop where
  run : RunInv k
  queue : QueueInv k b
  waits : ∀ p ∈ k.live, Waits k p (b p)
  idle : b k.idleproc = none ∨ b k.idleproc = some .yield
  init : k.initproc ∈ k.live ∧ b k.initproc ≠ some .exit

variable {k k' : Kern} {b b' : Nat → Option Blocked} {p q i ws : Nat} {o : Option Blocked} {ts : List Timer}

/-! ## What a process waits for -/

namespace Waits

theorem congr (h : Waits k p o) (hstate : (k'.proc p).state = (k.proc p).state)
    (hws : (k'.proc p).waitState = (k.proc p).waitState) (hflags : (k'.wait p).wakeupFlags = (k.wait p).wakeupFlags)
    (hqueue : ∀ i, p ∈ k'.waitQueue (.sem i) ↔ p ∈ k.waitQueue (.sem i)) : Waits k' p o := by
  have hawake : Awake k p → Awake k' p := fun ha => ⟨hstate.trans ha.1, hws.trans ha.2⟩
  have hasleep : ∀ ws, Asleep k p ws → Asleep k' p ws := fun ws ha => ⟨hstate.trans ha.1, hws.trans ha.2⟩
  match o, h with
  | none, h => exact hawake h
  | some .yield, h => exact hawake h
  | some (.down i), .inl h => exact .inl ⟨hasleep _ h.1, (hqueue i).mpr h.2⟩
  | some (.down i), .inr h => exact .inr ⟨hawake h.1, fun hmem => h.2.1 ((hqueue i).mp hmem), hflags.trans h.2.2⟩
  | some (.wait _), h => exact h.imp (hasleep _) hawake
  | some .sleep, h => exact h.imp (hasleep _) hawake
  | some (.read _), h => exact h.imp (hasleep _) hawake
  | some .exit, h => exact ⟨hstate.trans h.1, hws.trans h.2⟩

/-- A process that can run waits for nothing any more. -/
theorem awake (h : Waits k p o) (hr : (k.proc p).state = .runnable) : Awake k p := by
  have hno : ∀ ws, ¬ Asleep k p ws := fun ws ha => ProcState.noConfusion (hr.symm.trans ha.1)
  match o, h with
  | none, h => exact h
  | some .yield, h => exact h
  | some (.down i), .inl h => exact absurd h.1 (hno _)
  | some (.down i), .inr h => exact h.1
  | some (.wait _), h => exact h.resolve_left (hno _)
  | some .sleep, h => exact h.resolve_left (hno _)
  | some (.read _), h => exact h.resolve_left (hno _)
  | some .exit, h => exact ProcState.noConfusion (hr.symm.trans h.1)

/-- Of the processes only those that have exited are zombies. -/
theorem zombie (h : Waits k p o) : (k.proc p).state = .zombie ↔ o = some .exit := by
  have hno : ∀ ws, Asleep k p ws → (k.proc p).state ≠ .zombie := fun ws ha hz => ProcState.noConfusion (hz.symm.trans ha.1)
  have hno' : Awake k p → (k.proc p).state ≠ .zombie := fun ha hz => ProcState.noConfusion (hz.symm.trans ha.1)
  match o, h with
  | none, h => exact ⟨fun hz => absurd hz (hno' h), fun he => nomatch he⟩
  | some .yield, h => exact ⟨fun hz => absurd hz (hno' h), fun he => nomatch he⟩
  | some (.down i), h => exact ⟨fun hz => absurd hz (h.elim (fun h => hno _ h.1) fun h => hno' h.1), fun he => nomatch he⟩
  | some (.wait _), h => exact ⟨fun hz => absurd hz (h.elim (hno _) hno'), fun he => nomatch he⟩
  | some .sleep, h => exact ⟨fun hz => absurd hz (h.elim (hno _) hno'), fun he => nomatch he⟩
  | some (.read _), h => exact ⟨fun hz => absurd hz (h.elim (hno _) hno'), fun he => nomatch he⟩
  | some .exit, h => exact ⟨fun _ => rfl, fun _ => h.1⟩

/-- Whoever is awake waits no more, unless it is in `down`. -/
theorem of_awake (h : Awake k p) (hdown : ∀ i, o ≠ some (.down i)) (hexit : o ≠ some .exit) : Waits k p o := by
  match o with
  | none => exact h
  | some .yield => exact h
  | some (.down i) => exact absurd rfl (hdown i)
  | some (.wait _) => exact .inr h
  | some .sleep => exact .inr h
  | some (.read _) => exact .inr h
  | some .exit => exact absurd rfl hexit

end Waits

/-! ## Changes elsewhere -/

/-- Nothing that the scheduler or the wait queues depend on has changed. -/
structure SameSched (k k' : Kern) : Prop where
  state : ∀ p, (k'.proc p).state = (k.proc p).state
  waitState : ∀ p, (k'.proc p).waitState = (k.proc p).waitState
  queued : ∀ p, (k'.proc p).queued = (k.proc p).queued
  live : k'.live = k.live
  current : k'.current = k.current
  idleproc : k'.idleproc = k.idleproc
  initproc : k'.initproc = k.initproc
  runList : k'.runList = k.runList
  procNum : k'.procNum = k.procNum
  timerList : k'.timerList = k.timerList
  semValue : k'.semValue = k.semValue
  waitQueue : k'.waitQueue = k.waitQueue
  wait : k'.wait = k.wait

namespace SameSched

theorem refl (k : Kern) : SameSched k k :=
  ⟨fun _ => rfl, fun _ => rfl, fun _ => rfl, rfl, rfl, rfl, rfl, rfl, rfl, rfl, rfl, rfl, rfl⟩

theorem trans {k1 k2 k3 : Kern} (h : SameSched k1 k2) (h' : SameSched k2 k3) : SameSched k1 k3 where
  state p := (h'.state p).trans (h.state p)
  waitState p := (h'.waitState p).trans (h.waitState p)
  queued p := (h'.queued p).trans (h.queued p)
  live := h'.live.trans h.live
  current := h'.current.trans h.current
  idleproc := h'.idleproc.trans h.idleproc
  initproc := h'.initproc.trans h.initproc
  runList := h'.runList.trans h.runList
  procNum := h'.procNum.trans h.procNum
  timerList := h'.timerList.trans h.timerList
  semValue := h'.semValue.trans h.semValue
  waitQueue := h'.waitQueue.trans h.waitQueue
  wait := h'.wait.trans h.wait

/-- A change of one process in other fields. -/
theorem modProc {f : ProcStruct → ProcStruct} (hstate : ∀ x, (f x).state = x.state)
    (hws : ∀ x, (f x).waitState = x.waitState) (hqueued : ∀ x, (f x).queued = x.queued) (k : Kern) (p : Nat) :
    SameSched k (k.modProc p f) := by
  have hproc : ∀ {α : Type} (g : ProcStruct → α), (∀ x, g (f x) = g x) → ∀ q, g ((k.modProc p f).proc q) = g (k.proc q) := by
    intro α g hg q
    by_cases hq : q = p
    · rw [hq, Kern.modProc_self]
      exact hg _
    · rw [Kern.modProc_other k f hq]
  exact ⟨hproc _ hstate, hproc _ hws, hproc _ hqueued, rfl, rfl, rfl, rfl, rfl, rfl, rfl, rfl, rfl, rfl⟩

end SameSched

/-! ## The relations between processes -/

/-- The relations between the processes are the same, and the same ones are zombies. -/
structure SameTree (k k' : Kern) : Prop where
  parent : ∀ p, (k'.proc p).parent = (k.proc p).parent
  cptr : ∀ p, (k'.proc p).cptr = (k.proc p).cptr
  yptr : ∀ p, (k'.proc p).yptr = (k.proc p).yptr
  optr : ∀ p, (k'.proc p).optr = (k.proc p).optr
  pid : ∀ p, (k'.proc p).pid = (k.proc p).pid
  exitCode : ∀ p, (k'.proc p).exitCode = (k.proc p).exitCode
  zombie : ∀ p, (k'.proc p).state = .zombie ↔ (k.proc p).state = .zombie
  live : k'.live = k.live
  idleproc : k'.idleproc = k.idleproc
  initproc : k'.initproc = k.initproc
  procList : k'.procList = k.procList
  hashList : k'.hashList = k.hashList
  nrProcess : k'.nrProcess = k.nrProcess
  nextSafe : k'.nextSafe = k.nextSafe
  lastPid : k'.lastPid = k.lastPid

/-- Moreover nobody else waits for a child. -/
structure SameFamily (k k' : Kern) : Prop extends SameTree k k' where
  waiting : ∀ p, Asleep k' p wtChild → Asleep k p wtChild

structure SameSems (k k' : Kern) : Prop where
  value : k'.semValue = k.semValue
  queue : ∀ i, k'.waitQueue (.sem i) = k.waitQueue (.sem i)

theorem SameSems.trans {k1 k2 k3 : Kern} (h : SameSems k1 k2) (h' : SameSems k2 k3) : SameSems k1 k3 :=
  ⟨h'.value.trans h.value, fun i => (h'.queue i).trans (h.queue i)⟩

namespace SameFamily

theorem refl (k : Kern) : SameFamily k k :=
  ⟨⟨fun _ => rfl, fun _ => rfl, fun _ => rfl, fun _ => rfl, fun _ => rfl, fun _ => rfl, fun _ => Iff.rfl, rfl, rfl, rfl,
    rfl, rfl, rfl, rfl, rfl⟩, fun _ h => h⟩

theorem trans {k1 k2 k3 : Kern} (h : SameFamily k1 k2) (h' : SameFamily k2 k3) : SameFamily k1 k3 where
  parent p := (h'.parent p).trans (h.parent p)
  cptr p := (h'.cptr p).trans (h.cptr p)
  yptr p := (h'.yptr p).trans (h.yptr p)
  optr p := (h'.optr p).trans (h.optr p)
  pid p := (h'.pid p).trans (h.pid p)
  exitCode p := (h'.exitCode p).trans (h.exitCode p)
  zombie p := (h'.zombie p).trans (h.zombie p)
  waiting p hw := h.waiting p (h'.waiting p hw)
  live := h'.live.trans h.live
  idleproc := h'.idleproc.trans h.idleproc
  initproc := h'.initproc.trans h.initproc
  procList := h'.procList.trans h.procList
  hashList := h'.hashList.trans h.hashList
  nrProcess := h'.nrProcess.trans h.nrProcess
  nextSafe := h'.nextSafe.trans h.nextSafe
  lastPid := h'.lastPid.trans h.lastPid

/-- No `proc_struct` has changed. -/
theorem of_proc (h : k'.proc = k.proc) (hlive : k'.live = k.live) (hidle : k'.idleproc = k.idleproc)
    (hinit : k'.initproc = k.initproc) (hlist : k'.procList = k.procList) (hhash : k'.hashList = k.hashList)
    (hnr : k'.nrProcess = k.nrProcess) (hsafe : k'.nextSafe = k.nextSafe) (hlast : k'.lastPid = k.lastPid) :
    SameFamily k k' := by
  refine ⟨⟨fun p => by rw [h], fun p => by rw [h], fun p => by rw [h], fun p => by rw [h], fun p => by rw [h],
    fun p => by rw [h], fun p => by rw [h], hlive, hidle, hinit, hlist, hhash, hnr, hsafe, hlast⟩, fun p ha => ?_⟩
  rw [Asleep, h] at ha
  exact ha

theorem tree_of_rescheduled (h : Kern.Rescheduled k k')
    (hzombie : ∀ p, (k'.proc p).state = .zombie ↔ (k.proc p).state = .zombie) : SameTree k k' where
  parent p := by rw [h.proc p]
  cptr p := by rw [h.proc p]
  yptr p := by rw [h.proc p]
  optr p := by rw [h.proc p]
  pid p := by rw [h.proc p]
  exitCode p := by rw [h.proc p]
  zombie := hzombie
  live := h.live
  idleproc := h.idleproc
  initproc := h.initproc
  procList := h.procList
  hashList := h.hashList
  nrProcess := h.nrProcess
  nextSafe := h.nextSafe
  lastPid := h.lastPid

theorem of_rescheduled (h : Kern.Rescheduled k k')
    (hzombie : ∀ p, (k'.proc p).state = .zombie ↔ (k.proc p).state = .zombie)
    (hwaiting : ∀ p, Asleep k' p wtChild → Asleep k p wtChild) : SameFamily k k' :=
  ⟨tree_of_rescheduled h hzombie, hwaiting⟩

/-- Only one process has changed its state, from one that is no zombie to one that is not either. -/
theorem of_other (h : Kern.Rescheduled k k') (hother : ∀ q, q ≠ p → k'.proc q = k.proc q)
    (hz : (k.proc p).state ≠ .zombie) (hz' : (k'.proc p).state ≠ .zombie) (hw : ¬ Asleep k' p wtChild) :
    SameFamily k k' := by
  refine of_rescheduled h (fun q => ?_) fun q ha => ?_
  · by_cases hq : q = p
    · rw [hq]
      exact iff_of_false hz' hz
    · rw [hother q hq]
  · by_cases hq : q = p
    · exact absurd (hq ▸ ha) hw
    · rw [Asleep, hother q hq] at ha
      exact ha

theorem woke (hz : (k.proc p).state ≠ .zombie) : SameFamily k (k.woke p) := by
  refine of_other (Kern.Rescheduled.woke k p) (fun q hq => Kern.woke_other hq) hz ?_ fun ha => ?_
  · rw [Kern.woke_state]
    exact ProcState.noConfusion
  · rw [Asleep, Kern.woke_state] at ha
    exact ProcState.noConfusion ha.1

/-- A process that could run goes to sleep, but not for a child. -/
theorem asleep (hr : (k.proc p).state = .runnable) (hws : ws ≠ wtChild) :
    SameFamily k (k.modProc p fun x => { x with state := .sleeping, waitState := ws }) := by
  refine of_other (p := p) (.modProc (fun _ => rfl) k _) (fun q hq => Kern.modProc_other k _ hq) ?_ ?_ ?_
  · rw [hr]
    exact ProcState.noConfusion
  · rw [Kern.modProc_self]
    exact ProcState.noConfusion
  · rw [Asleep, Kern.modProc_self]
    exact fun ha => hws ha.2

theorem switched (k : Kern) : SameFamily k k.switched := by
  have hstate : ∀ p, (k.switched.proc p).state = (k.proc p).state := switched_proc _ fun _ _ _ _ => rfl
  have hws : ∀ p, (k.switched.proc p).waitState = (k.proc p).waitState := switched_proc _ fun _ _ _ _ => rfl
  refine of_rescheduled (Kern.Rescheduled.switched k) (fun p => by rw [hstate]) fun p ha => ?_
  exact ⟨(hstate p).symm.trans ha.1, (hws p).symm.trans ha.2⟩

end SameFamily

/-- Neither the relations between processes nor the semaphores have changed, and the same process runs. -/
structure Quiet (k k' : Kern) : Prop where
  family : SameFamily k k'
  sems : SameSems k k'
  current : k'.current = k.current

theorem Quiet.refl (k : Kern) : Quiet k k := ⟨.refl k, ⟨rfl, fun _ => rfl⟩, rfl⟩

theorem Quiet.trans {k1 k2 k3 : Kern} (h : Quiet k1 k2) (h' : Quiet k2 k3) : Quiet k1 k3 :=
  ⟨h.family.trans h'.family, h.sems.trans h'.sems, h'.current.trans h.current⟩

theorem SameSems.of_rescheduled (h : Kern.Rescheduled k k') : SameSems k k' :=
  ⟨h.semValue, fun i => congrFun h.waitQueue (.sem i)⟩

theorem Quiet.woke (hz : (k.proc p).state ≠ .zombie) : Quiet k (k.woke p) :=
  ⟨.woke hz, .of_rescheduled (Kern.Rescheduled.woke k p), Kern.woke_current⟩

theorem RunInv.of_same (h : RunInv k) (hs : SameSched k k') : RunInv k' :=
  h.congr hs.state hs.queued hs.live hs.current hs.idleproc hs.runList hs.procNum

theorem QueueInv.congr (h : QueueInv k b) (hlive : k'.live = k.live) (htimer : k'.timerList = k.timerList)
    (hvalue : k'.semValue = k.semValue) (hqueue : k'.waitQueue = k.waitQueue) (hwait : k'.wait = k.wait) :
    QueueInv k' b := by
  refine ⟨?_, ?_, ?_, ?_, ?_, ?_⟩
  · rw [hqueue]
    exact h.nodup
  · rw [hqueue, hlive, hwait]
    exact h.mem
  · rw [htimer, hlive]
    exact h.timer
  · rw [htimer]
    exact h.links
  · rw [hvalue]
    exact h.value
  · rw [hvalue, hqueue]
    exact h.empty

theorem QueueInv.of_same (h : QueueInv k b) (hs : SameSched k k') : QueueInv k' b :=
  h.congr hs.live hs.timerList hs.semValue hs.waitQueue hs.wait

theorem Waits.of_same (h : Waits k p o) (hs : SameSched k k') : Waits k' p o := by
  refine h.congr (hs.state p) (hs.waitState p) (by rw [hs.wait]) fun i => ?_
  rw [hs.waitQueue]

namespace KernInv

theorem congr (h : KernInv k b) (hs : SameSched k k') : KernInv k' b where
  run := h.run.of_same hs
  queue := h.queue.of_same hs
  waits p hlive := (h.waits p (hs.live ▸ hlive)).of_same hs
  idle := by
    rw [hs.idleproc]
    exact h.idle
  init := by
    rw [hs.initproc, hs.live]
    exact h.init

/-! ## Waking a process -/

theorem woke_awake (h : Waits k p o) : Awake (k.woke p) p := by
  refine ⟨Kern.woke_state, ?_⟩
  rcases Kern.woke_waitState (k := k) (p := p) with hzero | ⟨hr, hsame⟩
  · exact hzero
  · exact hsame.trans (h.awake hr).2

theorem queue_woke (h : QueueInv k b) (p : Nat) : QueueInv (k.woke p) b := by
  have hrest := Kern.Rescheduled.woke k p
  exact h.congr hrest.live hrest.timerList hrest.semValue hrest.waitQueue hrest.wait

/-- A process other than the one that is woken. -/
theorem waits_woke (h : Waits k q o) (hq : q ≠ p) : Waits (k.woke p) q o := by
  have hrest := Kern.Rescheduled.woke k p
  refine h.congr (by rw [Kern.woke_other hq]) (by rw [Kern.woke_other hq]) (by rw [hrest.wait]) fun i => ?_
  rw [hrest.waitQueue]

/-- **`wakeup_proc`** of a process that is neither in `down` nor a zombie. -/
theorem woke (h : KernInv k b) (hlive : p ∈ k.live) (hdown : ∀ i, b p ≠ some (.down i)) (hexit : b p ≠ some .exit) :
    KernInv (k.woke p) b where
  run := h.run.woke hlive
  queue := queue_woke h.queue p
  waits q hq := by
    rw [(Kern.Rescheduled.woke k p).live] at hq
    by_cases hqp : q = p
    · subst hqp
      exact .of_awake (woke_awake (h.waits q hq)) hdown hexit
    · exact waits_woke (h.waits q hq) hqp
  idle := by
    rw [(Kern.Rescheduled.woke k p).idleproc]
    exact h.idle
  init := by
    rw [(Kern.Rescheduled.woke k p).initproc, (Kern.Rescheduled.woke k p).live]
    exact h.init

/-- A process in a queue is no zombie. -/
theorem queued_alive (h : KernInv k b) {r : QueueId} (hmem : p ∈ k.waitQueue r) : (k.proc p).state ≠ .zombie := by
  obtain ⟨hlive, hof, -⟩ := h.queue.mem r p hmem
  intro hz
  have hb := (h.waits p hlive).zombie.mp hz
  match r, hof with
  | .sem i, hof => exact nomatch hb.symm.trans hof
  | .stdin, ⟨left, hof⟩ => exact nomatch hb.symm.trans hof

/-- A process in the queue of a semaphore is asleep there. -/
theorem asleep_of_mem (h : KernInv k b) (hmem : p ∈ k.waitQueue (.sem i)) : Asleep k p wtKsem := by
  obtain ⟨hlive, hof, -⟩ := h.queue.mem _ p hmem
  have hw := h.waits p hlive
  rw [show b p = some (.down i) from hof] at hw
  exact (hw.resolve_right fun hand => hand.2.1 hmem).1

/-! ## `schedule` -/

theorem switched (h : KernInv k b) : KernInv k.switched b := by
  have hrest := Kern.Rescheduled.switched k
  refine ⟨h.run.switched, h.queue.congr hrest.live hrest.timerList hrest.semValue hrest.waitQueue hrest.wait,
    fun p hlive => ?_, ?_, ?_⟩
  · refine (h.waits p (hrest.live ▸ hlive)).congr (switched_proc _ (fun _ _ _ _ => rfl) p)
      (switched_proc _ (fun _ _ _ _ => rfl) p) (by rw [hrest.wait]) fun i => ?_
    rw [hrest.waitQueue]
  · rw [hrest.idleproc]
    exact h.idle
  · rw [hrest.initproc, hrest.live]
    exact h.init

theorem awake_idle (h : KernInv k b) : Awake k k.idleproc := by
  have hw := h.waits _ h.run.idle
  rcases h.idle with hb | hb
  · rw [hb] at hw
    exact hw
  · rw [hb] at hw
    exact hw

/-- The process that `schedule` switches to is awake. -/
theorem awake_switched (h : KernInv k b) : Awake k k.switched.current := by
  rcases switched_current h.run with hidle | ⟨hlive, hr⟩
  · rw [hidle]
    exact h.awake_idle
  · exact (h.waits _ hlive).awake hr

/-! ## The running process -/

/-- Nothing refers to the running process as one that waits. -/
structure Free (k : Kern) : Prop where
  queue : ∀ q, k.current ∉ k.waitQueue q
  timer : ∀ t ∈ k.timerList, t.proc ≠ k.current

/-- A process that does not wait in a queue or for a timer. -/
theorem free (h : KernInv k b) (hdown : ∀ i, b k.current ≠ some (.down i)) (hread : ∀ n, b k.current ≠ some (.read n))
    (hsleep : b k.current ≠ some .sleep) : Free k where
  queue q hmem := by
    have hof := (h.queue.mem q _ hmem).2.1
    match q, hof with
    | .sem i, hof => exact hdown i hof
    | .stdin, ⟨n, hof⟩ => exact hread n hof
  timer t hmem heq := hsleep (heq ▸ (h.queue.timer t hmem).2.2)

theorem free_of_none (h : KernInv k b) (hb : b k.current = none) : Free k :=
  h.free (fun _ he => nomatch hb.symm.trans he) (fun _ he => nomatch hb.symm.trans he) (fun he => nomatch hb.symm.trans he)

theorem queue_update (h : QueueInv k b) (hfree : Free k) (o : Option Blocked) :
    QueueInv k (Function.update b k.current o) := by
  refine ⟨h.nodup, fun q p hmem => ?_, fun t hmem => ?_, h.links, h.value, h.empty⟩
  · have hp : p ≠ k.current := fun heq => hfree.queue q (heq ▸ hmem)
    rw [Function.update_of_ne hp]
    exact h.mem q p hmem
  · rw [Function.update_of_ne (hfree.timer t hmem)]
    exact h.timer t hmem

/-- The running process, being awake, goes on with something else. -/
theorem relabel (h : KernInv k b) (hfree : Free k) (hw : Waits k k.current o)
    (hidle : k.current = k.idleproc → o = none ∨ o = some .yield) (hexit : o ≠ some .exit) :
    KernInv k (Function.update b k.current o) where
  run := h.run
  queue := queue_update h.queue hfree o
  waits p hlive := by
    by_cases hp : p = k.current
    · rw [hp, Function.update_self]
      exact hw
    · rw [Function.update_of_ne hp]
      exact h.waits p hlive
  idle := by
    by_cases hp : k.idleproc = k.current
    · rw [hp, Function.update_self]
      exact hidle hp.symm
    · rw [Function.update_of_ne hp]
      exact h.idle
  init := by
    refine ⟨h.init.1, ?_⟩
    by_cases hp : k.initproc = k.current
    · rw [hp, Function.update_self]
      exact hexit
    · rw [Function.update_of_ne hp]
      exact h.init.2

/-- **Going to sleep**, or becoming a zombie. -/
theorem settle (h : KernInv k b) (hfree : Free k) {f : ProcStruct → ProcStruct} (hstate : ∀ x, (f x).state ≠ .runnable)
    (hw : Waits (k.modProc k.current f) k.current o) (hidle : k.current ≠ k.idleproc)
    (hexit : o = some .exit → k.current ≠ k.initproc) :
    KernInv (k.modProc k.current f) (Function.update b k.current o) where
  run := h.run.stops hstate
  queue := (queue_update h.queue hfree o).congr rfl rfl rfl rfl rfl
  waits p hlive := by
    by_cases hp : p = k.current
    · rw [hp, Function.update_self]
      exact hw
    · rw [Function.update_of_ne hp]
      exact (h.waits p hlive).congr (by rw [Kern.modProc_other k f hp]) (by rw [Kern.modProc_other k f hp]) rfl
        fun _ => Iff.rfl
  idle := by
    show Function.update b k.current o k.idleproc = none ∨ Function.update b k.current o k.idleproc = some .yield
    rw [Function.update_of_ne hidle.symm]
    exact h.idle
  init := by
    refine ⟨h.init.1, ?_⟩
    show Function.update b k.current o k.initproc ≠ some .exit
    by_cases hp : k.initproc = k.current
    · rw [hp, Function.update_self]
      exact fun he => hexit he hp.symm
    · rw [Function.update_of_ne hp]
      exact h.init.2

/-- Timers come and go. -/
theorem setTimers (h : KernInv k b) (hts : ∀ t ∈ ts, t.proc ∈ k.live ∧ t.link = t.proc ∧ b t.proc = some .sleep)
    (hlinks : (timerLinks ts).Nodup) : KernInv (k.setTimers ts) b where
  run := h.run.congr (fun _ => rfl) (fun _ => rfl) rfl rfl rfl rfl rfl
  queue := ⟨h.queue.nodup, h.queue.mem, hts, hlinks, h.queue.value, h.queue.empty⟩
  waits p hlive := (h.waits p hlive).congr rfl rfl rfl fun _ => Iff.rfl
  idle := h.idle
  init := h.init

end KernInv

end Ucore
