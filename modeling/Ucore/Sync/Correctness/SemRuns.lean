import Ucore.Process.Correctness.System

/-!
# `Sync.Correctness.SemRuns` — semaphores over whole runs

Units go from `up` to `down` through the counter or, if somebody waits, directly. The history tells how many there have
been, and in which order the processes came and went.
-/

namespace Ucore

namespace Event

/-- `up` has returned. -/
def isUp (i : Nat) : Event → Bool
  | .up j _ => j = i
  | _       => false

/-- A unit has been taken, by a process that found it or by one that waited for it. -/
def takes (i : Nat) : Event → Bool
  | .took j _        => j = i
  | .up j (some _)   => j = i
  | _                => false

def queuedIn (i : Nat) : Event → Option Nat
  | .queued j p => if j = i then some p else none
  | _           => none

def releasedFrom (i : Nat) : Event → Option Nat
  | .up j next => if j = i then next else none
  | _          => none

end Event

/-- The processes in the order in which they blocked, and in which they were released. -/
def queuedList (i : Nat) (es : List Event) : List Nat := es.reverse.filterMap (Event.queuedIn i)

def releasedList (i : Nat) (es : List Event) : List Nat := es.reverse.filterMap (Event.releasedFrom i)

/-- Every unit is accounted for, and so is everybody who had to wait. -/
structure SemAccount (v : Int) (i : Nat) (k : Kern) (es : List Event) : Prop where
  units : v + es.countP (Event.isUp i) = k.semValue i + es.countP (Event.takes i)
  order : queuedList i es = releasedList i es ++ k.waitQueue (.sem i)

variable {s : Sys} {k k' : Kern} {e : Event} {es : List Event} {pc : Pc} {i : Nat} {v : Int}

theorem queuedList_cons (i : Nat) (e : Event) (es : List Event) :
    queuedList i (e :: es) = queuedList i es ++ (e.queuedIn i).toList := by
  rw [queuedList, List.reverse_cons, List.filterMap_append]
  cases h : e.queuedIn i <;> simp [queuedList, h]

theorem releasedList_cons (i : Nat) (e : Event) (es : List Event) :
    releasedList i (e :: es) = releasedList i es ++ (e.releasedFrom i).toList := by
  rw [releasedList, List.reverse_cons, List.filterMap_append]
  cases h : e.releasedFrom i <;> simp [releasedList, h]

namespace SemAccount

/-- One more event. -/
theorem cons (h : SemAccount v i k es)
    (hunits : (if e.isUp i then 1 else 0) + k.semValue i = k'.semValue i + if e.takes i then 1 else 0)
    (horder : k.waitQueue (.sem i) ++ (e.queuedIn i).toList = (e.releasedFrom i).toList ++ k'.waitQueue (.sem i)) :
    SemAccount v i k' (e :: es) := by
  refine ⟨?_, ?_⟩
  · have hold := h.units
    rw [List.countP_cons, List.countP_cons]
    push_cast
    omega
  · rw [queuedList_cons, releasedList_cons, h.order, List.append_assoc, horder, List.append_assoc]

/-- Nothing that concerns the semaphore. -/
theorem same (h : SemAccount v i k es) (hvalue : k'.semValue i = k.semValue i)
    (hqueue : k'.waitQueue (.sem i) = k.waitQueue (.sem i)) (hup : e.isUp i = false) (htakes : e.takes i = false)
    (hqueued : e.queuedIn i = none) (hreleased : e.releasedFrom i = none) : SemAccount v i k' (e :: es) := by
  refine h.cons ?_ ?_
  · rw [hup, htakes, hvalue]
    simp
  · rw [hqueued, hreleased, hqueue]
    simp

end SemAccount

/-! ## `up` -/

namespace Kern

theorem released_value (k : Kern) (q : QueueId) (p flags : Nat) : (k.released q p flags).semValue = k.semValue :=
  (Rescheduled.woke (k.unqueued q p flags) p).semValue

theorem released_queue (k : Kern) (q : QueueId) (p flags : Nat) :
    (k.released q p flags).waitQueue = (k.unqueued q p flags).waitQueue :=
  (Rescheduled.woke (k.unqueued q p flags) p).waitQueue

/-- Nobody waits: the unit is counted. -/
theorem upped_nil (h : k.waitQueue (.sem i) = []) : k.upped i = k.setSem i (k.semValue i + 1) := by
  rw [upped, h]

/-- Somebody waits, and gets the unit. -/
theorem upped_cons {p : Nat} {rest : List Nat} (h : k.waitQueue (.sem i) = p :: rest) :
    (k.upped i).semValue = k.semValue ∧ (k.upped i).waitQueue (.sem i) = rest := by
  rw [upped, h]
  refine ⟨released_value k _ _ _, ?_⟩
  show (k.released (.sem i) p wtKsem).waitQueue (.sem i) = rest
  rw [released_queue, unqueued_queue, h, List.erase_cons_head]

/-- The other semaphores. -/
theorem upped_other {j : Nat} (h : i ≠ j) : (k.upped j).semValue i = k.semValue i ∧
    (k.upped j).waitQueue (.sem i) = k.waitQueue (.sem i) := by
  rw [upped]
  split
  · exact ⟨Function.update_of_ne h _ _, rfl⟩
  · next p rest hlist =>
    have hne : QueueId.sem i ≠ .sem j := fun heq => h (QueueId.sem.inj heq)
    rw [released_value, released_queue, unqueued_queue_other k p wtKsem hne]
    exact ⟨rfl, rfl⟩

end Kern

/-! ## Steps and runs -/

theorem SemAccount.upped (h : SemAccount v i k es) (j : Nat) :
    SemAccount v i (k.upped j) (.up j (k.waitQueue (.sem j)).head? :: es) := by
  by_cases hj : j = i
  · subst hj
    cases hlist : k.waitQueue (.sem j) with
    | nil =>
      rw [Kern.upped_nil hlist]
      refine h.cons ?_ ?_
      · show (if decide (j = j) = true then 1 else 0) + k.semValue j = Function.update k.semValue j (k.semValue j + 1) j + 0
        rw [Function.update_self, decide_eq_true rfl]
        simp [Int.add_comm]
      · simp [Event.queuedIn, Event.releasedFrom, hlist, Kern.setSem]
    | cons p rest =>
      obtain ⟨hvalue, hqueue⟩ := Kern.upped_cons hlist
      refine h.cons ?_ ?_
      · rw [hvalue]
        simp [Event.isUp, Event.takes, Int.add_comm]
      · rw [hqueue, hlist]
        simp [Event.queuedIn, Event.releasedFrom]
  · obtain ⟨hvalue, hqueue⟩ := Kern.upped_other (k := k) (Ne.symm hj)
    have hno : ∀ next, (Event.up j next).takes i = false := by
      intro next
      cases next with
      | none => rfl
      | some p => exact decide_eq_false hj
    exact h.same hvalue hqueue (decide_eq_false hj) (hno _) rfl (if_neg hj)

/-- **Every step** keeps the account. -/
theorem SemAccount.effect (h : SemAccount v i s.k s.events) (he : Effect s e pc k') : SemAccount v i k' (e :: s.events) := by
  have hsems : SameSems s.k k' → e.isUp i = false → e.takes i = false → e.queuedIn i = none → e.releasedFrom i = none →
      SemAccount v i k' (e :: s.events) := fun hs hup htakes hqueued hreleased =>
    h.same (congrFun hs.value i) (hs.queue i) hup htakes hqueued hreleased
  cases he with
  | quiet family sems hpc => exact hsems sems rfl rfl rfl rfl
  | up j => exact h.upped j
  | @took j hpos =>
    by_cases hj : j = i
    · subst hj
      refine h.cons ?_ ?_
      · show 0 + s.k.semValue j = Function.update s.k.semValue j (s.k.semValue j - 1) j + if decide (j = j) = true then 1 else 0
        rw [Function.update_self, decide_eq_true rfl]
        simp
      · simp [Event.queuedIn, Event.releasedFrom, Kern.setSem]
    · exact h.same (Function.update_of_ne (Ne.symm hj) _ _) rfl rfl (decide_eq_false hj) rfl rfl
  | @queued j hzero hawake =>
    by_cases hj : j = i
    · subst hj
      have hqueue : (s.k.blockedOn (.sem j) wtKsem).waitQueue (.sem j) = s.k.waitQueue (.sem j) ++ [s.k.current] :=
        Kern.setQueue_self _ _ _
      refine h.cons (Int.add_comm _ _) ?_
      rw [hqueue]
      simp [Event.queuedIn, Event.releasedFrom]
    · have hne : QueueId.sem i ≠ .sem j := fun heq => hj (QueueId.sem.inj heq).symm
      exact h.same rfl (Kern.setQueue_other _ _ hne) rfl rfl (if_neg hj) rfl
  | fork hp hf hrest => exact hsems hrest.sems rfl rfl rfl rfl
  | exit hawake hexited => exact hsems hexited.sems rfl rfl rfl rfl
  | wait hrest hlook => exact hsems hrest.sems rfl rfl rfl rfl
  | reap hawake hr hrest hlook => exact hsems hrest.sems rfl rfl rfl rfl

theorem semAccount_reached {semValue : Nat → Int} (hsem : ∀ i, 0 ≤ semValue i)
    (h : Reaches (SysStart semValue) Step (fun _ _ => True) s) : SemAccount (semValue i) i s.k s.events := by
  refine (h.invariant (I := fun s => SysInv s ∧ SemAccount (semValue i) i s.k s.events) ?_ ?_).2
  · rintro s hstart
    refine ⟨sysInv_init ⟨semValue, hsem, hstart⟩, ?_, ?_⟩
    · obtain ⟨p, hp, hrun, -, hevents⟩ := hstart
      rw [hevents, (procInit_spec hsem hp hrun).2.2.value]
      rfl
    · obtain ⟨p, hp, hrun, -, hevents⟩ := hstart
      rw [hevents, (procInit_spec hsem hp hrun).2.2.queue]
      rfl
  · rintro s l s' ⟨hinv, hold⟩ - hs
    obtain ⟨e, pc, k', rfl, hmoved⟩ := hinv.step hs
    exact ⟨hmoved.inv, hold.effect hmoved.effect⟩

end Ucore
