import Ucore.Process.Correctness.KernInv

/-!
# `Sync.Correctness.Sem` — what the wait queues and semaphores do

Each function is run once, in a state with `KernInv`: its assertions hold, and it leaves the state that is named here,
with `KernInv` again.
-/

namespace Ucore

namespace Kern

/-- The running process has gone to sleep at the end of a queue. -/
def blockedOn (k : Kern) (q : QueueId) (ws : Nat) : Kern :=
  ((k.modProc k.current fun x => { x with state := .sleeping, waitState := ws }).setWait k.current
    { wakeupFlags := wtInterrupted, waitQueue := q }).setQueue q (k.waitQueue q ++ [k.current])

/-- A process has been taken out of a queue, but is not awake yet. -/
def unqueued (k : Kern) (q : QueueId) (p flags : Nat) : Kern :=
  (k.setQueue q ((k.waitQueue q).erase p)).setWait p { k.wait p with wakeupFlags := flags }

def released (k : Kern) (q : QueueId) (p flags : Nat) : Kern := (k.unqueued q p flags).woke p

/-- `up` -/
def upped (k : Kern) (i : Nat) : Kern :=
  match k.waitQueue (.sem i) with
  | []     => k.setSem i (k.semValue i + 1)
  | p :: _ => k.released (.sem i) p wtKsem

end Kern

variable {k k' : Kern} {b : Nat → Option Blocked} {p i flags ws : Nat} {q : QueueId} {o : Option Blocked}

/-! ## The queues -/

namespace Kern

theorem setQueue_self (k : Kern) (q : QueueId) (ps : List Nat) : (k.setQueue q ps).waitQueue q = ps :=
  Function.update_self q _ _

theorem setQueue_other (k : Kern) (ps : List Nat) {r : QueueId} (h : r ≠ q) :
    (k.setQueue q ps).waitQueue r = k.waitQueue r := Function.update_of_ne h _ _

theorem setWait_self (k : Kern) (p : Nat) (w : Wait) : (k.setWait p w).wait p = w := Function.update_self p _ _

theorem setWait_setWait (k : Kern) (p : Nat) (w w' : Wait) : (k.setWait p w).setWait p w' = k.setWait p w' := by
  rw [setWait, setWait, setWait]
  exact congrArg (fun f => { k with wait := f }) (Function.update_idem _ _ _)

theorem unqueued_queue (k : Kern) (q : QueueId) (p flags : Nat) : (k.unqueued q p flags).waitQueue q = (k.waitQueue q).erase p :=
  setQueue_self k q _

theorem unqueued_queue_other (k : Kern) (p flags : Nat) {r : QueueId} (h : r ≠ q) :
    (k.unqueued q p flags).waitQueue r = k.waitQueue r := setQueue_other k _ h

theorem unqueued_wait (k : Kern) (q : QueueId) (p flags : Nat) :
    (k.unqueued q p flags).wait p = { k.wait p with wakeupFlags := flags } := Function.update_self p _ _

theorem unqueued_wait_other (k : Kern) (q : QueueId) (flags : Nat) {r : Nat} (h : r ≠ p) :
    (k.unqueued q p flags).wait r = k.wait r := Function.update_of_ne h _ _

theorem unqueued_waitQueue (k : Kern) (q : QueueId) (p flags r : Nat) :
    ((k.unqueued q p flags).wait r).waitQueue = (k.wait r).waitQueue := by
  by_cases hr : r = p
  · rw [hr, unqueued_wait]
  · rw [unqueued_wait_other k q flags hr]

/-- Of the others nobody leaves a queue. -/
theorem mem_unqueued (k : Kern) (q : QueueId) (p flags : Nat) {r : Nat} (hr : r ≠ p) (s : QueueId) :
    r ∈ (k.unqueued q p flags).waitQueue s ↔ r ∈ k.waitQueue s := by
  by_cases hs : s = q
  · rw [hs, unqueued_queue]
    exact List.mem_erase_of_ne hr
  · rw [unqueued_queue_other k p flags hs]

theorem mem_of_unqueued {r : Nat} {s : QueueId} (h : r ∈ (k.unqueued q p flags).waitQueue s) : r ∈ k.waitQueue s := by
  by_cases hs : s = q
  · rw [hs, unqueued_queue] at h
    rw [hs]
    exact List.mem_of_mem_erase h
  · rw [unqueued_queue_other k p flags hs] at h
    exact h

end Kern

namespace QueueInv

theorem unqueued (h : QueueInv k b) (q : QueueId) (p flags : Nat) : QueueInv (k.unqueued q p flags) b := by
  refine ⟨fun s => ?_, fun s r hmem => ?_, h.timer, h.links, h.value, fun i hpos => ?_⟩
  · by_cases hs : s = q
    · rw [hs, Kern.unqueued_queue]
      exact (h.nodup q).erase p
    · rw [Kern.unqueued_queue_other k p flags hs]
      exact h.nodup s
  · rw [Kern.unqueued_waitQueue]
    exact h.mem s r (Kern.mem_of_unqueued hmem)
  · refine List.eq_nil_iff_forall_not_mem.mpr fun r hmem => ?_
    have hin := Kern.mem_of_unqueued hmem
    rw [h.empty i hpos] at hin
    exact List.not_mem_nil hin

theorem not_mem_unqueued (h : QueueInv k b) (q : QueueId) (p flags : Nat) : p ∉ (k.unqueued q p flags).waitQueue q := by
  rw [Kern.unqueued_queue]
  exact (h.nodup q).not_mem_erase

end QueueInv

namespace KernInv

/-- **A process is released** from its queue: woken with the flags that it waits for. -/
theorem released (h : KernInv k b) (hmem : p ∈ k.waitQueue q) (hflags : ∀ i, q = .sem i → flags = wtKsem) :
    KernInv (k.released q p flags) b := by
  obtain ⟨hlive, hof, -⟩ := h.queue.mem q p hmem
  have hrest := Kern.Rescheduled.woke (k.unqueued q p flags) p
  have hrun : RunInv (k.unqueued q p flags) := h.run.congr (fun _ => rfl) (fun _ => rfl) rfl rfl rfl rfl rfl
  refine ⟨hrun.woke hlive, queue_woke (h.queue.unqueued q p flags) p, fun r hr => ?_, ?_, ?_⟩
  · have hr' : r ∈ k.live := hrest.live ▸ hr
    by_cases hrp : r = p
    · subst hrp
      have hawake : Awake (k.released q r flags) r := by
        refine ⟨Kern.woke_state, ?_⟩
        rcases Kern.woke_waitState (k := k.unqueued q r flags) (p := r) with hzero | ⟨hrunnable, hsame⟩
        · exact hzero
        · exact hsame.trans ((h.waits r hr').awake hrunnable).2
      match q, hof, hflags with
      | .sem i, hof, hflags =>
        rw [show b r = some (.down i) from hof]
        refine .inr ⟨hawake, ?_, ?_⟩
        · show r ∉ ((k.unqueued (.sem i) r flags).woke r).waitQueue (.sem i)
          rw [hrest.waitQueue]
          exact h.queue.not_mem_unqueued (.sem i) r flags
        · show (((k.unqueued (.sem i) r flags).woke r).wait r).wakeupFlags = wtKsem
          rw [hrest.wait, Kern.unqueued_wait]
          exact hflags i rfl
      | .stdin, ⟨left, hof⟩, _ =>
        rw [hof]
        exact .inr hawake
    · refine waits_woke ?_ hrp
      refine (h.waits r hr').congr rfl rfl ?_ fun i => Kern.mem_unqueued k q p flags hrp (.sem i)
      rw [Kern.unqueued_wait_other k q flags hrp]
  · show b (k.released q p flags).idleproc = none ∨ b (k.released q p flags).idleproc = some .yield
    rw [show (k.released q p flags).idleproc = k.idleproc from hrest.idleproc]
    exact h.idle
  · rw [show (k.released q p flags).initproc = k.initproc from hrest.initproc,
      show (k.released q p flags).live = k.live from hrest.live]
    exact h.init

/-- **The running process goes to sleep** at the end of a queue. -/
theorem blockedOn (h : KernInv k b) (hfree : Free k) (hidle : k.current ≠ k.idleproc) (hof : q.Of o)
    (hzero : ∀ i, q = .sem i → ¬ 0 < k.semValue i) (hws : ∀ i, q = .sem i → ws = wtKsem) (hkbd : q = .stdin → ws = wtKbd) :
    KernInv (k.blockedOn q ws) (Function.update b k.current o) := by
  have hnot := hfree.queue q
  have hqueue : (k.blockedOn q ws).waitQueue q = k.waitQueue q ++ [k.current] := Kern.setQueue_self _ q _
  have hother : ∀ {r}, r ≠ q → (k.blockedOn q ws).waitQueue r = k.waitQueue r := fun hr => Kern.setQueue_other _ _ hr
  have hwait : (k.blockedOn q ws).wait k.current = { wakeupFlags := wtInterrupted, waitQueue := q } :=
    Function.update_self k.current _ _
  have hwait' : ∀ {p}, p ≠ k.current → (k.blockedOn q ws).wait p = k.wait p := fun hp => Function.update_of_ne hp _ _
  have hself : (k.blockedOn q ws).proc k.current = { k.proc k.current with state := .sleeping, waitState := ws } :=
    Function.update_self k.current _ _
  have hproc : ∀ {p}, p ≠ k.current → (k.blockedOn q ws).proc p = k.proc p := fun hp => Function.update_of_ne hp _ _
  have hmem : ∀ {p}, p ≠ k.current → ∀ s, p ∈ (k.blockedOn q ws).waitQueue s ↔ p ∈ k.waitQueue s := by
    intro p hp s
    by_cases hs : s = q
    · rw [hs, hqueue, List.mem_append, List.mem_singleton]
      exact ⟨fun hor => hor.resolve_right hp, .inl⟩
    · rw [hother hs]
  have hasleep : Asleep (k.blockedOn q ws) k.current ws := ⟨congrArg ProcStruct.state hself, congrArg ProcStruct.waitState hself⟩
  refine ⟨?_, ⟨fun s => ?_, fun s p hin => ?_, fun t hin => ?_, h.queue.links, h.queue.value, fun i hpos => ?_⟩,
    fun p hlive => ?_, ?_, ?_⟩
  · have hstops : RunInv (k.modProc k.current fun x => { x with state := .sleeping, waitState := ws }) :=
      h.run.stops fun _ he => ProcState.noConfusion he
    exact hstops.congr (fun _ => rfl) (fun _ => rfl) rfl rfl rfl rfl rfl
  · by_cases hs : s = q
    · rw [hs, hqueue]
      exact List.nodup_append.mpr ⟨h.queue.nodup q, List.nodup_singleton _, fun a ha c hc heq =>
        hnot (List.mem_singleton.mp hc ▸ heq ▸ ha)⟩
    · rw [hother hs]
      exact h.queue.nodup s
  · by_cases hp : p = k.current
    · have hs : s = q := by
        by_contra hs
        rw [hother hs, hp] at hin
        exact hfree.queue s hin
      rw [hp, hs, Function.update_self, hwait]
      exact ⟨h.run.current, hof, rfl⟩
    · rw [Function.update_of_ne hp, hwait' hp]
      exact h.queue.mem s p ((hmem hp s).mp hin)
  · rw [Function.update_of_ne (hfree.timer t hin)]
    exact h.queue.timer t hin
  · have hs : QueueId.sem i ≠ q := fun heq => hzero i heq.symm hpos
    rw [hother hs]
    exact h.queue.empty i hpos
  · by_cases hp : p = k.current
    · rw [hp, Function.update_self]
      cases q with
      | sem i =>
        obtain rfl : o = some (.down i) := hof
        refine .inl ⟨hws i rfl ▸ hasleep, ?_⟩
        rw [hqueue]
        exact List.mem_append_right _ (List.mem_singleton_self _)
      | stdin =>
        obtain ⟨left, rfl⟩ : ∃ left, o = some (.read left) := hof
        exact .inl (hkbd rfl ▸ hasleep)
    · rw [Function.update_of_ne hp]
      exact (h.waits p hlive).congr (by rw [hproc hp]) (by rw [hproc hp]) (by rw [hwait' hp]) fun i => hmem hp (.sem i)
  · show Function.update b k.current o k.idleproc = none ∨ Function.update b k.current o k.idleproc = some .yield
    rw [Function.update_of_ne hidle.symm]
    exact h.idle
  · refine ⟨h.init.1, ?_⟩
    show Function.update b k.current o k.initproc ≠ some .exit
    by_cases hp : k.initproc = k.current
    · rw [hp, Function.update_self]
      cases q with
      | sem i =>
        obtain rfl : o = some (.down i) := hof
        exact fun he => nomatch he
      | stdin =>
        obtain ⟨left, rfl⟩ : ∃ left, o = some (.read left) := hof
        exact fun he => nomatch he
    · rw [Function.update_of_ne hp]
      exact h.init.2

/-- The value of a semaphore changes, and if there is something to take then nobody waits. -/
theorem setSem (h : KernInv k b) {v : Int} (hv : 0 ≤ v) (hempty : 0 < v → k.waitQueue (.sem i) = []) :
    KernInv (k.setSem i v) b where
  run := h.run.congr (fun _ => rfl) (fun _ => rfl) rfl rfl rfl rfl rfl
  queue := by
    have hself : (k.setSem i v).semValue i = v := Function.update_self i _ _
    have hother : ∀ {j}, j ≠ i → (k.setSem i v).semValue j = k.semValue j := fun hj => Function.update_of_ne hj _ _
    refine ⟨h.queue.nodup, h.queue.mem, h.queue.timer, h.queue.links, fun j => ?_, fun j hpos => ?_⟩
    · by_cases hj : j = i
      · rw [hj, hself]
        exact hv
      · rw [hother hj]
        exact h.queue.value j
    · by_cases hj : j = i
      · rw [hj, hself] at hpos
        rw [hj]
        exact hempty hpos
      · rw [hother hj] at hpos
        exact h.queue.empty j hpos
  waits p hlive := (h.waits p hlive).congr rfl rfl rfl fun _ => Iff.rfl
  idle := h.idle
  init := h.init

end KernInv

/-! ## Waking a process of a queue -/

namespace KernInv

theorem wakeupWait_run (h : KernInv k b) (hmem : p ∈ k.waitQueue q) (flags : Nat) :
    wakeupWait q p flags k = .ok () (k.released q p flags) := by
  have hrun : RunInv (k.unqueued q p flags) := h.run.congr (fun _ => rfl) (fun _ => rfl) rfl rfl rfl rfl rfl
  have hdel : waitQueueDel q p k = .ok () (k.setQueue q ((k.waitQueue q).erase p)) := by
    rw [waitQueueDel, Proc.get_bind, Proc.check_bind_pos ⟨hmem, (h.queue.mem q p hmem).2.2⟩]
    rfl
  rw [wakeupWait, Proc.bind_ok hdel, Proc.modify_bind]
  exact hrun.wakeupProc_run (h.queued_alive hmem)

end KernInv

theorem SameFamily.unqueued (k : Kern) (q : QueueId) (p flags : Nat) : SameFamily k (k.unqueued q p flags) :=
  .of_proc rfl rfl rfl rfl rfl rfl rfl rfl rfl

theorem SameFamily.released (hz : (k.proc p).state ≠ .zombie) (q : QueueId) (flags : Nat) :
    SameFamily k (k.released q p flags) := (SameFamily.unqueued k q p flags).trans (.woke hz)

theorem SameFamily.blockedOn (hr : (k.proc k.current).state = .runnable) (q : QueueId) (hws : ws ≠ wtChild) :
    SameFamily k (k.blockedOn q ws) := (SameFamily.asleep hr hws).trans (.of_proc rfl rfl rfl rfl rfl rfl rfl rfl rfl)

theorem SameSems.released (k : Kern) (p flags : Nat) : SameSems k (k.released .stdin p flags) := by
  have hrest := Kern.Rescheduled.woke (k.unqueued .stdin p flags) p
  refine ⟨hrest.semValue, fun i => ?_⟩
  show ((k.unqueued .stdin p flags).woke p).waitQueue (.sem i) = _
  rw [hrest.waitQueue]
  exact Kern.unqueued_queue_other k p flags QueueId.noConfusion

/-! ## `sem.c` -/

namespace KernInv

/-- **`up`**; its assertion holds. -/
theorem up_run (h : KernInv k b) (i : Nat) : up i k = .ok () (k.upped i) := by
  rw [up, Proc.get_bind, Kern.upped]
  cases hlist : k.waitQueue (.sem i) with
  | nil => rfl
  | cons p rest =>
    have hmem : p ∈ k.waitQueue (.sem i) := by
      rw [hlist]
      exact List.mem_cons_self
    show (Proc.check .upState ((k.proc p).waitState = wtKsem) >>= fun _ => wakeupWait (.sem i) p wtKsem) k = _
    rw [Proc.check_bind_pos (h.asleep_of_mem hmem).2]
    exact h.wakeupWait_run hmem wtKsem

theorem upped (h : KernInv k b) (i : Nat) : KernInv (k.upped i) b := by
  rw [Kern.upped]
  have hvalue := h.queue.value i
  split
  · next hlist => exact h.setSem (by omega) fun _ => hlist
  · next p rest hlist =>
    have hmem : p ∈ k.waitQueue (.sem i) := by
      rw [hlist]
      exact List.mem_cons_self
    exact h.released hmem fun _ _ => rfl

theorem sameFamily_upped (h : KernInv k b) (i : Nat) : SameFamily k (k.upped i) := by
  rw [Kern.upped]
  split
  · exact .of_proc rfl rfl rfl rfl rfl rfl rfl rfl rfl
  · next p rest hlist =>
    have hmem : p ∈ k.waitQueue (.sem i) := by
      rw [hlist]
      exact List.mem_cons_self
    exact .released (h.queued_alive hmem) _ _

theorem waitCurrentSet_run (hfree : Free k) (q : QueueId) (ws : Nat) : waitCurrentSet q ws k = .ok () (k.blockedOn q ws) := by
  have hnot : k.current ∉ k.waitQueue q := hfree.queue q
  rw [waitCurrentSet, Proc.get_bind, waitInit, Proc.modify_bind, Proc.modify_bind, waitQueueAdd, Proc.get_bind]
  refine (Proc.check_bind_pos hnot _ _).trans ?_
  let k1 := k.modProc k.current fun x => { x with state := .sleeping, waitState := ws }
  let k2 := k1.setWait k.current { k.wait k.current with wakeupFlags := wtInterrupted }
  show Outcome.ok () ((k2.setWait k.current { k2.wait k.current with waitQueue := q }).setQueue q _) = _
  rw [Kern.setWait_self, Kern.setWait_setWait]
  rfl

/-- **`down`** up to its `schedule`. -/
theorem downStart_run (hfree : Free k) (i : Nat) : downStart i k =
    if 0 < k.semValue i then .ok true (k.setSem i (k.semValue i - 1)) else .ok false (k.blockedOn (.sem i) wtKsem) := by
  rw [downStart, Proc.get_bind]
  by_cases hpos : 0 < k.semValue i
  · rw [if_pos hpos, if_pos hpos]
    rfl
  · have hset := waitCurrentSet_run hfree (.sem i) wtKsem
    rw [if_neg hpos, Proc.bind_ok hset, if_neg hpos]
    rfl

theorem taken (h : KernInv k b) (hpos : 0 < k.semValue i) : KernInv (k.setSem i (k.semValue i - 1)) b :=
  h.setSem (by omega) fun _ => h.queue.empty i hpos

theorem tryDown_run (i : Nat) (k : Kern) : tryDown i k =
    if 0 < k.semValue i then .ok true (k.setSem i (k.semValue i - 1)) else .ok false k := by
  rw [tryDown, Proc.get_bind]
  by_cases hpos : 0 < k.semValue i
  · rw [if_pos hpos, if_pos hpos]
    rfl
  · rw [if_neg hpos, if_neg hpos]
    rfl

/-- Behind its `schedule` the process has been released. -/
theorem released_of_awake (h : KernInv k b) (hb : b k.current = some (.down i)) (ha : Awake k k.current) :
    k.current ∉ k.waitQueue (.sem i) ∧ (k.wait k.current).wakeupFlags = wtKsem := by
  have hw := h.waits _ h.run.current
  rw [hb] at hw
  rcases hw with ⟨hasleep, -⟩ | ⟨-, hout⟩
  · exact absurd (hasleep.1.symm.trans ha.1) ProcState.noConfusion
  · exact hout

theorem free_of_down (h : KernInv k b) (hb : b k.current = some (.down i)) (ha : Awake k k.current) : Free k where
  queue q hmem := by
    have hof := (h.queue.mem q _ hmem).2.1
    rw [hb] at hof
    match q, hof with
    | .sem j, hof =>
      obtain rfl : i = j := Blocked.down.inj (Option.some.inj hof)
      exact (h.released_of_awake hb ha).1 hmem
    | .stdin, ⟨left, hof⟩ => exact nomatch hof
  timer t hmem heq := by
    have hsleep := (h.queue.timer t hmem).2.2
    rw [heq, hb] at hsleep
    exact nomatch hsleep

/-- **`down`** behind its `schedule`; its assertion holds. -/
theorem downEnd_run (h : KernInv k b) (hb : b k.current = some (.down i)) (ha : Awake k k.current) :
    downEnd i k = .ok () k := by
  have hfree := h.free_of_down hb ha
  have hdel : waitCurrentDel (.sem i) k = .ok () k := by
    rw [waitCurrentDel, Proc.get_bind, if_neg (hfree.queue _)]
    rfl
  have hflags := (h.released_of_awake hb ha).2
  rw [downEnd, Proc.bind_ok hdel, Proc.get_bind, hflags]
  exact Proc.check_run_pos rfl k

end KernInv

end Ucore
