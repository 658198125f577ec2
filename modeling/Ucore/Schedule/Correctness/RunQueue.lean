import Ucore.Schedule.Correctness.Sched

/-!
# `Schedule.Correctness.RunQueue` — the run queue holds those who can run

`RunInv` is what holds of the run queue outside of the scheduler: the processes in it are those that could run, apart
from the one that does and from `idleproc`.
-/

namespace Ucore

structure RunInv (k : Kern) : Prop where
  idle : k.idleproc ∈ k.live
  current : k.current ∈ k.live
  nodup : k.runList.Nodup
  mem : ∀ p, p ∈ k.runList ↔ p ∈ k.live ∧ (k.proc p).state = .runnable ∧ p ≠ k.current ∧ p ≠ k.idleproc
  queued : ∀ p ∈ k.runList, (k.proc p).queued = true
  num : k.procNum = k.runList.length

variable {k k' : Kern} {p q : Nat}

namespace RunInv

/-- Nothing that the run queue depends on has changed. -/
theorem congr (h : RunInv k) (hstate : ∀ p, (k'.proc p).state = (k.proc p).state)
    (hqueued : ∀ p, (k'.proc p).queued = (k.proc p).queued) (hlive : k'.live = k.live) (hcur : k'.current = k.current)
    (hidle : k'.idleproc = k.idleproc) (hlist : k'.runList = k.runList) (hnum : k'.procNum = k.procNum) :
    RunInv k' where
  idle := by rw [hidle, hlive]; exact h.idle
  current := by rw [hcur, hlive]; exact h.current
  nodup := hlist ▸ h.nodup
  mem p := by rw [hlist, hlive, hstate, hcur, hidle]; exact h.mem p
  queued p hmem := by rw [hqueued]; exact h.queued p (hlist ▸ hmem)
  num := by rw [hnum, hlist]; exact h.num

theorem current_not_mem (h : RunInv k) : k.current ∉ k.runList := fun hmem => ((h.mem _).mp hmem).2.2.1 rfl

theorem runnable (h : RunInv k) (hmem : p ∈ k.runList) : (k.proc p).state = .runnable := ((h.mem p).mp hmem).2.1

/-- A process that can run, and is not in the queue yet, gets there. -/
theorem mem_classEnqueued (k : Kern) (p q : Nat) :
    q ∈ (k.classEnqueued p).runList ↔ q ∈ k.runList ∨ (q = p ∧ p ≠ k.idleproc) := by
  rw [Kern.classEnqueued]
  split
  · next hidle =>
    show q ∈ k.runList ++ [p] ↔ _
    rw [List.mem_append, List.mem_singleton, and_iff_left hidle]
  · next hidle => exact ⟨.inl, fun hor => hor.elim id fun hand => absurd hand.2 hidle⟩

theorem nodup_classEnqueued (hnodup : k.runList.Nodup) (hnot : p ∉ k.runList) : (k.classEnqueued p).runList.Nodup := by
  rw [Kern.classEnqueued]
  split
  · show (k.runList ++ [p]).Nodup
    exact List.nodup_append.mpr ⟨hnodup, List.nodup_singleton p, fun a ha b hb heq =>
      hnot (List.mem_singleton.mp hb ▸ heq ▸ ha)⟩
  · exact hnodup

theorem num_classEnqueued (hnum : k.procNum = k.runList.length) :
    (k.classEnqueued p).procNum = (k.classEnqueued p).runList.length := by
  rw [Kern.classEnqueued]
  split
  · show k.procNum + 1 = ((k.runList ++ [p]).length : Int)
    rw [List.length_append, hnum]
    rfl
  · exact hnum

theorem queued_classEnqueued (hqueued : ∀ q ∈ k.runList, (k.proc q).queued = true) :
    ∀ q ∈ (k.classEnqueued p).runList, ((k.classEnqueued p).proc q).queued = true := by
  intro q hmem
  rw [Kern.classEnqueued] at hmem ⊢
  split
  · next hidle =>
    rw [if_pos hidle] at hmem
    by_cases hq : q = p
    · show (Function.update k.proc p _ q).queued = true
      rw [hq, Function.update_self]
    · have hin : q ∈ k.runList := (List.mem_append.mp hmem).resolve_right fun hone => hq (List.mem_singleton.mp hone)
      exact (congrArg ProcStruct.queued (Function.update_of_ne hq _ _)).trans (hqueued q hin)
  · next hidle =>
    rw [if_neg hidle] at hmem
    exact hqueued q hmem

/-- **`wakeup_proc`** keeps the run queue in step. -/
theorem woke (h : RunInv k) (hlive : p ∈ k.live) : RunInv (k.woke p) := by
  have hrest := Kern.Rescheduled.woke k p
  have hstate : ∀ q, q ≠ p → ((k.woke p).proc q).state = (k.proc q).state := fun q hq => by rw [Kern.woke_other hq]
  by_cases hr : (k.proc p).state = .runnable
  · -- nothing but the log has changed
    have heq : k.woke p = k.log p := by rw [Kern.woke, if_neg (not_not_intro hr)]
    rw [heq]
    exact h.congr (fun _ => rfl) (fun _ => rfl) rfl rfl rfl rfl rfl
  · have hnot : p ∉ k.runList := fun hmem => hr (h.runnable hmem)
    have hlog : ∀ q, q ≠ p → (((k.log p).ready p).proc q).queued = (k.proc q).queued := fun q hq =>
      congrArg ProcStruct.queued (Kern.modProc_other (k.log p) _ hq)
    have hqueued : ∀ q ∈ ((k.log p).ready p).runList, (((k.log p).ready p).proc q).queued = true := by
      intro q hmem
      rw [hlog q fun heq => hnot (heq ▸ hmem)]
      exact h.queued q hmem
    by_cases hcur : p = k.current
    · have heq : k.woke p = (k.log p).ready p := by rw [Kern.woke, if_pos hr, if_neg (not_not_intro hcur)]
      refine ⟨?_, ?_, ?_, fun q => ?_, ?_, ?_⟩
      · rw [hrest.idleproc, hrest.live]
        exact h.idle
      · rw [Kern.woke_current, hrest.live]
        exact h.current
      · rw [heq]
        exact h.nodup
      · rw [Kern.woke_current, hrest.live, hrest.idleproc]
        have hlist : (k.woke p).runList = k.runList := by
          rw [heq]
          rfl
        rw [hlist]
        by_cases hq : q = p
        · exact ⟨fun hmem => absurd (hq ▸ hmem) hnot, fun hand => absurd (hq.trans hcur) hand.2.2.1⟩
        · rw [hstate q hq]
          exact h.mem q
      · rw [heq]
        exact hqueued
      · rw [heq]
        exact h.num
    · have heq : k.woke p = ((k.log p).ready p).classEnqueued p := by rw [Kern.woke, if_pos hr, if_pos hcur]
      refine ⟨?_, ?_, ?_, fun q => ?_, ?_, ?_⟩
      · rw [hrest.idleproc, hrest.live]
        exact h.idle
      · rw [Kern.woke_current, hrest.live]
        exact h.current
      · rw [heq]
        exact nodup_classEnqueued h.nodup hnot
      · rw [Kern.woke_current, hrest.live, hrest.idleproc]
        have hmem : q ∈ (k.woke p).runList ↔ q ∈ k.runList ∨ (q = p ∧ p ≠ k.idleproc) := by
          rw [heq]
          exact mem_classEnqueued ((k.log p).ready p) p q
        rw [hmem]
        by_cases hq : q = p
        · subst hq
          rw [Kern.woke_state]
          exact ⟨fun hor => ⟨hlive, rfl, hcur, (hor.resolve_left hnot).2⟩, fun hand => .inr ⟨rfl, hand.2.2.2⟩⟩
        · rw [hstate q hq, h.mem q]
          exact ⟨fun hor => hor.resolve_right fun hand => hq hand.1, .inl⟩
      · rw [heq]
        exact queued_classEnqueued hqueued
      · rw [heq]
        exact num_classEnqueued h.num

/-- The running process stops being runnable. -/
theorem stops (h : RunInv k) {f : ProcStruct → ProcStruct} (hstate : ∀ x, (f x).state ≠ .runnable) :
    RunInv (k.modProc k.current f) where
  idle := h.idle
  current := h.current
  nodup := h.nodup
  mem p := by
    by_cases hp : p = k.current
    · rw [hp, Kern.modProc_self]
      exact ⟨fun hmem => absurd hmem h.current_not_mem, fun hand => absurd hand.2.1 (hstate _)⟩
    · rw [Kern.modProc_other k f hp]
      exact h.mem p
  queued p hmem := by
    have hp : p ≠ k.current := fun heq => h.current_not_mem (heq ▸ hmem)
    rw [Kern.modProc_other k f hp]
    exact h.queued p hmem
  num := h.num

end RunInv

/-! ## `schedule` -/

/-- Behind the first half of `schedule` the queue holds all processes that can run. -/
theorem mem_yielded (h : RunInv k) : p ∈ k.yielded.runList ↔
    p ∈ k.live ∧ (k.proc p).state = .runnable ∧ p ≠ k.idleproc := by
  have hmem := h.mem p
  rw [Kern.yielded]
  split
  · next hr =>
    rw [RunInv.mem_classEnqueued]
    show p ∈ k.runList ∨ (p = k.current ∧ k.current ≠ k.idleproc) ↔ _
    rw [hmem]
    constructor
    · rintro (⟨hlive, hrun, -, hidle⟩ | ⟨rfl, hidle⟩)
      · exact ⟨hlive, hrun, hidle⟩
      · exact ⟨h.current, hr, hidle⟩
    · rintro ⟨hlive, hrun, hidle⟩
      by_cases hp : p = k.current
      · exact .inr ⟨hp, hp ▸ hidle⟩
      · exact .inl ⟨hlive, hrun, hp, hidle⟩
  · next hr =>
    show p ∈ k.runList ↔ _
    rw [hmem]
    constructor
    · rintro ⟨hlive, hrun, -, hidle⟩
      exact ⟨hlive, hrun, hidle⟩
    · rintro ⟨hlive, hrun, hidle⟩
      exact ⟨hlive, hrun, fun hp => hr (hp ▸ hrun), hidle⟩

theorem nodup_yielded (h : RunInv k) : k.yielded.runList.Nodup := by
  rw [Kern.yielded]
  split
  · exact RunInv.nodup_classEnqueued (k := k.modProc k.current fun x => { x with needResched := false }) h.nodup
      h.current_not_mem
  · exact h.nodup

theorem num_yielded (h : RunInv k) : k.yielded.procNum = k.yielded.runList.length := by
  rw [Kern.yielded]
  split
  · exact RunInv.num_classEnqueued (k := k.modProc k.current fun x => { x with needResched := false }) h.num
  · exact h.num

theorem queued_yielded (h : RunInv k) : ∀ p ∈ k.yielded.runList, (k.yielded.proc p).queued = true := by
  have hmod : ∀ p ∈ k.runList, ((k.modProc k.current fun x => { x with needResched := false }).proc p).queued = true := by
    intro p hmem
    have hp : p ≠ k.current := fun heq => h.current_not_mem (heq ▸ hmem)
    rw [Kern.modProc_other k _ hp]
    exact h.queued p hmem
  rw [Kern.yielded]
  split
  · exact RunInv.queued_classEnqueued (k := k.modProc k.current fun x => { x with needResched := false }) hmod
  · exact hmod

/-- Neither state nor wait state of a process changes in `schedule`. -/
theorem yielded_proc {α : Type} (f : ProcStruct → α)
    (hf : ∀ x slice queued resched, f { x with timeSlice := slice, queued := queued, needResched := resched } = f x)
    (p : Nat) : f (k.yielded.proc p) = f (k.proc p) := by
  have hmod : f ((k.modProc k.current fun x => { x with needResched := false }).proc p) = f (k.proc p) := by
    by_cases hp : p = k.current
    · rw [hp, Kern.modProc_self]
      exact hf _ _ _ false
    · rw [Kern.modProc_other k _ hp]
  rw [Kern.yielded]
  split
  · by_cases hp : p = k.current
    · rw [hp] at hmod ⊢
      exact (Kern.classEnqueued_self f fun x slice queued => hf x slice queued x.needResched).trans hmod
    · rw [Kern.classEnqueued_other hp]
      exact hmod
  · exact hmod

theorem switched_proc {α : Type} (f : ProcStruct → α)
    (hf : ∀ x slice queued resched, f { x with timeSlice := slice, queued := queued, needResched := resched } = f x)
    (p : Nat) : f (k.switched.proc p) = f (k.proc p) := by
  rw [Kern.switched]
  split
  · exact yielded_proc f hf p
  · exact yielded_proc f hf p

/-- The process that `schedule` switches to can run. -/
theorem switched_current (h : RunInv k) : k.switched.current = k.idleproc ∨
    (k.switched.current ∈ k.live ∧ (k.proc k.switched.current).state = .runnable) := by
  rw [Kern.switched]
  split
  · exact .inl (Kern.Rescheduled.yielded k).idleproc
  · next next rest hlist =>
    have hmem : next ∈ k.yielded.runList := by
      rw [hlist]
      exact List.mem_cons_self
    have hyield := (mem_yielded h).mp hmem
    exact .inr ⟨hyield.1, hyield.2.1⟩

/-- **`schedule`** keeps the run queue in step. -/
theorem RunInv.switched (h : RunInv k) : RunInv k.switched := by
  have hrest := Kern.Rescheduled.switched k
  have hstate : ∀ p, (k.switched.proc p).state = (k.proc p).state := switched_proc _ fun _ _ _ _ => rfl
  have hyield := Kern.Rescheduled.yielded k
  cases hlist : k.yielded.runList with
  | nil =>
    -- nobody else can run
    have heq : k.switched = k.yielded.setCurrent k.yielded.idleproc := by rw [Kern.switched, hlist]
    have hnil : k.switched.runList = [] := by rw [heq]; exact hlist
    refine ⟨?_, ?_, ?_, fun p => ?_, ?_, ?_⟩
    · rw [hrest.idleproc, hrest.live]
      exact h.idle
    · rw [hrest.live, heq]
      show k.yielded.idleproc ∈ k.live
      rw [hyield.idleproc]
      exact h.idle
    · rw [hnil]
      exact .nil
    · rw [hnil, hrest.live, hstate, hrest.idleproc]
      have hmem := mem_yielded h (p := p)
      rw [hlist] at hmem
      exact ⟨fun hin => absurd hin List.not_mem_nil, fun hand => hmem.mpr ⟨hand.1, hand.2.1, hand.2.2.2⟩⟩
    · rw [hnil]
      exact fun p hmem => absurd hmem List.not_mem_nil
    · rw [hnil, heq]
      show k.yielded.procNum = _
      rw [num_yielded h, hlist]
  | cons next rest =>
    have heq : k.switched = (k.yielded.dequeued next).setCurrent next := by rw [Kern.switched, hlist]
    have hrestlist : k.switched.runList = rest := by
      rw [heq]
      show k.yielded.runList.erase next = rest
      rw [hlist, List.erase_cons_head]
    have hnodup := nodup_yielded h
    rw [hlist] at hnodup
    have hnext : next ∈ k.yielded.runList := by
      rw [hlist]
      exact List.mem_cons_self
    have hcur : k.switched.current = next := by rw [heq]; rfl
    refine ⟨?_, ?_, ?_, fun p => ?_, ?_, ?_⟩
    · rw [hrest.idleproc, hrest.live]
      exact h.idle
    · rw [hrest.live, hcur]
      exact ((mem_yielded h).mp hnext).1
    · rw [hrestlist]
      exact (List.nodup_cons.mp hnodup).2
    · rw [hrestlist, hrest.live, hstate, hrest.idleproc, hcur]
      have hmem := mem_yielded h (p := p)
      rw [hlist, List.mem_cons] at hmem
      constructor
      · intro hin
        have hall := hmem.mp (.inr hin)
        exact ⟨hall.1, hall.2.1, fun hp => (List.nodup_cons.mp hnodup).1 (hp ▸ hin), hall.2.2⟩
      · rintro ⟨hlive, hrun, hp, hidle⟩
        exact (hmem.mpr ⟨hlive, hrun, hidle⟩).resolve_left hp
    · intro p hmem
      rw [hrestlist] at hmem
      rw [heq]
      exact queued_yielded h p (by rw [hlist]; exact List.mem_cons_of_mem _ hmem)
    · rw [hrestlist, heq]
      show k.yielded.procNum - 1 = _
      rw [num_yielded h, hlist, List.length_cons]
      omega

/-- **`schedule`** runs to its end. -/
theorem RunInv.schedule_run (h : RunInv k) : schedule k = .ok () k.switched :=
  Ucore.schedule_run (fun _ _ => h.current_not_mem) (queued_yielded h)

theorem RunInv.wakeupProc_run (h : RunInv k) (hz : (k.proc p).state ≠ .zombie) : wakeupProc p k = .ok () (k.woke p) :=
  Ucore.wakeupProc_run hz h.runnable

end Ucore
