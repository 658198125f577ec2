import Ucore.Lib.Run
import Ucore.Schedule.Correctness.Stride

/-!
# `Schedule.Correctness.StrideFair` — a fixed set of processes under the stride class

Rounds of pick, dequeue, run for some ticks, enqueue. Beside the queue a run keeps the unwrapped strides and the number of
times each process was picked. `stride_fair_reached`: the window never opens beyond `BIG_STRIDE`, whatever the number of
rounds, and so the picks of any two processes stay in proportion.
-/

namespace Ucore.Stride

open SkewTree

structure FairRun where
  rq : RunQueue
  acc : Nat → Nat          -- the unwrapped strides
  picks : Nat → Nat

namespace FairRun

/-- The processes `ps` have just been queued, with the priorities `prio` and one common stride. -/
structure Init (ps : List Nat) (prio : Nat → BitVec 32) (start : Nat) (s : FairRun) : Prop where
  nodup : ps.Nodup
  queued : ∃ rq, ps.foldlM strideEnqueue (strideInit rq) = some s.rq ∧
    ∀ p ∈ ps, (rq.proc p).lab6Priority = prio p ∧ prio p ≠ 0 ∧ (rq.proc p).lab6Stride = BitVec.ofNat 32 start
  acc : s.acc = fun _ => start
  picks : s.picks = fun _ => 0

/-- One round, in which the picked process runs for `ticks` ticks. -/
def round (s : FairRun) (ticks : Nat) : Option FairRun :=
  match stridePickNext s.rq with
  | (none, _)    => none
  | (some p, rq) => do
    let rq ← strideDequeue rq p
    let rq ← strideEnqueue ((fun rq => strideProcTick rq p)^[ticks] rq) p
    pure { rq := rq
           acc := Function.update s.acc p (s.acc p + bigStride / (s.rq.proc p).lab6Priority.toNat)
           picks := Function.update s.picks p (s.picks p + 1) }

/-- What is said about the processes `ps` after some rounds. -/
structure Fair (ps : List Nat) (prio : Nat → BitVec 32) (start : Nat) (s : FairRun) : Prop where
  /-- `acc` and `picks` count what they should. -/
  wraps : ∀ p ∈ ps, (s.rq.proc p).lab6Stride = BitVec.ofNat 32 (s.acc p)
  acc_eq : ∀ p ∈ ps, s.acc p = start + s.picks p * (bigStride / (prio p).toNat)
  /-- The queue is a heap of all the processes. -/
  queued : ∃ t, HeapAt s.rq.node s.rq.lab6RunPool t ∧ keys t = ps
  window : ∀ p ∈ ps, ∀ q ∈ ps, s.acc p ≤ s.acc q + bigStride
  compare : ∀ p ∈ ps, ∀ q ∈ ps, procStrideCompF s.rq p q = compareNat (s.acc p) (s.acc q)
  least : ∀ p, (stridePickNext s.rq).1 = some p → p ∈ ps ∧ ∀ q ∈ ps, s.acc p ≤ s.acc q
  products : ∀ p ∈ ps, ∀ q ∈ ps,
    s.picks p * (bigStride / (prio p).toNat) ≤ s.picks q * (bigStride / (prio q).toNat) + bigStride
  /-- The next round can be taken. -/
  goes_on : ps ≠ [] → ∀ ticks, ∃ s', s.round ticks = some s'

structure Inv (ps : List Nat) (prio : Nat → BitVec 32) (start : Nat) (s : FairRun) : Prop where
  queue : ∃ t, Queue s.rq s.acc t ∧ keys t = ps
  priority : ∀ p ∈ ps, (s.rq.proc p).lab6Priority = prio p ∧ prio p ≠ 0
  acc_eq : ∀ p ∈ ps, s.acc p = start + s.picks p * (bigStride / (prio p).toNat)

end FairRun

variable {ps : List Nat} {prio : Nat → BitVec 32} {start p : Nat} {s : FairRun}

/-- Running changes nothing that the queue looks at. -/
theorem ticks_same (rq : RunQueue) (p n : Nat) : SameProcs rq ((fun rq => strideProcTick rq p)^[n] rq) ∧
    ((fun rq => strideProcTick rq p)^[n] rq).node = rq.node ∧
    ((fun rq => strideProcTick rq p)^[n] rq).lab6RunPool = rq.lab6RunPool ∧
    ((fun rq => strideProcTick rq p)^[n] rq).procNum = rq.procNum := by
  induction n with
  | zero => exact ⟨SameProcs.refl rq, rfl, rfl, rfl⟩
  | succ n ih =>
    rw [Function.iterate_succ_apply']
    exact ⟨ih.1.trans (strideProcTick_same _ p), ih.2.1, ih.2.2.1, ih.2.2.2⟩

/-- Queueing processes of one stride, one after the other. -/
theorem Queue.enqueueAll {rq : RunQueue} {acc : Nat → Nat} {t : BinaryTree Nat} (h : Queue rq acc t) (hnd : ps.Nodup)
    (hfresh : ∀ p ∈ ps, p ∉ keys t) (hw : ∀ p ∈ ps, Wraps rq acc p)
    (hacc : ∀ p q, acc p ≤ acc q + bigStride) :
    ∃ rq' t', ps.foldlM strideEnqueue rq = some rq' ∧ Queue rq' acc t' ∧ keys t' = ps + keys t ∧ SameProcs rq rq' := by
  induction ps generalizing rq t with
  | nil => exact ⟨rq, t, rfl, h, by simp, SameProcs.refl rq⟩
  | cons p ps ih =>
    obtain ⟨hp, hnd⟩ := List.nodup_cons.mp hnd
    obtain ⟨rq₁, t₁, hcall, hq, hkeys, hsame⟩ :=
      h.enqueue (hfresh p (by simp)) (hw p (by simp)) fun q _ => ⟨hacc p q, hacc q p⟩
    have hfresh₁ : ∀ q ∈ ps, q ∉ keys t₁ := by
      intro q hq
      rw [hkeys, Multiset.mem_cons, not_or]
      refine ⟨?_, hfresh q (by simp [hq])⟩
      rintro rfl
      exact hp hq
    have hw₁ : ∀ q ∈ ps, Wraps rq₁ acc q := fun q hq => (hsame.stride q).trans (hw q (by simp [hq]))
    obtain ⟨rq₂, t₂, hrest, hq₂, hkeys₂, hsame₂⟩ := ih hq hnd hfresh₁ hw₁
    refine ⟨rq₂, t₂, ?_, hq₂, ?_, hsame.trans hsame₂⟩
    · rw [List.foldlM_cons, hcall]
      exact hrest
    · rw [hkeys₂, hkeys, Multiset.add_cons, ← Multiset.cons_coe, Multiset.cons_add]

namespace FairRun

theorem Init.inv (h : Init ps prio start s) : Inv ps prio start s := by
  obtain ⟨rq, hq, hprocs⟩ := h.queued
  have hinit : Queue (strideInit rq) s.acc .nil := Queue.init rq s.acc
  have hw : ∀ p ∈ ps, Wraps (strideInit rq) s.acc p := by
    intro p hp
    show (rq.proc p).lab6Stride = _
    rw [h.acc]
    exact (hprocs p hp).2.2
  obtain ⟨rq', t, hcall, hqueue, hkeys, hsame⟩ := hinit.enqueueAll h.nodup (by simp) hw fun p q => by
    simp [h.acc]
  obtain rfl : s.rq = rq' := Option.some.inj (hq.symm.trans hcall)
  refine ⟨⟨t, hqueue, by simpa using hkeys⟩, fun p hp => ?_, fun p _ => ?_⟩
  · obtain ⟨hprio, hne, -⟩ := hprocs p hp
    exact ⟨(hsame.priority p).trans hprio, hne⟩
  · simp [h.acc, h.picks]

/-- **One round**: it can be taken, and keeps the invariant. -/
theorem Inv.round (h : Inv ps prio start s) (hps : ps ≠ []) (ticks : Nat) :
    ∃ s', s.round ticks = some s' ∧ Inv ps prio start s' := by
  obtain ⟨t, hq, hkeys⟩ := h.queue
  have hroot : s.rq.lab6RunPool ≠ none := by
    rw [Ne, hq.empty_iff, hkeys]
    simpa using hps
  obtain ⟨p, hp⟩ := Option.ne_none_iff_exists'.mp hroot
  have hmem : p ∈ ps := by
    rw [← Multiset.mem_coe, ← hkeys]
    exact (hq.least hp).1
  obtain ⟨hprio, hne⟩ := h.priority p hmem
  have hpass : passOf s.rq p = bigStride / (prio p).toNat := by
    rw [passOf, hprio, if_neg hne]
  obtain ⟨rq₁, rq₂, t₂, hpick, hdeq, hq₂, hkeys₂, hw₂, hspread, -, hproc, hprio₂⟩ := hq.pick hp
  obtain ⟨hsame, hnode, hpool, hnum⟩ := ticks_same rq₂ p ticks
  -- the process comes back to a queue that is inside the window with it
  have hin : ∀ q ∈ keys t₂, q ∈ keys t := by
    intro q hq
    rw [← hkeys₂]
    exact Multiset.mem_cons_of_mem hq
  have hout : p ∉ keys t₂ := by
    have hnd := hq.heap.nodup
    rw [← hkeys₂] at hnd
    exact (Multiset.nodup_cons.mp hnd).1
  have hmem' : p ∈ keys t := by
    rw [hkeys]
    exact hmem
  obtain ⟨rq₃, t₃, henq, hq₃, hkeys₃, hsame₃⟩ :=
    (hq₂.same hsame hpool hnum hnode).enqueue hout ((hsame.stride p).trans hw₂)
      fun q hq' => ⟨hspread p hmem' q (hin q hq'), hspread q (hin q hq') p hmem'⟩
  let s' : FairRun := { rq := rq₃, acc := picked s.rq s.acc p, picks := Function.update s.picks p (s.picks p + 1) }
  refine ⟨s', ?_, ⟨t₃, hq₃, ?_⟩, fun q hq' => ?_, fun q hq' => ?_⟩
  · have hacc : picked s.rq s.acc p = Function.update s.acc p (s.acc p + bigStride / (s.rq.proc p).lab6Priority.toNat) := by
      rw [picked, hpass, hprio]
    rw [FairRun.round, hpick]
    simp only [hdeq, henq, s', hacc, Option.bind_eq_bind, Option.bind_some, Option.pure_def]
  · rw [hkeys₃, hkeys₂, hkeys]
  · refine ⟨?_, (h.priority q hq').2⟩
    rw [hsame₃.priority, hsame.priority]
    by_cases hqp : q = p
    · rw [hqp, hprio₂, hprio, if_neg hne]
    · rw [hproc q hqp]
      exact (h.priority q hq').1
  · by_cases hqp : q = p
    · subst hqp
      have hold := h.acc_eq q hmem
      simp only [s', picked, Function.update_self, hpass]
      rw [hold, Nat.add_mul, Nat.one_mul, Nat.add_assoc]
    · simp only [s', picked, Function.update_of_ne hqp]
      exact h.acc_eq q hq'

theorem Inv.fair (h : Inv ps prio start s) : Fair ps prio start s := by
  obtain ⟨t, hq, hkeys⟩ := h.queue
  have hin : ∀ p ∈ ps, p ∈ keys t := by
    intro p hp
    rw [hkeys]
    exact hp
  have hwin : ∀ p ∈ ps, ∀ q ∈ ps, s.acc p ≤ s.acc q + bigStride :=
    fun p hp q hq' => hq.spread p (hin p hp) q (hin q hq')
  refine ⟨fun p hp => hq.wraps p (hin p hp), h.acc_eq, ⟨t, hq.heap, hkeys⟩, hwin, fun p hp q hq' => ?_,
    fun p hp => ?_, fun p hp q hq' => ?_, fun hps ticks => ?_⟩
  · exact procStrideCompF_eq (hq.wraps p (hin p hp)) (hq.wraps q (hin q hq')) (hwin p hp q hq') (hwin q hq' p hp)
  · rw [stridePickNext_fst] at hp
    obtain ⟨hmem, hmin⟩ := hq.least hp
    rw [hkeys] at hmem hmin
    exact ⟨hmem, hmin⟩
  · have := hwin p hp q hq'
    rw [h.acc_eq p hp, h.acc_eq q hq'] at this
    omega
  · obtain ⟨s', hs, -⟩ := h.round hps ticks
    exact ⟨s', hs⟩

end FairRun

/-- The runs of the processes `ps`. -/
abbrev FairReaches (ps : List Nat) (prio : Nat → BitVec 32) (start : Nat) : FairRun → Prop :=
  Reaches (FairRun.Init ps prio start) (fun s ticks s' => s.round ticks = some s') fun _ _ => True

/-- **After any number of rounds** the strides are inside one window, in which the comparison orders the queue as they
    do, a least process is picked, and the picks of any two processes are in proportion. -/
theorem stride_fair_reached (h : FairReaches ps prio start s) : s.Fair ps prio start := by
  have hinv : s.Inv ps prio start := by
    refine h.invariant (fun _ h0 => h0.inv) fun s ticks s' hi _ hs => ?_
    by_cases hps : ps = []
    · -- nothing to pick
      subst hps
      obtain ⟨t, hq, hkeys⟩ := hi.queue
      have hnone : s.rq.lab6RunPool = none := hq.empty_iff.mpr hkeys
      simp [FairRun.round, stridePickNext, hnone] at hs
    · obtain ⟨s₁, hs₁, hi₁⟩ := hi.round hps ticks
      obtain rfl : s₁ = s' := Option.some.inj (hs₁.symm.trans hs)
      exact hi₁
  exact hinv.fair

/-- Processes 1 and 2, of priorities 1 and 2, started just below the wrap: process 2 is picked, and its stride wraps. -/
theorem stride_fair_reached_two : ∃ s : FairRun, s.picks 2 = 1 ∧ s.Fair [1, 2] (fun p => BitVec.ofNat 32 p) 0xFFFFFFFF := by
  let rq : RunQueue :=
    { proc := fun p => { state := .runnable, needResched := false, onRq := false, timeSlice := 0,
                         lab6Stride := 0xFFFFFFFF, lab6Priority := BitVec.ofNat 32 p }
      node := fun _ => { parent := none, left := none, right := none }
      lab6RunPool := none
      procNum := 0
      maxTimeSlice := 5 }
  -- the start, one round, and its effect, evaluated in one go
  have hrun : (([1, 2].foldlM strideEnqueue (strideInit rq)).bind fun rq =>
      (FairRun.round { rq := rq, acc := fun _ => 0xFFFFFFFF, picks := fun _ => 0 } 1).map fun s => s.picks 2) = some 1 := by
    decide +kernel
  obtain ⟨rq₀, hstart, hrun⟩ := Option.bind_eq_some_iff.mp hrun
  obtain ⟨s₁, hround, hpicks⟩ := Option.map_eq_some_iff.mp hrun
  refine ⟨s₁, hpicks, stride_fair_reached (.next (.start ⟨by decide, ⟨rq, hstart, ?_⟩, rfl, rfl⟩) trivial hround)⟩
  intro p hp
  refine ⟨rfl, ?_, rfl⟩
  revert p
  decide

end Ucore.Stride
