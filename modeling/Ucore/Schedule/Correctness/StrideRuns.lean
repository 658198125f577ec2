import Ucore.Lib.Run
import Ucore.Schedule.Correctness.Stride

/-!
# `Schedule.Correctness.StrideRuns` — the stride class while processes come and go

The runs of lab6's kernel under this class: processes are forked, sleep, wake up, change their priority, exit and are
reaped in any order. A run also carries the unwrapped strides. `alloc_proc` starts a stride at 0 and a sleeper keeps its
own, so a process can enter the queue far away from the others; as long as none does (`Near`), every queue is inside one
window (`stride_window_reached`).
-/

namespace Ucore.Stride

open SkewTree

structure StrideRun where
  kern : StrideKern
  acc : Nat → Nat          -- the unwrapped strides

inductive StrideOp where
  | fork (proc : Nat)
  | wakeup (proc : Nat)
  | sleep
  | exit
  | setPriority (priority : BitVec 32)
  | tick
  | schedule
  | reap (proc : Nat)

variable {k : StrideKern} {acc : Nat → Nat} {t : BinaryTree Nat} {p q : Nat}

/-- `current`, or a process on the queue, other than `idleproc`. -/
def Active (k : StrideKern) (p : Nat) : Prop := (k.rq.proc p).state = .runnable ∧ p ≠ idleproc

instance : Decidable (Active k p) := by unfold Active; infer_instance

def Queued (k : StrideKern) (p : Nat) : Prop := Active k p ∧ p ≠ k.current

namespace StrideRun

/-- After `sched_init`: only `idleproc` exists. The state `PROC_UNINIT` stands for memory that holds no process. -/
structure Init (s : StrideRun) : Prop where
  queue : ∃ rq, s.kern = { rq := strideInit rq, current := idleproc }
  idle : (s.kern.rq.proc idleproc).state = .runnable
  others : ∀ p ≠ idleproc, (s.kern.rq.proc p).state = .uninit

/-- What holds of the caller and of the process it names. -/
def Enabled (s : StrideRun) : StrideOp → Prop
  | .fork p        => p ≠ idleproc ∧ (s.kern.rq.proc p).state = .uninit
  | .wakeup p      => (s.kern.rq.proc p).state ≠ .uninit ∧ (s.kern.rq.proc p).state ≠ .zombie
  | .sleep         => Active s.kern s.kern.current
  | .exit          => Active s.kern s.kern.current
  | .setPriority _ => Active s.kern s.kern.current
  | .tick          => True
  | .schedule      => True
  | .reap p        => p ≠ s.kern.current ∧ (s.kern.rq.proc p).state = .zombie

instance (s : StrideRun) (op : StrideOp) : Decidable (s.Enabled op) := by
  cases op <;> simp only [Enabled] <;> infer_instance

/-- The unwrapped strides after `schedule` has picked. -/
def accAfter (s : StrideRun) (k : StrideKern) : Nat → Nat :=
  match (stridePickNext k.rq).1 with
  | none   => s.acc
  | some p => picked k.rq s.acc p

def call (s : StrideRun) : StrideOp → Option StrideRun
  | .fork p        => do
    let k ← wakeupProc (allocProc s.kern p) p
    pure { kern := k, acc := Function.update s.acc p 0 }
  | .wakeup p      => do
    let k ← wakeupProc s.kern p
    pure { s with kern := k }
  | .sleep         => pure { s with kern := s.kern.modProc s.kern.current fun p => { p with state := .sleeping } }
  | .exit          => pure { s with kern := s.kern.modProc s.kern.current fun p => { p with state := .zombie } }
  | .setPriority n => pure { s with kern := lab6SetPriority s.kern n }
  | .tick          => pure { s with kern := schedClassProcTick s.kern s.kern.current }
  | .schedule      => do
    let k ← requeueCurrent s.kern
    let k' ← schedule s.kern
    pure { kern := k', acc := s.accAfter k }
  | .reap p        => pure { s with kern := s.kern.modProc p fun p => { p with state := .uninit } }

def step (s : StrideRun) (op : StrideOp) : Option StrideRun := if s.Enabled op then s.call op else none

/-- **The condition**: a process that becomes runnable is within `BIG_STRIDE` of every process that is. -/
def Near (s : StrideRun) : StrideOp → Prop
  | .fork _   => ∀ q, Active s.kern q → s.acc q ≤ bigStride
  | .wakeup p => (s.kern.rq.proc p).state ≠ .runnable →
      ∀ q, Active s.kern q → s.acc p ≤ s.acc q + bigStride ∧ s.acc q ≤ s.acc p + bigStride
  | _         => True

/-- What is said about a queue with the members `on`. -/
structure Windowed (rq : RunQueue) (acc : Nat → Nat) (on : Nat → Prop) : Prop where
  heap : ∃ t, HeapAt rq.node rq.lab6RunPool t ∧ (∀ p, p ∈ keys t ↔ on p) ∧ Compares (procStrideCompF rq) (keys t)
  wraps : ∀ p, on p → (rq.proc p).lab6Stride = BitVec.ofNat 32 (acc p)
  window : ∀ p q, on p → on q → acc p ≤ acc q + bigStride
  least : ∀ p, (stridePickNext rq).1 = some p → on p ∧ ∀ q, on q → acc p ≤ acc q

/-- The queue is as it should be, also at the moment when `schedule` picks, and the next call returns. -/
structure Sound (s : StrideRun) : Prop where
  queue : Windowed s.kern.rq s.acc (Queued s.kern)
  picking : ∃ k, requeueCurrent s.kern = some k ∧ Windowed k.rq s.acc (Active s.kern)
  goes_on : ∀ op, s.Enabled op → s.Near op → ∃ s', s.step op = some s'

structure Inv (s : StrideRun) : Prop where
  idle : (s.kern.rq.proc idleproc).state = .runnable
  current : (s.kern.rq.proc s.kern.current).state ≠ .uninit
  wraps : ∀ p ≠ idleproc, (s.kern.rq.proc p).state ≠ .uninit → Wraps s.kern.rq s.acc p
  window : ∀ p q, Active s.kern p → Active s.kern q → s.acc p ≤ s.acc q + bigStride
  queue : ∃ t, Queue s.kern.rq s.acc t ∧ ∀ p, p ∈ keys t ↔ Queued s.kern p

end StrideRun

/-! ## The functions of `sched.c` -/

/-- `wakeup_proc` of a process that is not `current`. -/
theorem wakeupProc_run (hq : Queue k.rq acc t) (hp : p ∉ keys t) (hcur : p ≠ k.current) (hidle : p ≠ idleproc)
    (hstate : (k.rq.proc p).state ≠ .runnable) (hw : Wraps k.rq acc p)
    (hnear : ∀ q ∈ keys t, acc p ≤ acc q + bigStride ∧ acc q ≤ acc p + bigStride) :
    ∃ k' t', wakeupProc k p = some k' ∧ Queue k'.rq acc t' ∧ keys t' = p ::ₘ keys t ∧ k'.current = k.current ∧
      SameProcs (k.rq.modProc p fun x => { x with state := .runnable }) k'.rq := by
  have hstride : ∀ q, ((k.rq.modProc p fun x => { x with state := .runnable }).proc q).lab6Stride = (k.rq.proc q).lab6Stride :=
    fun q => RunQueue.modProc_field StrideProc.lab6Stride fun _ => rfl
  have hq₁ : Queue (k.rq.modProc p fun x => { x with state := .runnable }) acc t :=
    hq.congr rfl rfl (fun _ _ => rfl) (fun q _ => hstride q) fun _ _ => rfl
  obtain ⟨rq', t', hcall, hq', hkeys, hsame⟩ := hq₁.enqueue hp ((hstride p).trans hw) hnear
  refine ⟨{ k with rq := rq' }, t', ?_, hq', hkeys, rfl, hsame⟩
  simp [wakeupProc, hstate, hcur, schedClassEnqueue, hidle, StrideKern.modProc, hcall]

/-- The first part of `schedule`: all the active processes are on the queue then. -/
theorem requeueCurrent_run (hq : Queue k.rq acc t) (hkeys : ∀ p, p ∈ keys t ↔ Queued k p)
    (hw : ∀ p, Active k p → Wraps k.rq acc p)
    (hwin : ∀ p q, Active k p → Active k q → acc p ≤ acc q + bigStride) :
    ∃ k₁ t₁, requeueCurrent k = some k₁ ∧ Queue k₁.rq acc t₁ ∧ (∀ p, p ∈ keys t₁ ↔ Active k p) ∧
      SameProcs k.rq k₁.rq ∧ k₁.current = k.current := by
  have hsame : SameProcs k.rq (k.rq.modProc k.current fun x => { x with needResched := false }) := by
    apply SameProcs.modProc
    all_goals intro x; rfl
  have hq₁ : Queue (k.rq.modProc k.current fun x => { x with needResched := false }) acc t :=
    hq.same hsame rfl rfl rfl
  by_cases hact : Active k k.current
  · -- it can go on
    have hin : ∀ q ∈ keys t, Active k q := fun q hq' => ((hkeys q).mp hq').1
    have hout : k.current ∉ keys t := fun h => ((hkeys _).mp h).2 rfl
    obtain ⟨rq', t', hcall, hq', hkeys', hsame'⟩ := hq₁.enqueue hout ((hsame.stride _).trans (hw _ hact))
      fun q hq' => ⟨hwin _ q hact (hin q hq'), hwin q _ (hin q hq') hact⟩
    refine ⟨{ k with rq := rq' }, t', ?_, hq', fun p => ?_, hsame.trans hsame', rfl⟩
    · simp [requeueCurrent, StrideKern.modProc, hact.1, schedClassEnqueue, hact.2, hcall]
    · rw [hkeys', Multiset.mem_cons, hkeys]
      by_cases hp : p = k.current
      · simp [hp, hact]
      · simp [hp, Queued]
  · refine ⟨{ k with rq := k.rq.modProc k.current fun x => { x with needResched := false } }, t, ?_, hq₁, fun p => ?_, hsame, rfl⟩
    · by_cases hrun : (k.rq.proc k.current).state = .runnable
      · have hidle : k.current = idleproc := by
          by_contra hne
          exact hact ⟨hrun, hne⟩
        simp [requeueCurrent, StrideKern.modProc, schedClassEnqueue, hidle]
      · simp [requeueCurrent, StrideKern.modProc, hrun]
    · rw [hkeys]
      refine ⟨fun h => h.1, fun h => ⟨h, ?_⟩⟩
      rintro rfl
      exact hact h

namespace StrideRun

variable {s s' : StrideRun}

theorem Init.inv (h : Init s) : Inv s := by
  obtain ⟨rq, hrq⟩ := h.queue
  have hnone : ∀ p, ¬ Active s.kern p := by
    rintro p ⟨hrun, hne⟩
    rw [h.others p hne] at hrun
    contradiction
  refine ⟨h.idle, ?_, fun p hne halloc => absurd (h.others p hne) halloc, fun p q hp => absurd hp (hnone p),
    ⟨.nil, ?_, fun p => ?_⟩⟩
  · have hcur : s.kern.current = idleproc := by
      rw [hrq]
    rw [hcur, h.idle]
    decide
  · rw [hrq]
    exact Queue.init rq s.acc
  · simp [Queued, hnone]

theorem Inv.picking (h : Inv s) : ∃ k₁ t₁, requeueCurrent s.kern = some k₁ ∧ Queue k₁.rq s.acc t₁ ∧
    (∀ p, p ∈ keys t₁ ↔ Active s.kern p) ∧ SameProcs s.kern.rq k₁.rq ∧ k₁.current = s.kern.current := by
  obtain ⟨t, hq, hkeys⟩ := h.queue
  refine requeueCurrent_run hq hkeys (fun p hp => ?_) h.window
  refine h.wraps p hp.2 ?_
  rw [hp.1]
  decide

/-- A step that changes no state and no stride. -/
theorem Inv.keep {k' : StrideKern} (h : Inv s) (hcur : k'.current = s.kern.current)
    (hstate : ∀ p, (k'.rq.proc p).state = (s.kern.rq.proc p).state)
    (hstride : ∀ p, (k'.rq.proc p).lab6Stride = (s.kern.rq.proc p).lab6Stride)
    (hnode : k'.rq.node = s.kern.rq.node) (hpool : k'.rq.lab6RunPool = s.kern.rq.lab6RunPool)
    (hnum : k'.rq.procNum = s.kern.rq.procNum) : Inv { s with kern := k' } := by
  obtain ⟨t, hq, hkeys⟩ := h.queue
  have hact : ∀ p, Active k' p ↔ Active s.kern p := by
    intro p
    rw [Active, Active, hstate]
  refine ⟨(hstate _).trans h.idle, ?_, fun p hne halloc => ?_, fun p q hp hq' => ?_, ⟨t, ?_, fun p => ?_⟩⟩
  · rw [hcur, hstate]
    exact h.current
  · rw [hstate] at halloc
    exact (hstride p).trans (h.wraps p hne halloc)
  · exact h.window p q ((hact p).mp hp) ((hact q).mp hq')
  · exact hq.congr hpool hnum (fun p _ => congrFun hnode p) (fun p _ => hstride p) fun _ _ => rfl
  · rw [hkeys, Queued, Queued, hact, hcur]

theorem Inv.modProc {f : StrideProc → StrideProc} (h : Inv s) (p : Nat) (hs : ∀ x, (f x).state = x.state)
    (hst : ∀ x, (f x).lab6Stride = x.lab6Stride) : Inv { s with kern := s.kern.modProc p f } :=
  h.keep rfl (fun _ => RunQueue.modProc_field StrideProc.state hs)
    (fun _ => RunQueue.modProc_field StrideProc.lab6Stride hst) rfl rfl rfl

/-- A process that is not on the queue stops being runnable. -/
theorem Inv.setState {st : ProcState} (h : Inv s) (hidle : p ≠ idleproc) (hout : ¬ Queued s.kern p)
    (hst : st ≠ .runnable) (hcur : p = s.kern.current → st ≠ .uninit) (halloc : (s.kern.rq.proc p).state ≠ .uninit) :
    Inv { s with kern := s.kern.modProc p fun x => { x with state := st } } := by
  obtain ⟨t, hq, hkeys⟩ := h.queue
  have hself : ((s.kern.rq.modProc p fun x => { x with state := st }).proc p).state = st := by
    rw [RunQueue.modProc_self]
  have hother : ∀ q ≠ p, ((s.kern.rq.modProc p fun x => { x with state := st }).proc q).state = (s.kern.rq.proc q).state := by
    intro q hne
    rw [RunQueue.modProc_other hne]
  have hstride : ∀ q, ((s.kern.rq.modProc p fun x => { x with state := st }).proc q).lab6Stride =
      (s.kern.rq.proc q).lab6Stride := fun q => RunQueue.modProc_field StrideProc.lab6Stride fun _ => rfl
  have hact : ∀ q, Active (s.kern.modProc p fun x => { x with state := st }) q ↔ Active s.kern q ∧ q ≠ p := by
    intro q
    by_cases hqp : q = p
    · subst hqp
      simp [Active, StrideKern.modProc, hst]
    · simp [Active, StrideKern.modProc, RunQueue.modProc_other hqp, hqp]
  refine ⟨(hother _ hidle.symm).trans h.idle, ?_, fun q hne hal => ?_, fun q r hq' hr => ?_, ⟨t, ?_, fun q => ?_⟩⟩
  · by_cases hc : s.kern.current = p
    · rw [show (s.kern.modProc p fun x => { x with state := st }).current = p from hc]
      exact fun he => hcur hc.symm (hself.symm.trans he)
    · exact fun he => h.current ((hother _ hc).symm.trans he)
  · refine (hstride q).trans (h.wraps q hne ?_)
    by_cases hqp : q = p
    · rw [hqp]
      exact halloc
    · exact fun he => hal ((hother q hqp).trans he)
  · exact h.window q r ((hact q).mp hq').1 ((hact r).mp hr).1
  · exact hq.congr rfl rfl (fun _ _ => rfl) (fun q _ => hstride q) fun _ _ => rfl
  · rw [hkeys]
    show Queued s.kern q ↔ Active (s.kern.modProc p fun x => { x with state := st }) q ∧ q ≠ s.kern.current
    rw [hact, Queued]
    refine ⟨fun hq' => ⟨⟨hq'.1, ?_⟩, hq'.2⟩, fun hq' => ⟨hq'.1.1, hq'.2⟩⟩
    rintro rfl
    exact hout hq'

/-- `wakeup_proc`, of a sleeper or of a new process: it comes in near the others. -/
theorem Inv.wakeup (h : Inv s) (hidle : p ≠ idleproc) (hw : Wraps s.kern.rq s.acc p)
    (hnear : (s.kern.rq.proc p).state ≠ .runnable →
      ∀ q, Active s.kern q → s.acc p ≤ s.acc q + bigStride ∧ s.acc q ≤ s.acc p + bigStride) :
    ∃ k, wakeupProc s.kern p = some k ∧ Inv { s with kern := k } := by
  obtain ⟨t, hq, hkeys⟩ := h.queue
  by_cases hrun : (s.kern.rq.proc p).state = .runnable
  · -- the warning only
    exact ⟨s.kern, by simp [wakeupProc, hrun], h⟩
  · have hstate : ∀ q, ((s.kern.rq.modProc p fun x => { x with state := .runnable }).proc q).state =
        if q = p then .runnable else (s.kern.rq.proc q).state := by
      intro q
      by_cases hqp : q = p
      · simp [hqp]
      · simp [hqp, RunQueue.modProc_other hqp]
    have hstride : ∀ q, ((s.kern.rq.modProc p fun x => { x with state := .runnable }).proc q).lab6Stride =
        (s.kern.rq.proc q).lab6Stride := fun q => RunQueue.modProc_field StrideProc.lab6Stride fun _ => rfl
    -- whatever else the call does to the queue, these processes are active afterwards
    have hact : ∀ k : StrideKern, SameProcs (s.kern.rq.modProc p fun x => { x with state := .runnable }) k.rq →
        ∀ q, Active k q ↔ q = p ∨ Active s.kern q := by
      intro k hsame q
      rw [Active, hsame.state, hstate, Active]
      by_cases hqp : q = p
      · simp [hqp, hidle]
      · simp [hqp]
    have hrest : ∀ k : StrideKern, SameProcs (s.kern.rq.modProc p fun x => { x with state := .runnable }) k.rq →
        k.current = s.kern.current → (∃ t, Queue k.rq s.acc t ∧ ∀ q, q ∈ keys t ↔ Queued k q) →
        Inv { s with kern := k } := by
      intro k hsame hcur hqueue
      refine ⟨?_, ?_, fun q hne hal => ?_, fun q r hq' hr => ?_, hqueue⟩
      · rw [hsame.state, hstate, if_neg hidle.symm]
        exact h.idle
      · have hc := h.current
        rw [hsame.state, hstate, hcur]
        split
        · decide
        · exact hc
      · refine (hsame.stride q).trans ((hstride q).trans ?_)
        by_cases hqp : q = p
        · rw [hqp]
          exact hw
        · rw [hsame.state, hstate, if_neg hqp] at hal
          exact h.wraps q hne hal
      · rcases (hact k hsame q).mp hq' with rfl | hq'
        · rcases (hact k hsame r).mp hr with rfl | hr
          · exact Nat.le_add_right _ _
          · exact (hnear hrun r hr).1
        · rcases (hact k hsame r).mp hr with rfl | hr
          · exact (hnear hrun q hq').2
          · exact h.window q r hq' hr
    have hout : p ∉ keys t := fun hp => hrun ((hkeys p).mp hp).1.1
    by_cases hcur : p = s.kern.current
    · -- it has not left the processor yet
      subst hcur
      let k := s.kern.modProc s.kern.current fun x => { x with state := .runnable }
      have hsame : SameProcs (s.kern.rq.modProc s.kern.current fun x => { x with state := .runnable }) k.rq := SameProcs.refl _
      refine ⟨k, by simp [wakeupProc, hrun, k, StrideKern.modProc], hrest k hsame rfl ⟨t, ?_, fun q => ?_⟩⟩
      · exact hq.congr rfl rfl (fun _ _ => rfl) (fun q _ => hstride q) fun _ _ => rfl
      · show _ ↔ Active k q ∧ q ≠ s.kern.current
        rw [hkeys, hact k hsame, Queued]
        by_cases hqp : q = s.kern.current
        · simp [hqp]
        · simp [hqp]
    · obtain ⟨k, t', hcall, hq', hkeys', hcur', hsame⟩ := wakeupProc_run hq hout hcur hidle hrun hw
        fun q hq' => hnear hrun q ((hkeys q).mp hq').1
      refine ⟨k, hcall, hrest k hsame hcur' ⟨t', hq', fun q => ?_⟩⟩
      rw [hkeys', Multiset.mem_cons, hkeys, Queued, Queued, hact k hsame, hcur']
      by_cases hqp : q = p
      · simp [hqp, hcur]
      · simp [hqp]

/-- `alloc_proc` in unused memory, with the stride 0. -/
theorem Inv.alloc (h : Inv s) (hidle : p ≠ idleproc) (hfree : (s.kern.rq.proc p).state = .uninit) :
    Inv { kern := allocProc s.kern p, acc := Function.update s.acc p 0 } ∧
      ∀ q, Active (allocProc s.kern p) q ↔ Active s.kern q := by
  obtain ⟨t, hq, hkeys⟩ := h.queue
  have hself : ((allocProc s.kern p).rq.proc p).state = .uninit := by
    simp [allocProc, RunQueue.modProc]
  have hother : ∀ q ≠ p, (allocProc s.kern p).rq.proc q = s.kern.rq.proc q := by
    intro q hne
    simp [allocProc, RunQueue.modProc, hne]
  have hact : ∀ q, Active (allocProc s.kern p) q ↔ Active s.kern q := by
    intro q
    by_cases hqp : q = p
    · simp [Active, hqp, hself, hfree]
    · rw [Active, Active, hother q hqp]
  have hne : ∀ q, Active s.kern q → q ≠ p := by
    rintro q ⟨hrun, -⟩ rfl
    rw [hfree] at hrun
    contradiction
  have hin : ∀ q ∈ keys t, q ≠ p := fun q hq' => hne q ((hkeys q).mp hq').1
  have hacc : ∀ q ≠ p, Function.update s.acc p 0 q = s.acc q := fun q hqp => Function.update_of_ne hqp ..
  refine ⟨⟨?_, ?_, fun q hq0 hal => ?_, fun q r hq' hr => ?_, ⟨t, ?_, fun q => ?_⟩⟩, hact⟩
  · rw [hother _ hidle.symm]
    exact h.idle
  · have hcur : s.kern.current ≠ p := fun he => h.current (he ▸ hfree)
    show ((allocProc s.kern p).rq.proc s.kern.current).state ≠ .uninit
    rw [hother _ hcur]
    exact h.current
  · have hqp : q ≠ p := by
      rintro rfl
      exact hal hself
    show ((allocProc s.kern p).rq.proc q).lab6Stride = BitVec.ofNat 32 (Function.update s.acc p 0 q)
    rw [hother q hqp] at hal ⊢
    rw [hacc q hqp]
    exact h.wraps q hq0 hal
  · have hq₀ := (hact q).mp hq'
    have hr₀ := (hact r).mp hr
    show Function.update s.acc p 0 q ≤ Function.update s.acc p 0 r + bigStride
    rw [hacc q (hne q hq₀), hacc r (hne r hr₀)]
    exact h.window q r hq₀ hr₀
  · refine hq.congr rfl rfl (fun q hq' => ?_) (fun q hq' => ?_) fun q hq' => hacc q (hin q hq')
    · simp [allocProc, skewHeapInit, SkewHeapMem.setParent, SkewHeapMem.setLeft, SkewHeapMem.setRight, hin q hq']
    · rw [hother q (hin q hq')]
  · rw [hkeys]
    show Queued s.kern q ↔ Active (allocProc s.kern p) q ∧ q ≠ s.kern.current
    rw [hact, Queued]

/-- `do_fork`. -/
theorem Inv.fork (h : Inv s) (hidle : p ≠ idleproc) (hfree : (s.kern.rq.proc p).state = .uninit)
    (hnear : ∀ q, Active s.kern q → s.acc q ≤ bigStride) :
    ∃ k, wakeupProc (allocProc s.kern p) p = some k ∧ Inv { kern := k, acc := Function.update s.acc p 0 } := by
  obtain ⟨hinv, hact⟩ := h.alloc hidle hfree
  refine hinv.wakeup hidle ?_ fun _ q hq => ?_
  · simp [Wraps, allocProc, RunQueue.modProc]
  · have hq₀ := (hact q).mp hq
    have hne : q ≠ p := by
      rintro rfl
      rw [hq₀.1] at hfree
      contradiction
    have hle := hnear q hq₀
    simp only [Function.update_self, Function.update_of_ne hne]
    omega

/-- `schedule`: a least active process runs next, and its stride is advanced. -/
theorem Inv.schedule (h : Inv s) : ∃ s', s.call .schedule = some s' ∧ Inv s' := by
  obtain ⟨k₁, t₁, hre, hq₁, hkeys₁, hsame₁, hcur₁⟩ := h.picking
  have hwin : Spread s.acc (keys t₁) bigStride :=
    fun p hp q hq' => h.window p q ((hkeys₁ p).mp hp) ((hkeys₁ q).mp hq')
  cases hpool : k₁.rq.lab6RunPool with
  | none =>
    -- nobody can run
    have hnone : ∀ p, ¬ Active s.kern p := by
      intro p hp
      have hkeys := hq₁.empty_iff.mp hpool
      have hmem := (hkeys₁ p).mpr hp
      rw [hkeys] at hmem
      simp at hmem
    have hpick : stridePickNext k₁.rq = (none, k₁.rq) := by
      rw [stridePickNext, hpool]
    refine ⟨{ kern := { rq := k₁.rq, current := idleproc }, acc := s.acc }, ?_, ⟨?_, ?_, fun p hne hal => ?_,
      fun p q hp hq' => ?_, ⟨t₁, hq₁, fun p => ?_⟩⟩⟩
    · simp [call, hre, Stride.schedule, hpick, accAfter]
    · exact (hsame₁.state _).trans h.idle
    · rw [hsame₁.state, h.idle]
      decide
    · rw [hsame₁.state] at hal
      exact (hsame₁.stride p).trans (h.wraps p hne hal)
    · exact absurd ⟨(hsame₁.state p).symm.trans hp.1, hp.2⟩ (hnone p)
    · rw [hkeys₁]
      refine ⟨fun hp => absurd hp (hnone p), fun hp => ?_⟩
      exact ⟨(hsame₁.state p).symm.trans hp.1.1, hp.1.2⟩
  | some p =>
    obtain ⟨rq₂, rq₃, t₃, hpick, hdeq, hq₃, hkeys₃, hw₃, hspread, hstate, hproc, hprio⟩ := hq₁.pick hpool
    have hpact : Active s.kern p := (hkeys₁ p).mp (hq₁.least hpool).1
    have hact : ∀ q, Active { rq := rq₃, current := p } q ↔ Active s.kern q := by
      intro q
      rw [Active, Active, hstate, hsame₁.state]
    refine ⟨{ kern := { rq := rq₃, current := p }, acc := picked k₁.rq s.acc p }, ?_, ⟨?_, ?_, fun q hne hal => ?_,
      fun q r hq' hr => ?_, ⟨t₃, hq₃, fun q => ?_⟩⟩⟩
    · simp [call, hre, Stride.schedule, hpick, hdeq, accAfter]
    · rw [hstate, hsame₁.state]
      exact h.idle
    · rw [hstate, hsame₁.state, hpact.1]
      decide
    · by_cases hqp : q = p
      · rw [hqp]
        exact hw₃
      · rw [hstate, hsame₁.state] at hal
        show (rq₃.proc q).lab6Stride = BitVec.ofNat 32 (picked k₁.rq s.acc p q)
        rw [hproc q hqp, hsame₁.stride, picked, Function.update_of_ne hqp]
        exact h.wraps q hne hal
    · exact hspread q ((hkeys₁ q).mpr ((hact q).mp hq')) r ((hkeys₁ r).mpr ((hact r).mp hr))
    · show q ∈ keys t₃ ↔ Active { rq := rq₃, current := p } q ∧ q ≠ p
      have hnd := hq₁.heap.nodup
      rw [← hkeys₃] at hnd
      have hout : p ∉ keys t₃ := (Multiset.nodup_cons.mp hnd).1
      rw [hact, ← hkeys₁, ← hkeys₃, Multiset.mem_cons]
      by_cases hqp : q = p
      · simp [hqp, hout]
      · simp [hqp]

/-- **One step** under the condition: it returns, and keeps the invariant. -/
theorem Inv.call (h : Inv s) {op : StrideOp} (hen : s.Enabled op) (hnear : s.Near op) :
    ∃ s', s.call op = some s' ∧ Inv s' := by
  cases op with
  | fork p =>
    obtain ⟨k, hcall, hinv⟩ := h.fork hen.1 hen.2 hnear
    exact ⟨_, by simp [StrideRun.call, hcall], hinv⟩
  | wakeup p =>
    by_cases hidle : p = idleproc
    · -- it is always runnable
      refine ⟨s, ?_, h⟩
      simp [StrideRun.call, wakeupProc, hidle, h.idle]
    · obtain ⟨k, hcall, hinv⟩ := h.wakeup hidle (h.wraps p hidle hen.1) hnear
      exact ⟨_, by simp [StrideRun.call, hcall], hinv⟩
  | sleep =>
    refine ⟨_, rfl, h.setState hen.2 (fun hq => hq.2 rfl) (by decide) (fun _ => by decide) ?_⟩
    rw [hen.1]
    decide
  | exit =>
    refine ⟨_, rfl, h.setState hen.2 (fun hq => hq.2 rfl) (by decide) (fun _ => by decide) ?_⟩
    rw [hen.1]
    decide
  | setPriority n =>
    refine ⟨_, rfl, h.modProc s.kern.current ?_ ?_⟩
    · intro x; rfl
    · intro x; rfl
  | tick =>
    refine ⟨_, rfl, ?_⟩
    unfold schedClassProcTick
    by_cases hidle : s.kern.current ≠ idleproc
    · rw [if_pos hidle]
      have hsame := strideProcTick_same s.kern.rq s.kern.current
      exact h.keep rfl hsame.state hsame.stride rfl rfl rfl
    · rw [if_neg hidle]
      exact h.modProc s.kern.current (fun _ => rfl) fun _ => rfl
  | schedule => exact h.schedule
  | reap p =>
    have hidle : p ≠ idleproc := by
      rintro rfl
      have hstate := hen.2
      rw [h.idle] at hstate
      contradiction
    refine ⟨_, rfl, h.setState hidle (fun hq => ?_) (by decide) (fun hc => absurd hc hen.1) ?_⟩
    · have hstate := hen.2
      rw [hq.1.1] at hstate
      contradiction
    · rw [hen.2]
      decide

theorem windowed_of_queue {rq : RunQueue} {on : Nat → Prop} (hq : Queue rq acc t) (hkeys : ∀ p, p ∈ keys t ↔ on p) :
    Windowed rq acc on where
  heap := ⟨t, hq.heap, hkeys, compares_of_spread hq.wraps hq.spread⟩
  wraps p hp := hq.wraps p ((hkeys p).mpr hp)
  window p q hp hq' := hq.spread p ((hkeys p).mpr hp) q ((hkeys q).mpr hq')
  least p hp := by
    rw [stridePickNext_fst] at hp
    obtain ⟨hmem, hmin⟩ := hq.least hp
    exact ⟨(hkeys p).mp hmem, fun q hq' => hmin q ((hkeys q).mpr hq')⟩

theorem Inv.sound (h : Inv s) : s.Sound := by
  obtain ⟨t, hq, hkeys⟩ := h.queue
  obtain ⟨k₁, t₁, hre, hq₁, hkeys₁, -⟩ := h.picking
  refine ⟨windowed_of_queue hq hkeys, ⟨k₁, hre, windowed_of_queue hq₁ hkeys₁⟩, fun op hen hnear => ?_⟩
  obtain ⟨s', hcall, -⟩ := h.call hen hnear
  exact ⟨s', by rw [step, if_pos hen, hcall]⟩

end StrideRun

/-- The runs in which nobody enters the queue from far away. -/
abbrev StrideReaches : StrideRun → Prop :=
  Reaches StrideRun.Init (fun s op s' => s.step op = some s') StrideRun.Near

/-- **In every such run** any two strides on the queue are at most `BIG_STRIDE` apart, the comparison is a total preorder on
    it, and a process of least stride is picked. -/
theorem stride_window_reached {s : StrideRun} (h : StrideReaches s) : s.Sound := by
  have hinv : s.Inv := by
    refine h.invariant (fun _ h0 => h0.inv) fun s op s' hi hnear hs => ?_
    by_cases hen : s.Enabled op
    · obtain ⟨s₁, hcall, hi₁⟩ := hi.call hen hnear
      rw [StrideRun.step, if_pos hen, hcall] at hs
      obtain rfl := Option.some.inj hs
      exact hi₁
    · simp [StrideRun.step, hen] at hs
  exact hinv.sound

/-- The kernel just after `sched_init`. -/
def bootRun : StrideRun where
  kern := { rq := strideInit
              { proc := fun p => { state := if p = idleproc then .runnable else .uninit, needResched := false, onRq := false,
                                   timeSlice := 0, lab6Stride := 0, lab6Priority := 1 }
                node := fun _ => { parent := none, left := none, right := none }
                lab6RunPool := none
                procNum := 0
                maxTimeSlice := 5 }
            current := idleproc }
  acc := fun _ => 0

theorem bootRun_init : bootRun.Init where
  queue := ⟨_, rfl⟩
  idle := rfl
  others _ hp := if_neg hp

/-- Two processes are forked, and the second one is picked. -/
theorem stride_window_reached_two : ∃ s : StrideRun, s.kern.current = 2 ∧ s.Sound := by
  let s₁ := (bootRun.step (.fork 1)).get (by decide +kernel)
  let s₂ := (s₁.step (.fork 2)).get (by decide +kernel)
  let s₃ := (s₂.step .schedule).get (by decide +kernel)
  have hfork : ∀ q, Function.update bootRun.acc 1 0 q ≤ bigStride := by
    intro q
    by_cases hq : q = 1
    · simp [hq]
    · simp [bootRun, hq]
  have h₀ : StrideReaches bootRun := .start bootRun_init
  have h₁ : StrideReaches s₁ := h₀.next (i := .fork 1) (fun _ _ => Nat.zero_le _) (Option.some_get _).symm
  have h₂ : StrideReaches s₂ := h₁.next (i := .fork 2) (fun q _ => hfork q) (Option.some_get _).symm
  have h₃ : StrideReaches s₃ := h₂.next (i := .schedule) trivial (Option.some_get _).symm
  exact ⟨s₃, by decide +kernel, stride_window_reached h₃⟩

/-- Process 1 runs alone for two rounds, and forks process 2, which starts two `BIG_STRIDE` behind: the wrapped comparison
    takes process 1 for the lesser one, and picks it again. -/
theorem stride_window_forked : ∃ s : StrideRun,
    Reaches StrideRun.Init (fun s op s' => s.step op = some s') (fun _ _ => True) s ∧ ¬ s.Sound ∧
    ∃ k, requeueCurrent s.kern = some k ∧ (stridePickNext k.rq).1 = some 1 ∧ Active s.kern 2 ∧ s.acc 2 + bigStride < s.acc 1 := by
  let s := ([.fork 1, .schedule, .schedule, .fork 2].foldlM StrideRun.step bootRun).get (by decide +kernel)
  let k := (requeueCurrent s.kern).get (by decide +kernel)
  have hs : Reaches StrideRun.Init (fun s op s' => s.step op = some s') (fun _ _ => True) s :=
    Reaches.foldlM (Option.some_get _).symm (.start bootRun_init)
  have hk : requeueCurrent s.kern = some k := (Option.some_get _).symm
  have hpick : (stridePickNext k.rq).1 = some 1 := by decide +kernel
  have hact : Active s.kern 2 := by decide +kernel
  have hfar : s.acc 2 + bigStride < s.acc 1 := by decide +kernel
  refine ⟨s, hs, fun hsound => ?_, k, hk, hpick, hact, hfar⟩
  obtain ⟨k', hk', hwin⟩ := hsound.picking
  obtain rfl : k = k' := Option.some.inj (hk.symm.trans hk')
  have hle := (hwin.least 1 hpick).2 2 hact
  omega

end Ucore.Stride
