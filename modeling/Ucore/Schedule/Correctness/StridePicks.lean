import Ucore.Schedule.Correctness.StrideRuns
import Ucore.Schedule.StrideLab8

/-!
# `Schedule.Correctness.StridePicks` — the divisor of `stride_pick_next` in lab8

Over any run of lab8's kernel under this class, the stride of a picked process is advanced by `BIG_STRIDE` over its priority
exactly if the process has called `lab6_set_priority` since it was allocated. Only a process that has been picked can do so,
so the first pick of a run divides by zero.
-/

namespace Ucore.Stride.Lab8

open SkewTree

/-- A call of `stride_pick_next` that has picked `proc`. -/
structure Pick where
  proc : Nat
  priority : BitVec 32     -- the divisor
  before : BitVec 32       -- `lab6_stride`
  after : BitVec 32
  hasSet : Bool            -- `proc` has called `lab6_set_priority` since `alloc_proc`
deriving DecidableEq

/-- No division by zero, and the right stride. -/
def Pick.Lawful (e : Pick) : Prop :=
  1 ≤ e.priority.toNat ∧ e.after = e.before + BitVec.ofNat 32 (bigStride / e.priority.toNat)

/-- The kernel, with what a run records beside it. -/
structure PickRun where
  kern : StrideKern
  hasSet : Nat → Bool
  picks : List Pick

inductive PickOp where
  | fork (proc : Nat)
  | wakeup (proc : Nat)
  | sleep
  | exit
  | setPriority (priority : BitVec 32)
  | tick
  | schedule (byZero : BitVec 32)
  | reap (proc : Nat)

namespace PickRun

/-- After `sched_init`: only `idleproc` exists. -/
structure Init (s : PickRun) : Prop where
  queue : ∃ rq, s.kern = { rq := strideInit rq, current := idleproc }
  idle : (s.kern.rq.proc idleproc).state = .runnable
  others : ∀ p ≠ idleproc, (s.kern.rq.proc p).state = .uninit
  hasSet : ∀ p, s.hasSet p = false
  picks : s.picks = []

/-- What holds of the caller and of the process it names. -/
def Enabled (s : PickRun) : PickOp → Prop
  | .fork p        => p ≠ idleproc ∧ (s.kern.rq.proc p).state = .uninit
  | .wakeup p      => (s.kern.rq.proc p).state ≠ .uninit ∧ (s.kern.rq.proc p).state ≠ .zombie
  | .sleep         => Active s.kern s.kern.current
  | .exit          => Active s.kern s.kern.current
  | .setPriority _ => Active s.kern s.kern.current
  | .tick          => True
  | .schedule _    => True
  | .reap p        => p ≠ s.kern.current ∧ (s.kern.rq.proc p).state = .zombie

instance (s : PickRun) (op : PickOp) : Decidable (s.Enabled op) := by
  cases op <;> simp only [Enabled] <;> infer_instance

/-- The calls of `stride_pick_next` when `schedule` has come as far as the state `k`. -/
def picksAt (s : PickRun) (byZero : BitVec 32) (k : StrideKern) : List Pick :=
  match stridePickNext byZero k.rq with
  | (none, _)    => s.picks
  | (some p, rq) =>
    { proc := p, priority := (k.rq.proc p).lab6Priority, before := (k.rq.proc p).lab6Stride
      after := (rq.proc p).lab6Stride, hasSet := s.hasSet p } :: s.picks

def call (s : PickRun) : PickOp → Option PickRun
  | .fork p          => do
    let k ← wakeupProc (allocProc s.kern p) p
    pure { s with kern := k, hasSet := Function.update s.hasSet p false }
  | .wakeup p        => do
    let k ← wakeupProc s.kern p
    pure { s with kern := k }
  | .sleep           => pure { s with kern := s.kern.modProc s.kern.current fun p => { p with state := .sleeping } }
  | .exit            => pure { s with kern := s.kern.modProc s.kern.current fun p => { p with state := .zombie } }
  | .setPriority n   => pure { s with
      kern := lab6SetPriority s.kern n, hasSet := Function.update s.hasSet s.kern.current true }
  | .tick            => pure { s with kern := schedClassProcTick s.kern s.kern.current }
  | .schedule byZero => do
    let k ← requeueCurrent s.kern
    let k' ← Lab8.schedule byZero s.kern
    pure { s with kern := k', picks := s.picksAt byZero k }
  | .reap p          => pure { s with kern := s.kern.modProc p fun p => { p with state := .uninit } }

def step (s : PickRun) (op : PickOp) : Option PickRun := if s.Enabled op then s.call op else none

end PickRun

variable {rq rq' : RunQueue} {k k' : StrideKern} {t : BinaryTree Nat} {p : Nat} {byZero : BitVec 32}

/-- A field that the change leaves alone. -/
theorem modProc_field {β : Type} {f : StrideProc → StrideProc} (g : StrideProc → β) (h : ∀ x, g (f x) = g x) (q : Nat) :
    g ((k.modProc p f).rq.proc q) = g (k.rq.proc q) := RunQueue.modProc_field g h

theorem strideProcTick_onRq (rq : RunQueue) (p q : Nat) : ((strideProcTick rq p).proc q).onRq = (rq.proc q).onRq := by
  by_cases hq : q = p
  · simp [strideProcTick, RunQueue.modProc, hq]
  · simp [strideProcTick, RunQueue.modProc, hq]

/-! ## The queue -/

/-- The run pool is the skew heap `t`, in whatever order. -/
structure Members (rq : RunQueue) (t : BinaryTree Nat) : Prop where
  heap : HeapAt rq.node rq.lab6RunPool t
  count : rq.procNum = t.numNodes
  onRq : ∀ p ∈ keys t, (rq.proc p).onRq = true

namespace Members

theorem congr (h : Members rq t) (hpool : rq'.lab6RunPool = rq.lab6RunPool) (hnum : rq'.procNum = rq.procNum)
    (hnode : ∀ p ∈ keys t, rq'.node p = rq.node p) (hon : ∀ p ∈ keys t, (rq'.proc p).onRq = (rq.proc p).onRq) :
    Members rq' t where
  heap := by
    rw [hpool]
    exact h.heap.congr hnode
  count := hnum.trans h.count
  onRq p hp := (hon p hp).trans (h.onRq p hp)

theorem root_mem (h : Members rq t) (hp : rq.lab6RunPool = some p) : p ∈ keys t :=
  top_mem (h.heap.root_eq.symm.trans hp)

theorem empty (h : Members rq t) (hp : rq.lab6RunPool = none) : keys t = 0 := by
  have htop : top t = none := h.heap.root_eq.symm.trans hp
  cases t with
  | nil => rfl
  | node a l r => simp at htop

/-- `stride_enqueue` -/
theorem enqueue (h : Members rq t) (hp : p ∉ keys t) :
    ∃ rq' t', strideEnqueue rq p = some rq' ∧ Members rq' t' ∧ keys t' = p ::ₘ keys t ∧ SameProcs rq rq' := by
  obtain ⟨m', hrun, hheap⟩ := skewHeapInsert_run (procStrideCompF rq) (rq.procNum + 1) h.heap hp (by rw [h.count]; omega)
  have hkeys : keys (merge (SkewLt (procStrideCompF rq)) t (.node p .nil .nil)) = p ::ₘ keys t := by
    rw [keys_merge, keys_node, keys_nil, add_zero, add_comm, Multiset.cons_add, zero_add]
  obtain ⟨rq', hcall, hnode, hpool, hnum, hsame⟩ := strideEnqueue_run hrun
  have hon : (rq'.proc p).onRq = true ∧ ∀ q ≠ p, rq'.proc q = rq.proc q := by
    rw [strideEnqueue, hrun] at hcall
    obtain rfl := Option.some.inj hcall
    constructor
    · simp [RunQueue.modProc]
    · intro q hq
      simp [RunQueue.modProc, hq]
  refine ⟨rq', _, hcall, ⟨?_, ?_, fun q hq => ?_⟩, hkeys, hsame⟩
  · rw [hnode, hpool]
    exact hheap
  · rw [hnum, ← card_keys, hkeys, Multiset.card_cons, card_keys, ← h.count]
  · by_cases hqp : q = p
    · rw [hqp]
      exact hon.1
    · rw [hkeys, Multiset.mem_cons] at hq
      rw [hon.2 q hqp]
      exact h.onRq q (hq.resolve_left hqp)

/-- `stride_dequeue`, whose assertion holds. -/
theorem dequeue (h : Members rq t) (hp : p ∈ keys t) :
    ∃ rq' t', strideDequeue rq p = some rq' ∧ Members rq' t' ∧ p ::ₘ keys t' = keys t ∧ rq'.proc = rq.proc := by
  have hpos : 0 < rq.procNum := by
    rw [h.count, ← card_keys]
    exact Multiset.card_pos_iff_exists_mem.mpr ⟨p, hp⟩
  obtain ⟨m', hrun, hheap⟩ := skewHeapRemove_run (procStrideCompF rq) rq.procNum h.heap hp (Nat.le_of_eq h.count.symm)
  have hkeys : p ::ₘ keys (remove (SkewLt (procStrideCompF rq)) p t) = keys t := keys_remove _ h.heap.nodup hp
  refine ⟨{ rq with node := m', lab6RunPool := top (remove (SkewLt (procStrideCompF rq)) p t), procNum := rq.procNum - 1 },
    _, ?_, ⟨hheap, ?_, fun q hq => ?_⟩, hkeys, rfl⟩
  · rw [strideDequeue, if_pos ⟨h.onRq p hp, hpos⟩, Stride.strideDequeue, hrun]
    rfl
  · have hcard := congrArg Multiset.card hkeys
    rw [Multiset.card_cons, card_keys, card_keys] at hcard
    show rq.procNum - 1 = _
    rw [h.count]
    omega
  · refine h.onRq q ?_
    rw [← hkeys]
    exact Multiset.mem_cons_of_mem hq

end Members

/-- On the queue are the processes that can run, other than `current`. -/
def HasQueue (k : StrideKern) : Prop := ∃ t, Members k.rq t ∧ ∀ p, p ∈ keys t ↔ Queued k p

namespace HasQueue

theorem keep (h : HasQueue k) (hcur : k'.current = k.current) (hstate : ∀ p, (k'.rq.proc p).state = (k.rq.proc p).state)
    (hon : ∀ p, (k'.rq.proc p).onRq = (k.rq.proc p).onRq) (hnode : k'.rq.node = k.rq.node)
    (hpool : k'.rq.lab6RunPool = k.rq.lab6RunPool) (hnum : k'.rq.procNum = k.rq.procNum) : HasQueue k' := by
  obtain ⟨t, hm, hkeys⟩ := h
  refine ⟨t, hm.congr hpool hnum (fun p _ => congrFun hnode p) fun p _ => hon p, fun p => ?_⟩
  rw [hkeys, Queued, Queued, Active, Active, hstate, hcur]

/-- A process that is not on the queue stops being runnable. -/
theorem setState {st : ProcState} (h : HasQueue k) (hout : ¬ Queued k p) (hst : st ≠ .runnable) :
    HasQueue (k.modProc p fun x => { x with state := st }) := by
  obtain ⟨t, hm, hkeys⟩ := h
  have hon : ∀ q, ((k.rq.modProc p fun x => { x with state := st }).proc q).onRq = (k.rq.proc q).onRq :=
    fun _ => RunQueue.modProc_field StrideProc.onRq fun _ => rfl
  refine ⟨t, hm.congr rfl rfl (fun _ _ => rfl) fun q _ => hon q, fun q => ?_⟩
  rw [hkeys]
  by_cases hq : q = p
  · subst hq
    refine iff_of_false hout ?_
    simp [Queued, Active, StrideKern.modProc, hst]
  · simp [Queued, Active, StrideKern.modProc, RunQueue.modProc_other hq]

/-- `alloc_proc` in unused memory. -/
theorem alloc (h : HasQueue k) (hfree : (k.rq.proc p).state = .uninit) : HasQueue (allocProc k p) := by
  obtain ⟨t, hm, hkeys⟩ := h
  have hout : ¬ Queued k p := by
    rintro ⟨⟨hrun, -⟩, -⟩
    rw [hfree] at hrun
    contradiction
  have hne : ∀ q ∈ keys t, q ≠ p := by
    rintro q hq rfl
    exact hout ((hkeys q).mp hq)
  refine ⟨t, hm.congr rfl rfl (fun q hq => ?_) (fun q hq => ?_), fun q => ?_⟩
  · simp [allocProc, skewHeapInit, SkewHeapMem.setParent, SkewHeapMem.setLeft, SkewHeapMem.setRight, hne q hq]
  · simp [allocProc, RunQueue.modProc, hne q hq]
  · rw [hkeys]
    by_cases hq : q = p
    · subst hq
      refine iff_of_false hout ?_
      simp [Queued, Active, allocProc, RunQueue.modProc]
    · simp [Queued, Active, allocProc, RunQueue.modProc, hq]

/-- `wakeup_proc` -/
theorem wakeup (h : HasQueue k) (hidle : p ≠ idleproc) :
    ∃ k', wakeupProc k p = some k' ∧ HasQueue k' ∧ k'.current = k.current ∧
      SameProcs (k.rq.modProc p fun x => { x with state := .runnable }) k'.rq := by
  obtain ⟨t, hm, hkeys⟩ := h
  by_cases hrun : (k.rq.proc p).state = .runnable
  · -- the warning only
    have hsame : k.rq.modProc p (fun x => { x with state := .runnable }) = k.rq := by
      rw [RunQueue.modProc, ← hrun, Function.update_eq_self]
    rw [hsame]
    exact ⟨k, by simp [wakeupProc, hrun], ⟨t, hm, hkeys⟩, rfl, SameProcs.refl _⟩
  · have hout : p ∉ keys t := fun hp => hrun ((hkeys p).mp hp).1.1
    have hm₁ : Members (k.rq.modProc p fun x => { x with state := .runnable }) t :=
      hm.congr rfl rfl (fun _ _ => rfl) fun q _ => RunQueue.modProc_field StrideProc.onRq fun _ => rfl
    have hact : ∀ q, ((k.rq.modProc p fun x => { x with state := .runnable }).proc q).state = .runnable ↔
        q = p ∨ (k.rq.proc q).state = .runnable := by
      intro q
      by_cases hq : q = p
      · simp [hq]
      · simp [hq, RunQueue.modProc_other hq]
    by_cases hcur : p = k.current
    · -- it has not left the processor yet
      subst hcur
      refine ⟨k.modProc k.current fun x => { x with state := .runnable }, by simp [wakeupProc, hrun, StrideKern.modProc],
        ⟨t, hm₁, fun q => ?_⟩, rfl, SameProcs.refl _⟩
      rw [hkeys]
      simp only [Queued, Active, StrideKern.modProc, hact]
      by_cases hq : q = k.current
      · simp [hq]
      · simp [hq]
    · obtain ⟨rq', t', hcall, hm', hkeys', hsame⟩ := hm₁.enqueue hout
      refine ⟨{ k with rq := rq' }, ?_, ⟨t', hm', fun q => ?_⟩, rfl, hsame⟩
      · simp [wakeupProc, hrun, hcur, schedClassEnqueue, hidle, StrideKern.modProc, hcall]
      · rw [hkeys', Multiset.mem_cons, hkeys]
        simp only [Queued, Active, hsame.state, hact]
        by_cases hq : q = p
        · simp [hq, hcur, hidle]
        · simp [hq]

/-- The first part of `schedule`: all the active processes are on the queue then. -/
theorem requeue (h : HasQueue k) :
    ∃ k₁ t₁, requeueCurrent k = some k₁ ∧ Members k₁.rq t₁ ∧ (∀ p, p ∈ keys t₁ ↔ Active k p) ∧ SameProcs k.rq k₁.rq := by
  obtain ⟨t, hm, hkeys⟩ := h
  have hsame : SameProcs k.rq (k.rq.modProc k.current fun x => { x with needResched := false }) := by
    apply SameProcs.modProc
    all_goals intro x; rfl
  have hm₁ : Members (k.rq.modProc k.current fun x => { x with needResched := false }) t :=
    hm.congr rfl rfl (fun _ _ => rfl) fun q _ => RunQueue.modProc_field StrideProc.onRq fun _ => rfl
  by_cases hact : Active k k.current
  · have hout : k.current ∉ keys t := fun h => ((hkeys _).mp h).2 rfl
    obtain ⟨rq', t', hcall, hm', hkeys', hsame'⟩ := hm₁.enqueue hout
    refine ⟨{ k with rq := rq' }, t', ?_, hm', fun p => ?_, hsame.trans hsame'⟩
    · simp [requeueCurrent, StrideKern.modProc, hact.1, schedClassEnqueue, hact.2, hcall]
    · rw [hkeys', Multiset.mem_cons, hkeys]
      by_cases hp : p = k.current
      · simp [hp, hact]
      · simp [hp, Queued]
  · refine ⟨{ k with rq := k.rq.modProc k.current fun x => { x with needResched := false } }, t, ?_, hm₁, fun p => ?_, hsame⟩
    · by_cases hrun : (k.rq.proc k.current).state = .runnable
      · have hidle : k.current = idleproc := by
          by_contra hne
          exact hact ⟨hrun, hne⟩
        simp [requeueCurrent, StrideKern.modProc, schedClassEnqueue, hidle]
      · simp [requeueCurrent, StrideKern.modProc, hrun]
    · rw [hkeys]
      refine ⟨fun h => h.1, fun h => ⟨h, ?_⟩⟩
      rintro rfl
      exact hact h

end HasQueue

/-! ## The pick -/

theorem stridePickNext_some (byZero : BitVec 32) (hp : rq.lab6RunPool = some p) : stridePickNext byZero rq =
    (some p, rq.modProc p fun p => { p with lab6Stride := p.lab6Stride + pass byZero p }) := by
  rw [stridePickNext, hp]

theorem stridePickNext_none (byZero : BitVec 32) (hp : rq.lab6RunPool = none) : stridePickNext byZero rq = (none, rq) := by
  rw [stridePickNext, hp]

/-- The picked process leaves the queue with its new stride. -/
theorem Members.pickRoot (h : Members rq t) (byZero : BitVec 32) (hp : rq.lab6RunPool = some p) :
    ∃ rq', strideDequeue (rq.modProc p fun p => { p with lab6Stride := p.lab6Stride + pass byZero p }) p = some rq' ∧
      (∃ t', Members rq' t' ∧ ∀ q, q ∈ keys t' ↔ q ∈ keys t ∧ q ≠ p) ∧ (∀ q, (rq'.proc q).state = (rq.proc q).state) ∧
      ∀ q, (rq'.proc q).lab6Priority = (rq.proc q).lab6Priority := by
  have hm : Members (rq.modProc p fun p => { p with lab6Stride := p.lab6Stride + pass byZero p }) t :=
    h.congr rfl rfl (fun _ _ => rfl) fun q _ => RunQueue.modProc_field StrideProc.onRq fun _ => rfl
  obtain ⟨rq', t', hdeq, hm', hkeys, hproc⟩ := hm.dequeue (h.root_mem hp)
  have hnd := h.heap.nodup
  rw [← hkeys] at hnd
  have hout : p ∉ keys t' := (Multiset.nodup_cons.mp hnd).1
  refine ⟨rq', hdeq, ⟨t', hm', fun q => ?_⟩, fun q => ?_, fun q => ?_⟩
  · rw [← hkeys, Multiset.mem_cons]
    by_cases hqp : q = p
    · simp [hqp, hout]
    · simp [hqp]
  · rw [hproc]
    exact RunQueue.modProc_field StrideProc.state fun _ => rfl
  · rw [hproc]
    exact RunQueue.modProc_field StrideProc.lab6Priority fun _ => rfl

/-- The division rounds like that of the numbers. -/
theorem pass_eq {x : StrideProc} (byZero : BitVec 32) (hx : x.lab6Priority ≠ 0) :
    pass byZero x = BitVec.ofNat 32 (bigStride / x.lab6Priority.toNat) := by
  rw [pass, if_neg hx]
  apply BitVec.eq_of_toNat_eq
  have hlt : bigStride / x.lab6Priority.toNat < 2 ^ 32 := Nat.lt_of_le_of_lt (Nat.div_le_self _ _) (by decide)
  rw [BitVec.toNat_udiv, BitVec.toNat_ofNat, BitVec.toNat_ofNat, Nat.mod_eq_of_lt hlt]
  congr 1

/-- **One pick** obeys the law exactly if it does not divide by zero. -/
theorem lawful_iff (x : StrideProc) (byZero : BitVec 32) (p : Nat) (set : Bool) :
    ({ proc := p, priority := x.lab6Priority, before := x.lab6Stride, after := x.lab6Stride + pass byZero x
       hasSet := set } : Pick).Lawful ↔ x.lab6Priority ≠ 0 := by
  constructor
  · rintro ⟨hpos, -⟩ hz
    have hpos' : 1 ≤ x.lab6Priority.toNat := hpos
    rw [hz] at hpos'
    exact absurd hpos' (by decide)
  · intro hx
    refine ⟨?_, ?_⟩
    · show 1 ≤ x.lab6Priority.toNat
      by_contra hz
      exact hx (BitVec.eq_of_toNat_eq (by simpa using hz))
    · show x.lab6Stride + pass byZero x = _
      rw [pass_eq byZero hx]

namespace PickRun

variable {s s' : PickRun}

/-! ## The invariant -/

/-- **The invariant**: the processes with a priority are those that have set it. Before the first pick nobody has. -/
structure Inv (s : PickRun) : Prop where
  idle : (s.kern.rq.proc idleproc).state = .runnable
  current : (s.kern.rq.proc s.kern.current).state ≠ .uninit
  priority : ∀ p ≠ idleproc, (s.kern.rq.proc p).state ≠ .uninit → ((s.kern.rq.proc p).lab6Priority ≠ 0 ↔ s.hasSet p = true)
  lawful : ∀ e ∈ s.picks, e.Lawful ↔ e.hasSet = true
  unset : s.picks = [] → s.kern.current = idleproc ∧ ∀ p, s.hasSet p = false
  first : s.picks ≠ [] → ∃ e ∈ s.picks, ¬ e.Lawful
  queue : HasQueue s.kern

theorem Init.inv (h : s.Init) : s.Inv := by
  obtain ⟨rq, hrq⟩ := h.queue
  have hnone : ∀ p, ¬ Active s.kern p := by
    rintro p ⟨hrun, hne⟩
    rw [h.others p hne] at hrun
    contradiction
  have hcur : s.kern.current = idleproc := by rw [hrq]
  refine ⟨h.idle, ?_, fun p hne hal => absurd (h.others p hne) hal, ?_, fun _ => ⟨hcur, h.hasSet⟩,
    fun hne => absurd h.picks hne, ⟨.nil, ⟨?_, ?_, ?_⟩, fun p => ?_⟩⟩
  · rw [hcur, h.idle]
    decide
  · rw [h.picks]
    exact fun e he => absurd he List.not_mem_nil
  · rw [hrq]
    exact HeapAt.empty _
  · rw [hrq]
    rfl
  · simp
  · simp [Queued, hnone]

/-- A step that changes no priority, and makes no process out of unused memory. -/
theorem Inv.keep (h : s.Inv) (hcur : k'.current = s.kern.current ∨ k'.current = idleproc)
    (hidle : (k'.rq.proc idleproc).state = .runnable) (hcurrent : (k'.rq.proc s.kern.current).state ≠ .uninit)
    (hstate : ∀ p, (k'.rq.proc p).state ≠ .uninit → (s.kern.rq.proc p).state ≠ .uninit)
    (hprio : ∀ p, (k'.rq.proc p).lab6Priority = (s.kern.rq.proc p).lab6Priority) (hq : HasQueue k') :
    Inv { s with kern := k' } where
  idle := hidle
  current := by
    show (k'.rq.proc k'.current).state ≠ .uninit
    obtain heq | heq := hcur
    · rw [heq]
      exact hcurrent
    · rw [heq, hidle]
      decide
  priority p hne hal := by
    show (k'.rq.proc p).lab6Priority ≠ 0 ↔ _
    rw [hprio]
    exact h.priority p hne (hstate p hal)
  lawful := h.lawful
  unset hnil := ⟨hcur.elim (fun heq => heq.trans (h.unset hnil).1) fun heq => heq, (h.unset hnil).2⟩
  first := h.first
  queue := hq

/-- A process that is not on the queue stops being runnable. -/
theorem Inv.setState {st : ProcState} (h : s.Inv) (hidle : p ≠ idleproc) (hout : ¬ Queued s.kern p) (hst : st ≠ .runnable)
    (hcur : p = s.kern.current → st ≠ .uninit) (hal : (s.kern.rq.proc p).state ≠ .uninit) :
    Inv { s with kern := s.kern.modProc p fun x => { x with state := st } } := by
  have hother : ∀ q ≠ p, ((s.kern.modProc p fun x => { x with state := st }).rq.proc q).state = (s.kern.rq.proc q).state := by
    intro q hne
    simp [StrideKern.modProc, RunQueue.modProc_other hne]
  refine h.keep (.inl rfl) ((hother _ hidle.symm).trans h.idle) ?_ (fun q hq => ?_)
    (modProc_field StrideProc.lab6Priority fun _ => rfl) (h.queue.setState hout hst)
  · by_cases hc : s.kern.current = p
    · simp [StrideKern.modProc, hc, hcur hc.symm]
    · rw [hother _ hc]
      exact h.current
  · by_cases hqp : q = p
    · rw [hqp]
      exact hal
    · rwa [hother q hqp] at hq

/-- `wakeup_proc`, of a sleeper or of a new process. -/
theorem Inv.wakeup (h : s.Inv) (hidle : p ≠ idleproc) (hal : (s.kern.rq.proc p).state ≠ .uninit) :
    ∃ k, wakeupProc s.kern p = some k ∧ Inv { s with kern := k } := by
  obtain ⟨k, hcall, hq, hcur, hsame⟩ := h.queue.wakeup hidle
  have hother : ∀ q ≠ p, (k.rq.proc q).state = (s.kern.rq.proc q).state := by
    intro q hne
    rw [hsame.state, RunQueue.modProc_other hne]
  have hself : (k.rq.proc p).state = .runnable := by
    rw [hsame.state, RunQueue.modProc_self]
  refine ⟨k, hcall, h.keep (.inl hcur) ((hother _ hidle.symm).trans h.idle) ?_ (fun q hne => ?_) (fun q => ?_) hq⟩
  · by_cases hc : s.kern.current = p
    · rw [hc, hself]
      decide
    · rw [hother _ hc]
      exact h.current
  · by_cases hqp : q = p
    · rw [hqp]
      exact hal
    · rwa [hother q hqp] at hne
  · rw [hsame.priority]
    exact RunQueue.modProc_field StrideProc.lab6Priority fun _ => rfl

/-- `do_fork`: the new process has the priority 0, and has not set it. -/
theorem Inv.fork (h : s.Inv) (hidle : p ≠ idleproc) (hfree : (s.kern.rq.proc p).state = .uninit) :
    ∃ k, wakeupProc (allocProc s.kern p) p = some k ∧ Inv { s with kern := k, hasSet := Function.update s.hasSet p false } := by
  obtain ⟨k, hcall, hq, hcur, hsame⟩ := (h.queue.alloc hfree).wakeup hidle
  have hother : ∀ q ≠ p, (k.rq.proc q).state = (s.kern.rq.proc q).state ∧
      (k.rq.proc q).lab6Priority = (s.kern.rq.proc q).lab6Priority := by
    intro q hne
    have halloc : (allocProc s.kern p).rq.proc q = s.kern.rq.proc q := by
      simp [allocProc, RunQueue.modProc, hne]
    rw [hsame.state, hsame.priority, RunQueue.modProc_other hne, halloc]
    exact ⟨rfl, rfl⟩
  have hself : (k.rq.proc p).lab6Priority = 0 := by
    rw [hsame.priority, RunQueue.modProc_self]
    simp [allocProc, RunQueue.modProc]
  have hne : s.kern.current ≠ p := fun heq => h.current (heq ▸ hfree)
  have hcur' : k.current = s.kern.current := hcur
  refine ⟨k, hcall, ⟨(hother _ hidle.symm).1.trans h.idle, ?_, fun q hq0 hal => ?_, h.lawful, fun hnil => ⟨?_, fun q => ?_⟩,
    h.first, hq⟩⟩
  · show (k.rq.proc k.current).state ≠ .uninit
    rw [hcur', (hother _ hne).1]
    exact h.current
  · by_cases hqp : q = p
    · subst hqp
      simp [hself]
    · have hal' : (k.rq.proc q).state ≠ .uninit := hal
      rw [(hother q hqp).1] at hal'
      show (k.rq.proc q).lab6Priority ≠ 0 ↔ Function.update s.hasSet p false q = true
      rw [(hother q hqp).2, Function.update_of_ne hqp]
      exact h.priority q hq0 hal'
  · exact hcur'.trans (h.unset hnil).1
  · by_cases hqp : q = p
    · simp [hqp]
    · exact (Function.update_of_ne hqp ..).trans ((h.unset hnil).2 q)

/-- `lab6_set_priority` -/
theorem Inv.setPriority (h : s.Inv) (hcur : s.kern.current ≠ idleproc) (n : BitVec 32) :
    Inv { s with kern := lab6SetPriority s.kern n, hasSet := Function.update s.hasSet s.kern.current true } := by
  have hstate : ∀ q, ((lab6SetPriority s.kern n).rq.proc q).state = (s.kern.rq.proc q).state := by
    unfold lab6SetPriority
    exact modProc_field StrideProc.state fun _ => rfl
  have hon : ∀ q, ((lab6SetPriority s.kern n).rq.proc q).onRq = (s.kern.rq.proc q).onRq := by
    unfold lab6SetPriority
    exact modProc_field StrideProc.onRq fun _ => rfl
  refine ⟨(hstate _).trans h.idle, ?_, fun q hq0 hal => ?_, h.lawful, fun hnil => absurd (h.unset hnil).1 hcur, h.first,
    h.queue.keep rfl hstate hon rfl rfl rfl⟩
  · exact fun heq => h.current ((hstate _).symm.trans heq)
  · by_cases hq : q = s.kern.current
    · subst hq
      have hset : (if n = 0 then 1 else n) ≠ 0 := by
        split
        · decide
        · assumption
      simpa [lab6SetPriority, StrideKern.modProc] using hset
    · have hal' : ((lab6SetPriority s.kern n).rq.proc q).state ≠ .uninit := hal
      rw [hstate] at hal'
      simpa [lab6SetPriority, StrideKern.modProc, RunQueue.modProc_other hq, hq] using h.priority q hq0 hal'

/-- `schedule` when nobody can run. -/
theorem Inv.scheduleIdle (h : s.Inv) (byZero : BitVec 32) (hre : requeueCurrent s.kern = some k) (hm : Members k.rq t)
    (hkeys : ∀ p, p ∈ keys t ↔ Active s.kern p) (hsame : SameProcs s.kern.rq k.rq) (hpool : k.rq.lab6RunPool = none) :
    ∃ s', s.call (.schedule byZero) = some s' ∧ Inv s' := by
  have hpick := stridePickNext_none byZero hpool
  have hnone : ∀ p, ¬ Active s.kern p := by
    intro p hp
    have hmem := (hkeys p).mpr hp
    rw [hm.empty hpool] at hmem
    simp at hmem
  refine ⟨{ s with kern := { rq := k.rq, current := idleproc } }, ?_, h.keep (.inr rfl) ?_ ?_ (fun q hq => ?_) hsame.priority
    ⟨t, hm, fun p => ?_⟩⟩
  · simp [call, hre, Lab8.schedule, picksAt, hpick]
  · exact (hsame.state _).trans h.idle
  · rw [hsame.state]
    exact h.current
  · rwa [hsame.state] at hq
  · rw [hkeys]
    refine iff_of_false (hnone p) fun hp => hnone p ⟨(hsame.state p).symm.trans hp.1.1, hp.1.2⟩

/-- A process is picked that can run. -/
theorem Inv.pick {e : Pick} (h : s.Inv) (hact : Active s.kern p) (hlaw : e.Lawful ↔ s.hasSet p = true)
    (hset : e.hasSet = s.hasSet p) (hstate : ∀ q, (rq.proc q).state = (s.kern.rq.proc q).state)
    (hprio : ∀ q, (rq.proc q).lab6Priority = (s.kern.rq.proc q).lab6Priority) (hq : HasQueue { rq := rq, current := p }) :
    Inv { s with kern := { rq := rq, current := p }, picks := e :: s.picks } where
  idle := (hstate _).trans h.idle
  current := by
    show (rq.proc p).state ≠ .uninit
    rw [hstate, hact.1]
    decide
  priority q hne hal := by
    show (rq.proc q).lab6Priority ≠ 0 ↔ s.hasSet q = true
    rw [hprio]
    refine h.priority q hne ?_
    rw [← hstate]
    exact hal
  lawful e' he := by
    rcases List.mem_cons.mp he with rfl | he
    · rw [hset]
      exact hlaw
    · exact h.lawful e' he
  unset hnil := absurd hnil (List.cons_ne_nil _ _)
  first _ := by
    by_cases hnil : s.picks = []
    · -- nobody has set a priority before the first pick
      refine ⟨e, List.mem_cons_self, fun hl => ?_⟩
      have hset := hlaw.mp hl
      rw [(h.unset hnil).2 p] at hset
      exact Bool.noConfusion hset
    · obtain ⟨e', he, hun⟩ := h.first hnil
      exact ⟨e', List.mem_cons_of_mem e he, hun⟩
  queue := hq

/-- `schedule`: what is picked obeys the law exactly if it has set its priority. -/
theorem Inv.schedule (h : s.Inv) (byZero : BitVec 32) : ∃ s', s.call (.schedule byZero) = some s' ∧ Inv s' := by
  obtain ⟨k, t, hre, hm, hkeys, hsame⟩ := h.queue.requeue
  cases hpool : k.rq.lab6RunPool with
  | none => exact h.scheduleIdle byZero hre hm hkeys hsame hpool
  | some p =>
    have hpick := stridePickNext_some byZero hpool
    have hact : Active s.kern p := (hkeys p).mp (hm.root_mem hpool)
    obtain ⟨rq, hdeq, hq, hstate, hprio⟩ := hm.pickRoot byZero hpool
    have hset : (k.rq.proc p).lab6Priority ≠ 0 ↔ s.hasSet p = true := by
      rw [hsame.priority]
      refine h.priority p hact.2 ?_
      rw [hact.1]
      decide
    have hqueue : HasQueue { rq := rq, current := p } := by
      obtain ⟨t', hm', hkeys'⟩ := hq
      refine ⟨t', hm', fun q => ?_⟩
      rw [hkeys', hkeys, Queued, Active, Active, hstate, hsame.state]
    refine ⟨_, ?_, h.pick hact ((lawful_iff (k.rq.proc p) byZero p (s.hasSet p)).trans hset) rfl
      (fun q => (hstate q).trans (hsame.state q)) (fun q => (hprio q).trans (hsame.priority q)) hqueue⟩
    simp [call, hre, Lab8.schedule, picksAt, hpick, hdeq, RunQueue.modProc_self]

/-- **One step**: it returns, and keeps the invariant. -/
theorem Inv.call (h : s.Inv) {op : PickOp} (hen : s.Enabled op) : ∃ s', s.call op = some s' ∧ Inv s' := by
  cases op with
  | fork p =>
    obtain ⟨k, hcall, hinv⟩ := h.fork hen.1 hen.2
    exact ⟨_, by simp [PickRun.call, hcall], hinv⟩
  | wakeup p =>
    by_cases hidle : p = idleproc
    · -- it is always runnable
      refine ⟨s, ?_, h⟩
      simp [PickRun.call, wakeupProc, hidle, h.idle]
    · obtain ⟨k, hcall, hinv⟩ := h.wakeup hidle hen.1
      exact ⟨_, by simp [PickRun.call, hcall], hinv⟩
  | sleep =>
    refine ⟨_, rfl, h.setState hen.2 (fun hq => hq.2 rfl) (by decide) (fun _ => by decide) ?_⟩
    rw [hen.1]
    decide
  | exit =>
    refine ⟨_, rfl, h.setState hen.2 (fun hq => hq.2 rfl) (by decide) (fun _ => by decide) ?_⟩
    rw [hen.1]
    decide
  | setPriority n => exact ⟨_, rfl, h.setPriority hen.2 n⟩
  | tick =>
    refine ⟨_, rfl, ?_⟩
    unfold schedClassProcTick
    by_cases hidle : s.kern.current ≠ idleproc
    · rw [if_pos hidle]
      have hsame := strideProcTick_same s.kern.rq s.kern.current
      refine h.keep (.inl rfl) ((hsame.state _).trans h.idle) ?_ (fun q hq => ?_) hsame.priority ?_
      · rw [hsame.state]
        exact h.current
      · rwa [hsame.state] at hq
      · exact h.queue.keep rfl hsame.state (strideProcTick_onRq s.kern.rq s.kern.current) rfl rfl rfl
    · rw [if_neg hidle]
      have hstate : ∀ q, ((s.kern.modProc s.kern.current fun p => { p with needResched := true }).rq.proc q).state =
          (s.kern.rq.proc q).state := modProc_field StrideProc.state fun _ => rfl
      refine h.keep (.inl rfl) ((hstate _).trans h.idle) ?_ (fun q hq => ?_)
        (modProc_field StrideProc.lab6Priority fun _ => rfl)
        (h.queue.keep rfl hstate (modProc_field StrideProc.onRq fun _ => rfl) rfl rfl rfl)
      · rw [hstate]
        exact h.current
      · rwa [hstate] at hq
  | schedule byZero => exact h.schedule byZero
  | reap p =>
    have hidle : p ≠ idleproc := by
      rintro rfl
      have hstate := hen.2
      rw [h.idle] at hstate
      contradiction
    refine ⟨_, rfl, h.setState hidle (fun hq => ?_) (by decide) (fun hc => absurd hc hen.1) ?_⟩
    · have hstate := hen.2
      rw [hq.1.1] at hstate
      contradiction
    · rw [hen.2]
      decide

end PickRun

/-! ## Every run -/

abbrev PickReaches : PickRun → Prop := Reaches PickRun.Init (fun s op s' => s.step op = some s') fun _ _ => True

/-- **In every run** a pick obeys the law exactly if the process has called `lab6_set_priority`, and all picks of the run do
    exactly if there are none. -/
theorem stride_picks {s : PickRun} (h : PickReaches s) :
    (∀ e ∈ s.picks, e.Lawful ↔ e.hasSet = true) ∧ ((∀ e ∈ s.picks, e.Lawful) ↔ s.picks = []) ∧
      ∀ op, s.Enabled op → ∃ s', s.step op = some s' := by
  have hinv : s.Inv := by
    refine h.invariant (fun _ h0 => h0.inv) fun s op s' hi _ hs => ?_
    by_cases hen : s.Enabled op
    · obtain ⟨s₁, hcall, hi₁⟩ := hi.call hen
      rw [PickRun.step, if_pos hen, hcall] at hs
      obtain rfl := Option.some.inj hs
      exact hi₁
    · simp [PickRun.step, hen] at hs
  refine ⟨hinv.lawful, ⟨fun hall => ?_, fun hnil e he => ?_⟩, fun op hen => ?_⟩
  · by_contra hne
    obtain ⟨e, he, hun⟩ := hinv.first hne
    exact hun (hall e he)
  · rw [hnil] at he
    exact absurd he List.not_mem_nil
  · obtain ⟨s', hcall, -⟩ := hinv.call hen
    exact ⟨s', by rw [PickRun.step, if_pos hen, hcall]⟩

/-- The kernel just after `sched_init`. -/
def bootPicks : PickRun := { kern := bootRun.kern, hasSet := fun _ => false, picks := [] }

theorem bootPicks_init : bootPicks.Init where
  queue := ⟨_, rfl⟩
  idle := rfl
  others _ hp := if_neg hp
  hasSet _ := rfl
  picks := rfl

/-- Process 1 is picked, sets its priority to 4, and is picked again. -/
theorem stride_picks_again : ∃ s : PickRun, s.picks.map (fun e => e.hasSet) = [true, false] ∧
    ∀ e ∈ s.picks, e.Lawful ↔ e.hasSet = true := by
  let s := ([.fork 1, .schedule 0, .setPriority 4, .schedule 0].foldlM PickRun.step bootPicks).get (by decide +kernel)
  have hs : PickReaches s := Reaches.foldlM (Option.some_get _).symm (.start bootPicks_init)
  exact ⟨s, by decide +kernel, (stride_picks hs).1⟩

/-- Process 1 is forked, and picked: its priority is 0. -/
theorem stride_picks_forked : ∃ s : PickRun, PickReaches s ∧ ∃ e ∈ s.picks, e.priority = 0 ∧ ¬ e.Lawful := by
  let s := ([.fork 1, .schedule 0].foldlM PickRun.step bootPicks).get (by decide +kernel)
  have hs : PickReaches s := Reaches.foldlM (Option.some_get _).symm (.start bootPicks_init)
  have hpick : s.picks = [{ proc := 1, priority := 0, before := 0, after := 0, hasSet := false }] := by decide +kernel
  refine ⟨s, hs, _, by rw [hpick]; exact List.mem_cons_self, rfl, fun hlaw => ?_⟩
  exact absurd hlaw.1 (by decide)

end Ucore.Stride.Lab8
