import Ucore.Lib.Window
import Ucore.Libs.Correctness.SkewHeap
import Ucore.Schedule.DefaultSchedStride

/-!
# `Schedule.Correctness.Stride` — the stride class on unwrapped strides

`Queue rq acc t`: the run pool is the skew heap `t`, in the order of the unwrapped strides `acc`, which `lab6_stride` holds
modulo `2 ^ 32`, and any two of them are at most `BIG_STRIDE` apart. Inside this window the wrapped comparison is the true
one (`procStrideCompF_eq`), so `stride_enqueue` keeps the order (`Queue.enqueue`), and `stride_pick_next` takes a least one,
which `stride_dequeue` then removes (`Queue.pick`).
-/

namespace Ucore.Stride

open SkewTree

variable {rq : RunQueue} {acc : Nat → Nat} {t : BinaryTree Nat} {M : Multiset Nat} {p q : Nat}

/-! ## What the operations do to the processes -/

namespace RunQueue

variable {f : StrideProc → StrideProc}

@[simp] theorem modProc_self : (rq.modProc p f).proc p = f (rq.proc p) := Function.update_self ..
@[simp] theorem modProc_node : (rq.modProc p f).node = rq.node := rfl
@[simp] theorem modProc_pool : (rq.modProc p f).lab6RunPool = rq.lab6RunPool := rfl
@[simp] theorem modProc_procNum : (rq.modProc p f).procNum = rq.procNum := rfl

theorem modProc_other (h : q ≠ p) : (rq.modProc p f).proc q = rq.proc q := Function.update_of_ne h ..

/-- A field that the change leaves alone. -/
theorem modProc_field {β : Type} (g : StrideProc → β) (h : ∀ x, g (f x) = g x) : g ((rq.modProc p f).proc q) = g (rq.proc q) := by
  by_cases hq : q = p
  · rw [hq, modProc_self, h]
  · rw [modProc_other hq]

end RunQueue

/-- What the queue operations leave alone, in every process. -/
structure SameProcs (rq rq' : RunQueue) : Prop where
  state : ∀ p, (rq'.proc p).state = (rq.proc p).state
  stride : ∀ p, (rq'.proc p).lab6Stride = (rq.proc p).lab6Stride
  priority : ∀ p, (rq'.proc p).lab6Priority = (rq.proc p).lab6Priority

namespace SameProcs

variable {rq₁ rq₂ rq₃ : RunQueue}

theorem refl (rq : RunQueue) : SameProcs rq rq := ⟨fun _ => rfl, fun _ => rfl, fun _ => rfl⟩

theorem trans (h : SameProcs rq₁ rq₂) (h' : SameProcs rq₂ rq₃) : SameProcs rq₁ rq₃ where
  state p := (h'.state p).trans (h.state p)
  stride p := (h'.stride p).trans (h.stride p)
  priority p := (h'.priority p).trans (h.priority p)

/-- A change of one process that spares the three fields. -/
theorem modProc {f : StrideProc → StrideProc} (hs : ∀ x, (f x).state = x.state)
    (hst : ∀ x, (f x).lab6Stride = x.lab6Stride) (hp : ∀ x, (f x).lab6Priority = x.lab6Priority) :
    SameProcs rq (rq.modProc p f) where
  state _ := RunQueue.modProc_field StrideProc.state hs
  stride _ := RunQueue.modProc_field StrideProc.lab6Stride hst
  priority _ := RunQueue.modProc_field StrideProc.lab6Priority hp

end SameProcs

theorem strideProcTick_same (rq : RunQueue) (p : Nat) : SameProcs rq (strideProcTick rq p) := by
  let rq₁ := rq.modProc p fun x => { x with timeSlice := if 0 < x.timeSlice then x.timeSlice - 1 else x.timeSlice }
  have h₁ : SameProcs rq rq₁ := by
    apply SameProcs.modProc
    all_goals intro x; rfl
  have h₂ : SameProcs rq₁ (strideProcTick rq p) := by
    unfold strideProcTick
    apply SameProcs.modProc
    all_goals intro x; rfl
  exact h₁.trans h₂

/-- `stride_enqueue` around the call of the heap. -/
theorem strideEnqueue_run {node : SkewHeapMem Nat} {pool : Option Nat}
    (h : skewHeapInsert (procStrideCompF rq) (rq.procNum + 1) rq.node rq.lab6RunPool p = some (node, pool)) :
    ∃ rq', strideEnqueue rq p = some rq' ∧ rq'.node = node ∧ rq'.lab6RunPool = pool ∧
      rq'.procNum = rq.procNum + 1 ∧ SameProcs rq rq' := by
  refine ⟨_, by rw [strideEnqueue, h]; rfl, rfl, rfl, rfl, fun q => ?_, fun q => ?_, fun q => ?_⟩
  · by_cases hq : q = p
    · simp [RunQueue.modProc, hq]
    · simp [RunQueue.modProc, hq]
  · by_cases hq : q = p
    · simp [RunQueue.modProc, hq]
    · simp [RunQueue.modProc, hq]
  · by_cases hq : q = p
    · simp [RunQueue.modProc, hq]
    · simp [RunQueue.modProc, hq]

/-! ## The comparison -/

/-- `lab6_stride` is the unwrapped stride modulo `2 ^ 32`. -/
def Wraps (rq : RunQueue) (acc : Nat → Nat) (p : Nat) : Prop := (rq.proc p).lab6Stride = BitVec.ofNat 32 (acc p)

/-- **Inside the window** the wrapped comparison is the comparison of the unwrapped strides. -/
theorem procStrideCompF_eq (hp : Wraps rq acc p) (hq : Wraps rq acc q) (hpq : acc p ≤ acc q + bigStride)
    (hqp : acc q ≤ acc p + bigStride) : procStrideCompF rq p q = compareNat (acc p) (acc q) := by
  unfold procStrideCompF compareNat
  rw [hp, hq, toInt_sub_of_spread hpq hqp (by decide)]
  grind

/-- So on the members of a window it is a total preorder. -/
theorem compares_of_spread (hw : ∀ p ∈ M, Wraps rq acc p) (hs : Spread acc M bigStride) :
    Compares (procStrideCompF rq) M := by
  have heq : ∀ a ∈ M, ∀ b ∈ M, procStrideCompF rq a b = compareNat (acc a) (acc b) :=
    fun a ha b hb => procStrideCompF_eq (hw a ha) (hw b hb) (hs a ha b hb) (hs b hb a ha)
  refine Compares.congr ?_ heq
  refine ⟨fun a _ b _ => ?_, fun a _ b _ => ?_, fun a _ b _ c _ => ?_⟩
  · unfold compareNat
    grind
  · unfold compareNat
    grind
  · unfold compareNat
    grind

theorem decides_of_spread (hw : ∀ p ∈ M, Wraps rq acc p) (hs : Spread acc M bigStride) :
    Decides (SkewLt (procStrideCompF rq)) (fun a b => acc a ≤ acc b) M := by
  have heq : ∀ a ∈ M, ∀ b ∈ M, procStrideCompF rq a b = compareNat (acc a) (acc b) :=
    fun a ha b hb => procStrideCompF_eq (hw a ha) (hw b hb) (hs a ha b hb) (hs b hb a ha)
  refine ⟨fun a ha b hb hlt => ?_, fun a ha b hb hlt => ?_, fun a _ b _ c _ hab hbc => Nat.le_trans hab hbc⟩
  · have hc : procStrideCompF rq a b = -1 := hlt
    rw [heq a ha b hb, compareNat] at hc
    grind
  · have hc : ¬ procStrideCompF rq a b = -1 := hlt
    rw [heq a ha b hb, compareNat] at hc
    grind

/-! ## The queue -/

structure Queue (rq : RunQueue) (acc : Nat → Nat) (t : BinaryTree Nat) : Prop where
  heap : HeapAt rq.node rq.lab6RunPool t
  ordered : Ordered (fun p q => acc p ≤ acc q) t
  count : rq.procNum = t.numNodes
  wraps : ∀ p ∈ keys t, Wraps rq acc p
  spread : Spread acc (keys t) bigStride

namespace Queue

theorem init (rq : RunQueue) (acc : Nat → Nat) : Queue (strideInit rq) acc .nil where
  heap := HeapAt.empty _
  ordered := trivial
  count := rfl
  wraps := by simp
  spread := by simp [Spread]

/-- Memory outside the heap, and strides of other processes, do not matter. -/
theorem congr {rq' : RunQueue} {acc' : Nat → Nat} (h : Queue rq acc t) (hpool : rq'.lab6RunPool = rq.lab6RunPool)
    (hnum : rq'.procNum = rq.procNum) (hnode : ∀ p ∈ keys t, rq'.node p = rq.node p)
    (hstride : ∀ p ∈ keys t, (rq'.proc p).lab6Stride = (rq.proc p).lab6Stride) (hacc : ∀ p ∈ keys t, acc' p = acc p) :
    Queue rq' acc' t where
  heap := by
    rw [hpool]
    exact h.heap.congr hnode
  ordered := h.ordered.congr fun a ha b hb hle => by
    rw [hacc a ha, hacc b hb]
    exact hle
  count := hnum.trans h.count
  wraps p hp := by
    show (rq'.proc p).lab6Stride = _
    rw [hstride p hp, hacc p hp]
    exact h.wraps p hp
  spread := h.spread.congr hacc

theorem same {rq' : RunQueue} (h : Queue rq acc t) (hs : SameProcs rq rq') (hpool : rq'.lab6RunPool = rq.lab6RunPool)
    (hnum : rq'.procNum = rq.procNum) (hnode : rq'.node = rq.node) : Queue rq' acc t :=
  h.congr hpool hnum (fun p _ => congrFun hnode p) (fun p _ => hs.stride p) fun _ _ => rfl

/-- **`stride_enqueue`** of a process whose stride is inside the window. -/
theorem enqueue (h : Queue rq acc t) (hp : p ∉ keys t) (hw : Wraps rq acc p)
    (hnear : ∀ q ∈ keys t, acc p ≤ acc q + bigStride ∧ acc q ≤ acc p + bigStride) :
    ∃ rq' t', strideEnqueue rq p = some rq' ∧ Queue rq' acc t' ∧ keys t' = p ::ₘ keys t ∧ SameProcs rq rq' := by
  obtain ⟨m', hrun, hheap⟩ := skewHeapInsert_run (procStrideCompF rq) (rq.procNum + 1) h.heap hp (by rw [h.count]; omega)
  have hkeys : keys (merge (SkewLt (procStrideCompF rq)) t (.node p .nil .nil)) = p ::ₘ keys t := by
    rw [keys_merge, keys_node, keys_nil, add_zero, add_comm, Multiset.cons_add, zero_add]
  have hspread : Spread acc (p ::ₘ keys t) bigStride := h.spread.cons hnear
  have hwraps : ∀ q ∈ p ::ₘ keys t, Wraps rq acc q := by
    intro q hq
    rcases Multiset.mem_cons.mp hq with rfl | hq
    · exact hw
    · exact h.wraps q hq
  have hord : Ordered (fun p q => acc p ≤ acc q) (merge (SkewLt (procStrideCompF rq)) t (.node p .nil .nil)) := by
    refine ordered_merge ?_ h.ordered (by simp [Ordered])
    rw [← keys_merge (SkewLt (procStrideCompF rq)), hkeys]
    exact decides_of_spread hwraps hspread
  obtain ⟨rq', hcall, hnode, hpool, hnum, hsame⟩ := strideEnqueue_run hrun
  refine ⟨rq', _, hcall, ⟨?_, hord, ?_, ?_, ?_⟩, hkeys, hsame⟩
  · rw [hnode, hpool]
    exact hheap
  · rw [hnum, ← card_keys, hkeys, Multiset.card_cons, card_keys, ← h.count]
  · intro q hq
    rw [hkeys] at hq
    exact (hsame.stride q).trans (hwraps q hq)
  · rw [hkeys]
    exact hspread

/-- A queue that is not empty has a root, and it is least. -/
theorem least (h : Queue rq acc t) (hp : rq.lab6RunPool = some p) : p ∈ keys t ∧ ∀ q ∈ keys t, acc p ≤ acc q := by
  have htop : top t = some p := h.heap.root_eq.symm.trans hp
  refine ⟨top_mem htop, fun q hq => ?_⟩
  have hle := top_le (decides_of_spread h.wraps h.spread) h.ordered htop hq
  exact hle

theorem empty_iff (h : Queue rq acc t) : rq.lab6RunPool = none ↔ keys t = 0 := by
  rw [h.heap.root_eq]
  cases t with
  | nil => simp
  | node a l r => simp

end Queue

/-! ## Picking -/

/-- By how much the stride of a process grows when it is picked. -/
def passOf (rq : RunQueue) (p : Nat) : Nat :=
  bigStride / (if (rq.proc p).lab6Priority = 0 then 1 else (rq.proc p).lab6Priority).toNat

theorem passOf_le : passOf rq p ≤ bigStride := Nat.div_le_self _ _

/-- The unwrapped strides once `p` has been picked. -/
def picked (rq : RunQueue) (acc : Nat → Nat) (p : Nat) : Nat → Nat := Function.update acc p (acc p + passOf rq p)

theorem stridePickNext_fst : (stridePickNext rq).1 = rq.lab6RunPool := by
  unfold stridePickNext
  cases rq.lab6RunPool with
  | none => rfl
  | some p => rfl

/-- `stride_pick_next` on a queue with a root. -/
theorem stridePickNext_run (h : rq.lab6RunPool = some p) :
    ∃ rq', stridePickNext rq = (some p, rq') ∧ rq'.node = rq.node ∧ rq'.lab6RunPool = some p ∧
      rq'.procNum = rq.procNum ∧ (∀ q, (rq'.proc q).state = (rq.proc q).state) ∧
      (∀ q ≠ p, rq'.proc q = rq.proc q) ∧
      (rq'.proc p).lab6Priority = (if (rq.proc p).lab6Priority = 0 then 1 else (rq.proc p).lab6Priority) ∧
      (Wraps rq acc p → Wraps rq' (picked rq acc p) p) := by
  let rq₀ := rq.modProc p fun x => { x with lab6Priority := if x.lab6Priority = 0 then 1 else x.lab6Priority }
  have hrun : stridePickNext rq = (some p, rq₀.modProc p fun x => { x with lab6Stride := x.lab6Stride + x.pass }) := by
    rw [stridePickNext, h]
  refine ⟨_, hrun, rfl, h, rfl, fun q => ?_, fun q hq => ?_, ?_, fun hw => ?_⟩
  · by_cases hq : q = p
    · simp [rq₀, RunQueue.modProc, hq]
    · simp [rq₀, RunQueue.modProc, hq]
  · simp [rq₀, RunQueue.modProc, hq]
  · simp [rq₀, RunQueue.modProc]
  · -- the two roundings commute: the pass is the quotient of the numbers
    have hw' : (rq.proc p).lab6Stride = BitVec.ofNat 32 (acc p) := hw
    have hpass : ∀ x : BitVec 32, BitVec.ofNat 32 bigStride / x = BitVec.ofNat 32 (bigStride / x.toNat) := by
      intro x
      apply BitVec.eq_of_toNat_eq
      have hlt : bigStride / x.toNat < 2 ^ 32 := Nat.lt_of_le_of_lt (Nat.div_le_self _ _) (by decide)
      rw [BitVec.toNat_udiv, BitVec.toNat_ofNat, BitVec.toNat_ofNat, Nat.mod_eq_of_lt hlt]
      congr 1
    simp only [Wraps, picked, passOf, RunQueue.modProc_self, StrideProc.pass, Function.update_self, hpass, rq₀]
    rw [hw', BitVec.ofNat_add]

/-- **Pick and dequeue**: a least process leaves, its stride advanced; the window stays. -/
theorem Queue.pick (h : Queue rq acc t) (hp : rq.lab6RunPool = some p) :
    ∃ rq₁ rq' t', stridePickNext rq = (some p, rq₁) ∧ strideDequeue rq₁ p = some rq' ∧
      Queue rq' (picked rq acc p) t' ∧ p ::ₘ keys t' = keys t ∧ Wraps rq' (picked rq acc p) p ∧
      Spread (picked rq acc p) (keys t) bigStride ∧ (∀ q, (rq'.proc q).state = (rq.proc q).state) ∧
      (∀ q ≠ p, rq'.proc q = rq.proc q) ∧
      (rq'.proc p).lab6Priority = (if (rq.proc p).lab6Priority = 0 then 1 else (rq.proc p).lab6Priority) := by
  obtain ⟨hmem, hmin⟩ := h.least hp
  obtain ⟨rq₁, hpick, hnode, hpool, hnum, hstate, hproc, hprio, hwrap⟩ := @stridePickNext_run rq acc p hp
  have hspread : Spread (picked rq acc p) (keys t) bigStride := h.spread.advance hmin passOf_le
  have hother : ∀ q ≠ p, picked rq acc p q = acc q := fun q hq => Function.update_of_ne hq ..
  have hwraps : ∀ q ∈ keys t, Wraps rq₁ (picked rq acc p) q := by
    intro q hq
    by_cases hqp : q = p
    · rw [hqp]
      exact hwrap (h.wraps p hmem)
    · show (rq₁.proc q).lab6Stride = _
      rw [hproc q hqp, hother q hqp]
      exact h.wraps q hq
  -- the heap of the picked process: its two subtrees get merged
  cases t with
  | nil => simp at hmem
  | node a l r =>
    obtain rfl : a = p := by simpa [h.heap.root_eq] using hp
    have hheap : HeapAt rq₁.node rq₁.lab6RunPool (.node a l r) := by
      rw [hnode, hpool, ← hp]
      exact h.heap
    obtain ⟨hal, har, -, -, -⟩ := nodup_node.mp h.heap.nodup
    obtain ⟨m', hrun, hheap'⟩ := skewHeapRemove_run (procStrideCompF rq₁) rq₁.procNum hheap hmem (by
      rw [hnum, h.count])
    have hcall : strideDequeue rq₁ a = some { rq₁ with
        node := m', lab6RunPool := top (remove (SkewLt (procStrideCompF rq₁)) a (.node a l r)), procNum := rq₁.procNum - 1 } := by
      rw [strideDequeue, hrun]
      rfl
    have hkeys : a ::ₘ keys (remove (SkewLt (procStrideCompF rq₁)) a (.node a l r)) = keys (.node a l r) :=
      keys_remove _ h.heap.nodup hmem
    have hsub : ∀ q ∈ keys (remove (SkewLt (procStrideCompF rq₁)) a (.node a l r)), q ∈ keys (.node a l r) := by
      intro q hq
      rw [← hkeys]
      exact Multiset.mem_cons_of_mem hq
    have hlr : ∀ x ∈ keys l + keys r, x ∈ keys (.node a l r) ∧ x ≠ a := by
      intro x hx
      refine ⟨by simp [Multiset.mem_add.mp hx], ?_⟩
      rintro rfl
      exact (Multiset.mem_add.mp hx).elim hal har
    refine ⟨rq₁, _, _, hpick, hcall, ⟨hheap', ?_, ?_, fun q hq => hwraps q (hsub q hq), hspread.mono hsub⟩, hkeys,
      hwraps a hmem, hspread, hstate, hproc, hprio⟩
    · rw [remove_top]
      refine ordered_merge ((decides_of_spread hwraps hspread).mono fun x hx => (hlr x hx).1) ?_ ?_
      · refine h.ordered.2.2.1.congr fun x hx y hy hxy => ?_
        rw [hother x (hlr x (by simp [hx])).2, hother y (hlr y (by simp [hy])).2]
        exact hxy
      · refine h.ordered.2.2.2.congr fun x hx y hy hxy => ?_
        rw [hother x (hlr x (by simp [hx])).2, hother y (hlr y (by simp [hy])).2]
        exact hxy
    · have hcard := congrArg Multiset.card hkeys
      rw [Multiset.card_cons, card_keys, card_keys] at hcard
      show rq₁.procNum - 1 = _
      rw [hnum, h.count]
      omega

end Ucore.Stride
