import Ucore.Lib.Run
import Ucore.Libs.SkewHeap

/-!
# `Libs.Correctness.SkewHeap` — runs of inserting and removing

A heap under one root pointer, used by any sequence of `skew_heap_insert` of nodes that are not in it and `skew_heap_remove`
of nodes that are. The comparator has to be a total preorder on the members (`Compares`); on other nodes it may say anything,
and between the calls it may change there. `skew_heap_reached` says what holds after every run.
-/

namespace Ucore

open SkewTree

variable {α : Type} {comp : α → α → Int} {M N : Multiset α}

/-- The comparator is a total preorder on `M`: less is -1, equal is 0, greater is 1. -/
structure Compares (comp : α → α → Int) (M : Multiset α) : Prop where
  sign : ∀ a ∈ M, ∀ b ∈ M, comp a b = -1 ∨ comp a b = 0 ∨ comp a b = 1
  swap : ∀ a ∈ M, ∀ b ∈ M, comp b a = - comp a b
  trans : ∀ a ∈ M, ∀ b ∈ M, ∀ c ∈ M, comp a b ≤ 0 → comp b c ≤ 0 → comp a c ≤ 0

namespace Compares

theorem mono (h : Compares comp M) (hN : ∀ x ∈ N, x ∈ M) : Compares comp N where
  sign a ha b hb := h.sign a (hN a ha) b (hN b hb)
  swap a ha b hb := h.swap a (hN a ha) b (hN b hb)
  trans a ha b hb c hc := h.trans a (hN a ha) b (hN b hb) c (hN c hc)

theorem congr {comp' : α → α → Int} (h : Compares comp M) (hc : ∀ a ∈ M, ∀ b ∈ M, comp' a b = comp a b) :
    Compares comp' M where
  sign a ha b hb := by
    rw [hc a ha b hb]
    exact h.sign a ha b hb
  swap a ha b hb := by
    rw [hc a ha b hb, hc b hb a ha]
    exact h.swap a ha b hb
  trans a ha b hb c hc' := by
    rw [hc a ha b hb, hc b hb c hc', hc a ha c hc']
    exact h.trans a ha b hb c hc'

/-- What the merge asks is enough to know the order. -/
theorem decides (h : Compares comp M) : Decides (SkewLt comp) (fun a b => comp a b ≤ 0) M where
  of_lt a _ b _ hlt := by
    have hc : comp a b = -1 := hlt
    omega
  of_not_lt a ha b hb hlt := by
    have hc : ¬ comp a b = -1 := hlt
    have hs := h.sign a ha b hb
    have hw := h.swap a ha b hb
    omega
  trans := h.trans

end Compares

/-! ## Runs -/

structure SkewRun (α : Type) where
  mem : SkewHeapMem α
  root : Option α
  members : Multiset α        -- inserted and not removed since
  comp : α → α → Int

inductive SkewOp (α : Type) where
  | insert (b : α)
  | remove (b : α)
  | recompare (comp : α → α → Int)

namespace SkewRun

def Init (s : SkewRun α) : Prop := s.root = none ∧ s.members = 0

/-- The invariant of runs. -/
structure Inv (s : SkewRun α) : Prop where
  heap : ∃ t, HeapAt s.mem s.root t ∧ keys t = s.members ∧ Ordered (fun a b => s.comp a b ≤ 0) t
  compares : Compares s.comp s.members

theorem Init.inv {s : SkewRun α} (h : s.Init) : s.Inv := by
  refine ⟨⟨.nil, ?_, h.2.symm, trivial⟩, ?_⟩
  · rw [h.1]
    exact HeapAt.empty s.mem
  · rw [h.2]
    exact ⟨by simp, by simp, by simp⟩

variable [DecidableEq α]

/-- One call, which returns with some amount of fuel. -/
def Step (s : SkewRun α) : SkewOp α → SkewRun α → Prop
  | .insert b, s'       => b ∉ s.members ∧ Compares s.comp (b ::ₘ s.members) ∧ ∃ fuel mem root,
      skewHeapInsert s.comp fuel s.mem s.root b = some (mem, root) ∧
        s' = { s with mem := mem, root := root, members := b ::ₘ s.members }
  | .remove b, s'       => b ∈ s.members ∧ ∃ fuel mem root,
      skewHeapRemove s.comp fuel s.mem s.root b = some (mem, root) ∧
        s' = { s with mem := mem, root := root, members := s.members.erase b }
  | .recompare comp, s' => (∀ a ∈ s.members, ∀ b ∈ s.members, comp a b = s.comp a b) ∧ s' = { s with comp := comp }

/-- What a user of the heap relies on. -/
structure Sound (s : SkewRun α) : Prop where
  /-- the nodes under the root are the members, with the right pointers, and no child compares below its parent -/
  heap : ∃ t, HeapAt s.mem s.root t ∧ keys t = s.members ∧ Ordered (fun a b => s.comp a b ≤ 0) t
  least : ∀ a ∈ s.root, ∀ b ∈ s.members, s.comp a b ≤ 0
  empty : s.root = none ↔ s.members = 0
  inserts : ∀ b ∉ s.members, ∃ fuel res, skewHeapInsert s.comp fuel s.mem s.root b = some res
  removes : ∀ b ∈ s.members, ∃ fuel res, skewHeapRemove s.comp fuel s.mem s.root b = some res

end SkewRun

variable [DecidableEq α]

theorem skewHeapInsert_fuel {fuel fuel' : Nat} {m : SkewHeapMem α} {root : Option α} {b : α}
    {res : SkewHeapMem α × Option α} (hle : fuel ≤ fuel') (h : skewHeapInsert comp fuel m root b = some res) :
    skewHeapInsert comp fuel' m root b = some res := skewHeapMerge_fuel comp hle h

theorem skewHeapRemove_fuel {fuel fuel' : Nat} {m : SkewHeapMem α} {root : Option α} {b : α}
    {res : SkewHeapMem α × Option α} (hle : fuel ≤ fuel') (h : skewHeapRemove comp fuel m root b = some res) :
    skewHeapRemove comp fuel' m root b = some res := by
  unfold skewHeapRemove at h ⊢
  obtain ⟨r, hr, h⟩ := Option.bind_eq_some_iff.mp h
  exact Option.bind_eq_some_iff.mpr ⟨r, skewHeapMerge_fuel comp hle hr, h⟩

namespace SkewRun

variable {s s' : SkewRun α} {op : SkewOp α}

/-- **One call** keeps the invariant. -/
theorem Inv.step (h : s.Inv) (hs : s.Step op s') : s'.Inv := by
  obtain ⟨⟨t, hat, hkeys, hord⟩, hcomp⟩ := h
  cases op with
  | insert b =>
    obtain ⟨hb, hnew, fuel, mem, root, hrun, rfl⟩ := hs
    have hb' : b ∉ keys t := hkeys ▸ hb
    obtain ⟨m', hrun', hat'⟩ := skewHeapInsert_run s.comp (max fuel (t.numNodes + 1)) hat hb' (by omega)
    -- both runs are the same run
    obtain ⟨rfl, rfl⟩ : mem = m' ∧ root = _ := by
      simpa using (skewHeapInsert_fuel (Nat.le_max_left _ _) hrun).symm.trans hrun'
    have hk : keys (merge (SkewLt s.comp) t (.node b .nil .nil)) = b ::ₘ s.members := by
      rw [keys_merge, hkeys, keys_node, keys_nil, add_zero, add_comm, Multiset.cons_add, zero_add]
    refine ⟨⟨_, hat', hk, ?_⟩, hnew⟩
    refine ordered_merge (hnew.decides.mono fun x hx => ?_) hord (by simp [Ordered])
    rw [← hk, keys_merge]
    exact hx
  | remove b =>
    obtain ⟨hb, fuel, mem, root, hrun, rfl⟩ := hs
    have hb' : b ∈ keys t := hkeys ▸ hb
    obtain ⟨m', hrun', hat'⟩ := skewHeapRemove_run s.comp (max fuel t.numNodes) hat hb' (by omega)
    obtain ⟨rfl, rfl⟩ : mem = m' ∧ root = _ := by
      simpa using (skewHeapRemove_fuel (Nat.le_max_left _ _) hrun).symm.trans hrun'
    have hk : keys (remove (SkewLt s.comp) b t) = s.members.erase b := by
      rw [← hkeys, ← keys_remove (SkewLt s.comp) hat.nodup hb', Multiset.erase_cons_head]
    refine ⟨⟨_, hat', hk, ?_⟩, hcomp.mono fun x hx => Multiset.mem_of_mem_erase hx⟩
    exact ordered_remove (hkeys ▸ hcomp.decides) hord
  | recompare comp =>
    obtain ⟨hc, rfl⟩ := hs
    refine ⟨⟨t, hat, hkeys, hord.congr fun a ha b hb hle => ?_⟩, hcomp.congr hc⟩
    show comp a b ≤ 0
    rw [hc a (hkeys ▸ ha) b (hkeys ▸ hb)]
    exact hle

theorem Inv.sound (h : s.Inv) : s.Sound := by
  obtain ⟨⟨t, hat, hkeys, hord⟩, hcomp⟩ := h
  refine ⟨⟨t, hat, hkeys, hord⟩, fun a ha b hb => ?_, ?_, fun b hb => ?_, fun b hb => ?_⟩
  · have hd : Decides (SkewLt s.comp) (fun a b => s.comp a b ≤ 0) (keys t) := hkeys ▸ hcomp.decides
    rw [← hkeys] at hb
    have hle := top_le hd hord (hat.root_eq ▸ ha) hb
    exact hle
  · rw [hat.root_eq, ← hkeys]
    cases t with
    | nil => simp
    | node a l r => simp
  · obtain ⟨m', hrun, -⟩ := skewHeapInsert_run s.comp (t.numNodes + 1) hat (hkeys ▸ hb) (by omega)
    exact ⟨_, _, hrun⟩
  · obtain ⟨m', hrun, -⟩ := skewHeapRemove_run s.comp (t.numNodes) hat (hkeys ▸ hb) (by omega)
    exact ⟨_, _, hrun⟩

end SkewRun

/-- The runs of one heap. -/
abbrev SkewReaches : SkewRun α → Prop := Reaches SkewRun.Init (fun s op s' => s.Step op s') fun _ _ => True

/-- **Every run** leaves a heap of the members with a least one at the root, and every further call returns. -/
theorem skew_heap_reached {s : SkewRun α} (h : SkewReaches s) : s.Sound := by
  have hinv : s.Inv := h.invariant (fun _ h0 => h0.inv) fun _ _ _ hi _ hs => hi.step hs
  exact hinv.sound

/-- The comparison of numbers. -/
def compareNat (a b : Nat) : Int := if a < b then -1 else if a = b then 0 else 1

theorem compareNat_compares (M : Multiset Nat) : Compares compareNat M := by
  refine ⟨fun a _ b _ => ?_, fun a _ b _ => ?_, fun a _ b _ c _ => ?_⟩
  · unfold compareNat
    grind
  · unfold compareNat
    grind
  · unfold compareNat
    grind

/-- Nodes 2 and 1 go in, and 2, now inside the heap, comes out. -/
theorem skew_heap_reached_two : ∃ s : SkewRun Nat, s.members = {1} ∧ s.Sound := by
  let s₀ : SkewRun Nat :=
    { mem := fun _ => { parent := none, left := none, right := none }, root := none, members := 0, comp := compareNat }
  let r₁ := (skewHeapInsert compareNat 2 s₀.mem none 2).get rfl
  let r₂ := (skewHeapInsert compareNat 2 r₁.1 r₁.2 1).get rfl
  let r₃ := (skewHeapRemove compareNat 2 r₂.1 r₂.2 2).get rfl
  let s₁ : SkewRun Nat := { s₀ with mem := r₁.1, root := r₁.2, members := 2 ::ₘ 0 }
  let s₂ : SkewRun Nat := { s₀ with mem := r₂.1, root := r₂.2, members := 1 ::ₘ 2 ::ₘ 0 }
  let s₃ : SkewRun Nat := { s₀ with mem := r₃.1, root := r₃.2, members := (1 ::ₘ 2 ::ₘ 0 : Multiset Nat).erase 2 }
  have h₁ : s₀.Step (.insert 2) s₁ := ⟨by simp [s₀], compareNat_compares _, 2, r₁.1, r₁.2, rfl, rfl⟩
  have h₂ : s₁.Step (.insert 1) s₂ := ⟨by simp [s₁], compareNat_compares _, 2, r₂.1, r₂.2, rfl, rfl⟩
  have h₃ : s₂.Step (.remove 2) s₃ := ⟨by simp [s₂], 2, r₃.1, r₃.2, rfl, rfl⟩
  have hstart : SkewReaches s₀ := .start ⟨rfl, rfl⟩
  exact ⟨s₃, rfl, skew_heap_reached (((hstart.next trivial h₁).next trivial h₂).next trivial h₃)⟩

end Ucore
