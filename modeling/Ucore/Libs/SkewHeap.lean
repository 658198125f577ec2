import Ucore.Lib.SkewTree

/-!
# `Libs.SkewHeap` — `libs/skew_heap.h`

The intrusive skew heap of lab6, over a memory that maps each node to its three pointers. `compare_f` answers -1, 0 or 1.
`skew_heap_merge` is recursive; it runs on fuel, one unit for each call on two heaps that are not empty, and has no result
if the fuel does not last.

`Layout m t` says that the tree `t` lies in the memory `m`. `skewHeapMerge_run` and `skewHeapRemove_run` are the two
directions of the simulation: what the pointer code does is `SkewTree.merge` and `SkewTree.remove`.
-/

namespace Ucore

variable {α : Type}

structure SkewHeapEntry (α : Type) where
  parent : Option α
  left : Option α
  right : Option α

/-- The memory of all `skew_heap_entry_t` objects. -/
abbrev SkewHeapMem (α : Type) := α → SkewHeapEntry α

section Code

variable [DecidableEq α]

namespace SkewHeapMem

def setParent (m : SkewHeapMem α) (a : α) (p : Option α) : SkewHeapMem α :=
  Function.update m a { m a with parent := p }

def setLeft (m : SkewHeapMem α) (a : α) (p : Option α) : SkewHeapMem α := Function.update m a { m a with left := p }

def setRight (m : SkewHeapMem α) (a : α) (p : Option α) : SkewHeapMem α := Function.update m a { m a with right := p }

/-- `if (a) a->parent = p` -/
def reparent (m : SkewHeapMem α) (a : Option α) (p : Option α) : SkewHeapMem α :=
  match a with
  | none   => m
  | some a => m.setParent a p

end SkewHeapMem

def skewHeapInit (m : SkewHeapMem α) (a : α) : SkewHeapMem α :=
  ((m.setParent a none).setRight a none).setLeft a none

/-- `a->left = l; a->right = r; if (l) l->parent = a` -/
def skewHeapAdopt (m : SkewHeapMem α) (a : α) (l r : Option α) : SkewHeapMem α :=
  ((m.setLeft a l).setRight a r).reparent l (some a)

def skewHeapMerge (comp : α → α → Int) : Nat → SkewHeapMem α → Option α → Option α → Option (SkewHeapMem α × Option α)
  | _, m, none, b                 => some (m, b)
  | _, m, some a, none            => some (m, some a)
  | 0, _, some _, some _          => none
  | fuel + 1, m, some a, some b   =>
    if comp a b = -1 then do
      let r := (m a).left
      let (m, l) ← skewHeapMerge comp fuel m (m a).right (some b)
      pure (skewHeapAdopt m a l r, some a)
    else do
      let r := (m b).left
      let (m, l) ← skewHeapMerge comp fuel m (some a) (m b).right
      pure (skewHeapAdopt m b l r, some b)

def skewHeapInsert (comp : α → α → Int) (fuel : Nat) (m : SkewHeapMem α) (a : Option α) (b : α) :
    Option (SkewHeapMem α × Option α) :=
  skewHeapMerge comp fuel (skewHeapInit m b) a (some b)

def skewHeapRemove (comp : α → α → Int) (fuel : Nat) (m : SkewHeapMem α) (a : Option α) (b : α) :
    Option (SkewHeapMem α × Option α) := do
  let p := (m b).parent
  let (m, rep) ← skewHeapMerge comp fuel m (m b).left (m b).right
  let m := m.reparent rep p
  match p with
  | some p => if (m p).left = some b then pure (m.setLeft p rep, a) else pure (m.setRight p rep, a)
  | none   => pure (m, rep)

end Code

open SkewTree

/-! ## A tree in memory -/

/-- The pointers of the nodes of `t` are those of `t`; the parent pointer of its top is left open. -/
def Layout (m : SkewHeapMem α) : BinaryTree α → Prop
  | .nil        => True
  | .node a l r => (m a).left = top l ∧ (m a).right = top r ∧ (∀ c ∈ top l, (m c).parent = some a) ∧
      (∀ c ∈ top r, (m c).parent = some a) ∧ Layout m l ∧ Layout m r

variable {m m' : SkewHeapMem α} {s t : BinaryTree α} {a b : α} {l r p : Option α}

/-- Only the nodes of the tree matter. -/
theorem Layout.congr (hm : ∀ x ∈ keys t, m' x = m x) (h : Layout m t) : Layout m' t := by
  induction t with
  | nil => trivial
  | node a l r ihl ihr =>
    obtain ⟨hl, hr, hpl, hpr, hlay, hray⟩ := h
    simp only [keys_node, Multiset.mem_cons, Multiset.mem_add] at hm
    refine ⟨?_, ?_, fun c hc => ?_, fun c hc => ?_, ihl (fun x hx => ?_) hlay, ihr (fun x hx => ?_) hray⟩
    · rw [hm a (by simp)]
      exact hl
    · rw [hm a (by simp)]
      exact hr
    · rw [hm c (by simp [top_mem hc])]
      exact hpl c hc
    · rw [hm c (by simp [top_mem hc])]
      exact hpr c hc
    · exact hm x (by simp [hx])
    · exact hm x (by simp [hx])

/-- The subtree at a node is in memory with the whole tree. -/
theorem Layout.sub (hsub : Sub s t) (h : Layout m t) : Layout m s := by
  induction hsub with
  | here => exact h
  | left _ ih => exact ih h.2.2.2.2.1
  | right _ ih => exact ih h.2.2.2.2.2

/-- The node above an inner node is in the heap, and not below it. -/
theorem Layout.parent_mem {u v : BinaryTree α} (hsub : Sub (.node b u v) t) (hnd : (keys t).Nodup) (h : Layout m t)
    (hne : top t ≠ some b) : ∃ p ∈ keys t, p ∉ keys (.node b u v) ∧ (m b).parent = some p := by
  induction hsub with
  | here => exact absurd rfl hne
  | @left a l r hsub ih =>
    obtain ⟨hal, -, hndl, -, -⟩ := nodup_node.mp hnd
    obtain ⟨-, -, hpl, -, hl, -⟩ := h
    by_cases htop : top l = some b
    · exact ⟨a, by simp, fun ha => hal (hsub.mem ha), hpl b htop⟩
    · obtain ⟨p, hp, hout, hpar⟩ := ih hndl hl htop
      exact ⟨p, by simp [hp], hout, hpar⟩
  | @right a l r hsub ih =>
    obtain ⟨-, har, -, hndr, -⟩ := nodup_node.mp hnd
    obtain ⟨-, -, -, hpr, -, hr⟩ := h
    by_cases htop : top r = some b
    · exact ⟨a, by simp, fun ha => har (hsub.mem ha), hpr b htop⟩
    · obtain ⟨p, hp, hout, hpar⟩ := ih hndr hr htop
      exact ⟨p, by simp [hp], hout, hpar⟩

/-- A heap in memory: the tree `t` lies under the root pointer `root`, and no node is above it. -/
structure HeapAt (m : SkewHeapMem α) (root : Option α) (t : BinaryTree α) : Prop where
  root_eq : root = top t
  orphan : ∀ a ∈ root, (m a).parent = none
  layout : Layout m t
  nodup : (keys t).Nodup

theorem HeapAt.empty (m : SkewHeapMem α) : HeapAt m none .nil := ⟨rfl, by simp, trivial, by simp⟩

/-- Memory that the heap does not use may change. -/
theorem HeapAt.congr {root : Option α} (h : HeapAt m root t) (hm : ∀ x ∈ keys t, m' x = m x) : HeapAt m' root t where
  root_eq := h.root_eq
  orphan a ha := by
    rw [hm a (top_mem (h.root_eq ▸ ha))]
    exact h.orphan a ha
  layout := h.layout.congr hm
  nodup := h.nodup

variable [DecidableEq α]

namespace SkewHeapMem

theorem reparent_of_ne (h : l ≠ some b) : (m.reparent l p) b = m b := by
  cases l with
  | none => rfl
  | some a =>
    have hne : b ≠ a := fun he => h (he ▸ rfl)
    simp [reparent, setParent, hne]

@[simp] theorem reparent_left : ((m.reparent l p) b).left = (m b).left := by
  cases l with
  | none => rfl
  | some a =>
    by_cases hb : b = a
    · subst hb; simp [reparent, setParent]
    · simp [reparent, setParent, hb]

@[simp] theorem reparent_right : ((m.reparent l p) b).right = (m b).right := by
  cases l with
  | none => rfl
  | some a =>
    by_cases hb : b = a
    · subst hb; simp [reparent, setParent]
    · simp [reparent, setParent, hb]

theorem reparent_self (h : l = some b) : ((m.reparent l p) b).parent = p := by
  subst h
  simp [reparent, setParent]

end SkewHeapMem

open SkewHeapMem

/-- The parent pointer of the top may change. -/
theorem Layout.reparent (hnd : (keys t).Nodup) (h : Layout m t) : Layout (m.reparent (top t) p) t := by
  cases t with
  | nil => trivial
  | node a l r =>
    obtain ⟨hal, har, -, -, -⟩ := nodup_node.mp hnd
    obtain ⟨hl, hr, hpl, hpr, hlay, hray⟩ := h
    -- the other nodes are not the top
    have hother : ∀ x, x ≠ a → (m.reparent (top (.node a l r)) p) x = m x :=
      fun x hx => reparent_of_ne (by simpa using Ne.symm hx)
    refine ⟨by simpa using hl, by simpa using hr, fun c hc => ?_, fun c hc => ?_, ?_, ?_⟩
    · rw [hother c fun he => hal (he ▸ top_mem hc)]
      exact hpl c hc
    · rw [hother c fun he => har (he ▸ top_mem hc)]
      exact hpr c hc
    · exact hlay.congr fun x hx => hother x fun he => hal (he ▸ hx)
    · exact hray.congr fun x hx => hother x fun he => har (he ▸ hx)

/-! ## Merging -/

theorem skewHeapAdopt_of_ne (ha : b ≠ a) (hl : l ≠ some b) : (skewHeapAdopt m a l r) b = m b := by
  rw [skewHeapAdopt, reparent_of_ne hl]
  simp [setLeft, setRight, ha]

/-- A step of the merge: the merged tree `u` goes on the left of `a`, and what was on its left goes on the right. -/
theorem Layout.adopt {m₁ : SkewHeapMem α} {u v : BinaryTree α} (hnd : (keys (.node a u v)).Nodup) (hu : Layout m₁ u)
    (hv : Layout m v) (hpv : ∀ c ∈ top v, (m c).parent = some a) (hframe : ∀ x ∉ keys u, m₁ x = m x) :
    Layout (skewHeapAdopt m₁ a (top u) (top v)) (.node a u v) ∧
      (∀ x, x ≠ a → x ∉ keys u → skewHeapAdopt m₁ a (top u) (top v) x = m x) ∧
      (skewHeapAdopt m₁ a (top u) (top v) a).parent = (m a).parent := by
  obtain ⟨hau, hav, hndu, -, hdisj⟩ := nodup_node.mp hnd
  have htop : top u ≠ some a := fun h => hau (top_mem h)
  have hself : skewHeapAdopt m₁ a (top u) (top v) a = { m₁ a with left := top u, right := top v } := by
    rw [skewHeapAdopt, reparent_of_ne htop]
    simp [setLeft, setRight]
  have hother : ∀ x, x ≠ a → x ∉ keys u → skewHeapAdopt m₁ a (top u) (top v) x = m x := by
    intro x hne hx
    have hxu : top u ≠ some x := fun h => hx (top_mem h)
    rw [skewHeapAdopt_of_ne hne hxu, hframe x hx]
  have hright : ∀ x ∈ keys v, skewHeapAdopt m₁ a (top u) (top v) x = m x :=
    fun x hx => hother x (fun he => hav (he ▸ hx)) (Multiset.disjoint_right.mp hdisj hx)
  refine ⟨⟨by rw [hself], by rw [hself], fun c hc => reparent_self hc, fun c hc => ?_, ?_, hv.congr hright⟩, hother, ?_⟩
  · rw [hright c (top_mem hc)]
    exact hpv c hc
  · refine Layout.reparent hndu (hu.congr fun x hx => ?_)
    have hne : x ≠ a := fun he => hau (he ▸ hx)
    simp [setLeft, setRight, hne]
  · rw [hself]
    simp [hframe a hau]

/-- The test that `skew_heap_merge` makes. -/
def SkewLt (comp : α → α → Int) (a b : α) : Prop := comp a b = -1

instance (comp : α → α → Int) : DecidableRel (SkewLt comp) := fun a b => inferInstanceAs (Decidable (comp a b = -1))

/-- **`skew_heap_merge` is `SkewTree.merge`**, and comes to an end. Nodes outside the two trees are not touched, nor is the
    parent pointer of the node that ends up on top. -/
theorem skewHeapMerge_run (comp : α → α → Int) (s t : BinaryTree α) {m : SkewHeapMem α} (fuel : Nat)
    (hs : Layout m s) (ht : Layout m t) (hnd : (keys s + keys t).Nodup) (hfuel : s.numNodes + t.numNodes ≤ fuel) :
    ∃ m', skewHeapMerge comp fuel m (top s) (top t) = some (m', top (merge (SkewLt comp) s t)) ∧
      Layout m' (merge (SkewLt comp) s t) ∧ (∀ x ∉ keys (merge (SkewLt comp) s t), m' x = m x) ∧
      ∀ x ∈ top (merge (SkewLt comp) s t), (m' x).parent = (m x).parent := by
  induction s, t using merge.induct (SkewLt comp) generalizing fuel with
  | case1 t =>
    refine ⟨m, ?_, by simpa using ht, fun _ _ => rfl, fun _ _ => rfl⟩
    simp [skewHeapMerge]
  | case2 a l r =>
    refine ⟨m, ?_, by simpa using hs, fun _ _ => rfl, fun _ _ => rfl⟩
    simp [skewHeapMerge]
  | case3 a l r b l' r' h ih =>
    simp only [BinaryTree.numNodes] at hfuel ih
    obtain ⟨f, rfl⟩ : ∃ f, fuel = f + 1 := ⟨fuel - 1, by omega⟩
    obtain ⟨hml, hmr, hpl, -, hl, hr⟩ := hs
    rw [← keys_merge (SkewLt comp), merge_node_pos h] at hnd
    have hndr := (nodup_node.mp hnd).2.2.1
    rw [keys_merge] at hndr
    obtain ⟨m₁, hrun, hlay, hframe, -⟩ := @ih f hr ht hndr (by omega)
    obtain ⟨hlay', hframe', hpar⟩ := Layout.adopt hnd hlay hl hpl hframe
    rw [merge_node_pos h]
    refine ⟨_, ?_, hlay', fun x hx => ?_, fun x hx => ?_⟩
    · have hc : comp a b = -1 := h
      simp only [top_node] at hrun
      simp [skewHeapMerge, hc, hmr, hrun, hml]
    · simp only [keys_node, Multiset.mem_cons, Multiset.mem_add, not_or] at hx
      exact hframe' x hx.1 hx.2.1
    · obtain rfl : a = x := by simpa using hx
      exact hpar
  | case4 a l r b l' r' h ih =>
    simp only [BinaryTree.numNodes] at hfuel ih
    obtain ⟨f, rfl⟩ : ∃ f, fuel = f + 1 := ⟨fuel - 1, by omega⟩
    obtain ⟨hml, hmr, hpl, -, hl, hr⟩ := ht
    rw [← keys_merge (SkewLt comp), merge_node_neg h] at hnd
    have hndr := (nodup_node.mp hnd).2.2.1
    rw [keys_merge] at hndr
    obtain ⟨m₁, hrun, hlay, hframe, -⟩ := @ih f hs hr hndr (by omega)
    obtain ⟨hlay', hframe', hpar⟩ := Layout.adopt hnd hlay hl hpl hframe
    rw [merge_node_neg h]
    refine ⟨_, ?_, hlay', fun x hx => ?_, fun x hx => ?_⟩
    · have hc : ¬ comp a b = -1 := h
      simp only [top_node] at hrun
      simp [skewHeapMerge, hc, hmr, hrun, hml]
    · simp only [keys_node, Multiset.mem_cons, Multiset.mem_add, not_or] at hx
      exact hframe' x hx.1 hx.2.1
    · obtain rfl : b = x := by simpa using hx
      exact hpar

/-- More fuel gives the same result. -/
theorem skewHeapMerge_fuel (comp : α → α → Int) {fuel fuel' : Nat} {m : SkewHeapMem α} {x y : Option α}
    {res : SkewHeapMem α × Option α} (hle : fuel ≤ fuel') (h : skewHeapMerge comp fuel m x y = some res) :
    skewHeapMerge comp fuel' m x y = some res := by
  induction fuel generalizing fuel' m x y res with
  | zero =>
    cases x with
    | none => simpa [skewHeapMerge] using h
    | some a =>
      cases y with
      | none => simpa [skewHeapMerge] using h
      | some b => simp [skewHeapMerge] at h
  | succ f ih =>
    obtain ⟨f', rfl⟩ : ∃ f', fuel' = f' + 1 := ⟨fuel' - 1, by omega⟩
    cases x with
    | none => simpa [skewHeapMerge] using h
    | some a =>
      cases y with
      | none => simpa [skewHeapMerge] using h
      | some b =>
        have hle' : f ≤ f' := by omega
        simp only [skewHeapMerge] at h ⊢
        by_cases hc : comp a b = -1
        · rw [if_pos hc] at h ⊢
          obtain ⟨r₁, h₁, h⟩ := Option.bind_eq_some_iff.mp h
          rw [ih hle' h₁]
          exact h
        · rw [if_neg hc] at h ⊢
          obtain ⟨r₁, h₁, h⟩ := Option.bind_eq_some_iff.mp h
          rw [ih hle' h₁]
          exact h

/-! ## Inserting and removing -/

/-- **`skew_heap_insert` of a node that is not in the heap.** -/
theorem skewHeapInsert_run (comp : α → α → Int) {root : Option α} (fuel : Nat) (h : HeapAt m root t) (hb : b ∉ keys t)
    (hfuel : t.numNodes < fuel) :
    ∃ m', skewHeapInsert comp fuel m root b = some (m', top (merge (SkewLt comp) t (.node b .nil .nil))) ∧
      HeapAt m' (top (merge (SkewLt comp) t (.node b .nil .nil))) (merge (SkewLt comp) t (.node b .nil .nil)) := by
  have hinit : skewHeapInit m b b = { parent := none, left := none, right := none } := by
    simp [skewHeapInit, setParent, setLeft, setRight]
  have hother : ∀ x ≠ b, skewHeapInit m b x = m x := by
    intro x hx
    simp [skewHeapInit, setParent, setLeft, setRight, hx]
  have ht : Layout (skewHeapInit m b) t := h.layout.congr fun x hx => hother x fun he => hb (he ▸ hx)
  have hb' : Layout (skewHeapInit m b) (.node b .nil .nil) := by
    simp [Layout, hinit]
  have hnd : (keys t + keys (.node b .nil .nil)).Nodup := by
    rw [keys_node, keys_nil, add_zero, add_comm, ← Multiset.singleton_add, Multiset.singleton_add] at *
    simpa using ⟨hb, h.nodup⟩
  obtain ⟨m', hrun, hlay, -, hpar⟩ := skewHeapMerge_run comp t (.node b .nil .nil) fuel ht hb' hnd (by
    simp only [BinaryTree.numNodes]
    omega)
  refine ⟨m', ?_, rfl, fun a ha => ?_, hlay, by rw [keys_merge]; exact hnd⟩
  · rw [skewHeapInsert, h.root_eq]
    exact hrun
  · -- the new root has been a root before
    rw [hpar a ha]
    rcases top_merge ha with hroot | hnew
    · have hne : a ≠ b := fun he => hb (he ▸ top_mem hroot)
      rw [hother a hne]
      exact h.orphan a (h.root_eq ▸ hroot)
    · obtain rfl : b = a := by simpa using hnew
      rw [hinit]

/-- `if (p->left == b) p->left = rep; else p->right = rep;` -/
def SkewHeapEntry.replace (e : SkewHeapEntry α) (b : α) (rep : Option α) : SkewHeapEntry α :=
  if e.left = some b then { e with left := rep } else { e with right := rep }

section Replace

/-! Hanging a subtree `u` in the place of an inner node `b`, with `q` above it: of the nodes that stay, only `q` and those of
`u` change. -/

variable {lt : α → α → Prop} [DecidableRel lt] {u v l r : BinaryTree α} {q : α} (hu : merge lt l r = u)
  (hq : (m b).parent = some q) (hlay : Layout m' u) (htop : ∀ c ∈ top u, (m' c).parent = some q)
  (hself : m' q = (m q).replace b (top u))

include hu hq hlay htop hself

/-- Seen from the node `a` above the subtree that holds `b`. -/
theorem Layout.replaceBelow (hsub : Sub (.node b l r) v) (hnd : (keys v).Nodup) (hpv : ∀ c ∈ top v, (m c).parent = some a)
    (hother : ∀ x ∈ keys v, x ≠ q → x ∉ keys u → m' x = m x)
    (ih : top v ≠ some b → Layout m' (remove lt b v)) :
    Layout m' (remove lt b v) ∧ ∀ c ∈ top (remove lt b v), (m' c).parent = some a := by
  by_cases hroot : top v = some b
  · obtain rfl : a = q := by simpa [hpv b hroot] using hq
    have hrem : remove lt b v = u := by rw [hsub.eq_of_top hnd hroot, remove_top, hu]
    rw [hrem]
    exact ⟨hlay, htop⟩
  · refine ⟨ih hroot, fun c hc => ?_⟩
    rw [top_remove hroot] at hc
    have hpar : (m c).parent = some a := hpv c hc
    by_cases hcq : c = q
    · -- the node above `b` keeps its parent
      rw [hcq, hself, SkewHeapEntry.replace, ← hcq]
      split
      · exact hpar
      · exact hpar
    · have hcu : c ∉ keys u := by
        rw [← hu, keys_merge]
        exact fun hx => hsub.top_notMem hnd hroot hc (by simp [Multiset.mem_add.mp hx])
      rw [hother c (top_mem hc) hcq hcu]
      exact hpar

theorem Layout.replace (hsub : Sub (.node b l r) t) (hne : top t ≠ some b) (hnd : (keys t).Nodup) (h : Layout m t)
    (hother : ∀ x ∈ keys t, x ≠ q → x ∉ keys u → m' x = m x) : Layout m' (remove lt b t) := by
  have hkeys : ∀ x ∈ keys u, x ∈ keys (.node b l r) := by
    intro x hx
    rw [← hu, keys_merge] at hx
    simp [Multiset.mem_add.mp hx]
  induction hsub with
  | here => exact absurd rfl hne
  | @left a v w hsub ih =>
    obtain ⟨hav, haw, hndv, -, hdisj⟩ := nodup_node.mp hnd
    obtain ⟨hml, hmr, hpv, hpw, hv, hw⟩ := h
    have hbv : b ∈ keys v := hsub.mem (by simp)
    have huv : ∀ x ∈ keys u, x ∈ keys v := fun x hx => hsub.mem (hkeys x hx)
    obtain ⟨hlay', hpar⟩ := Layout.replaceBelow hu hq hlay htop hself hsub hndv hpv
      (fun x hx => hother x (by simp [hx])) fun hr => ih hr hndv hv fun x hx => hother x (by simp [hx])
    -- `q` is `a`, or a node of `v`
    have hqv : a = q ∧ top v = some b ∨ q ∈ keys v ∧ top v ≠ some b := by
      by_cases hroot : top v = some b
      · exact .inl ⟨by simpa [hpv b hroot] using hq, hroot⟩
      · obtain ⟨q', hq', -, hpar'⟩ := hv.parent_mem hsub hndv hroot
        obtain rfl : q' = q := by simpa [hpar'] using hq
        exact .inr ⟨hq', hroot⟩
    have hsame : ∀ x ∈ keys w, m' x = m x := by
      intro x hx
      refine hother x (by simp [hx]) ?_ fun hxu => Multiset.disjoint_right.mp hdisj hx (huv x hxu)
      rintro rfl
      rcases hqv with ⟨rfl, -⟩ | ⟨hxv, -⟩
      · exact haw hx
      · exact Multiset.disjoint_right.mp hdisj hx hxv
    have ha : m' a = { m a with left := top (remove lt b v) } := by
      rcases hqv with ⟨rfl, hroot⟩ | ⟨hqv, hroot⟩
      · rw [hself, SkewHeapEntry.replace, if_pos (hml.trans hroot), hsub.eq_of_top hndv hroot, remove_top, hu]
      · rw [hother a (by simp) (fun he => hav (he ▸ hqv)) fun hxu => hav (huv a hxu), top_remove hroot, ← hml]
    rw [remove_left hnd hbv]
    refine ⟨by rw [ha], by rw [ha]; exact hmr, hpar, fun c hc => ?_, hlay', hw.congr hsame⟩
    rw [hsame c (top_mem hc)]
    exact hpw c hc
  | @right a w v hsub ih =>
    obtain ⟨haw, hav, -, hndv, hdisj⟩ := nodup_node.mp hnd
    obtain ⟨hml, hmr, hpw, hpv, hw, hv⟩ := h
    have hbv : b ∈ keys v := hsub.mem (by simp)
    have huv : ∀ x ∈ keys u, x ∈ keys v := fun x hx => hsub.mem (hkeys x hx)
    obtain ⟨hlay', hpar⟩ := Layout.replaceBelow hu hq hlay htop hself hsub hndv hpv
      (fun x hx => hother x (by simp [hx])) fun hr => ih hr hndv hv fun x hx => hother x (by simp [hx])
    have hqv : a = q ∧ top v = some b ∨ q ∈ keys v ∧ top v ≠ some b := by
      by_cases hroot : top v = some b
      · exact .inl ⟨by simpa [hpv b hroot] using hq, hroot⟩
      · obtain ⟨q', hq', -, hpar'⟩ := hv.parent_mem hsub hndv hroot
        obtain rfl : q' = q := by simpa [hpar'] using hq
        exact .inr ⟨hq', hroot⟩
    have hsame : ∀ x ∈ keys w, m' x = m x := by
      intro x hx
      refine hother x (by simp [hx]) ?_ fun hxu => Multiset.disjoint_left.mp hdisj hx (huv x hxu)
      rintro rfl
      rcases hqv with ⟨rfl, -⟩ | ⟨hxv, -⟩
      · exact haw hx
      · exact Multiset.disjoint_left.mp hdisj hx hxv
    have ha : m' a = { m a with right := top (remove lt b v) } := by
      rcases hqv with ⟨rfl, hroot⟩ | ⟨hqv, hroot⟩
      · -- `b` is on the right: the left child is another node
        have hleft : (m a).left ≠ some b := by
          rw [hml]
          exact fun he => Multiset.disjoint_right.mp hdisj hbv (top_mem he)
        rw [hself, SkewHeapEntry.replace, if_neg hleft, hsub.eq_of_top hndv hroot, remove_top, hu]
      · rw [hother a (by simp) (fun he => hav (he ▸ hqv)) fun hxu => hav (huv a hxu), top_remove hroot, ← hmr]
    rw [remove_right hnd hbv]
    refine ⟨by rw [ha]; exact hml, by rw [ha], fun c hc => ?_, hpar, hw.congr hsame, hlay'⟩
    rw [hsame c (top_mem hc)]
    exact hpw c hc

end Replace

/-- **`skew_heap_remove` of a node of the heap**, at the root or inside. -/
theorem skewHeapRemove_run (comp : α → α → Int) {root : Option α} (fuel : Nat) (h : HeapAt m root t) (hb : b ∈ keys t)
    (hfuel : t.numNodes ≤ fuel) :
    ∃ m', skewHeapRemove comp fuel m root b = some (m', top (remove (SkewLt comp) b t)) ∧
      HeapAt m' (top (remove (SkewLt comp) b t)) (remove (SkewLt comp) b t) := by
  obtain ⟨l, r, hsub⟩ := exists_sub hb
  have hndb := Multiset.nodup_of_le hsub.keys_le h.nodup
  obtain ⟨hbl, hbr, hndl, hndr, hdisj⟩ := nodup_node.mp hndb
  obtain ⟨hml, hmr, -, -, hl, hr⟩ := h.layout.sub hsub
  have hndu : (keys l + keys r).Nodup := Multiset.nodup_add.mpr ⟨hndl, hndr, hdisj⟩
  have hsize : l.numNodes + r.numNodes ≤ fuel := by
    have := Multiset.card_le_card hsub.keys_le
    rw [card_keys, card_keys] at this
    simp only [BinaryTree.numNodes] at this
    omega
  obtain ⟨m₁, hrun, hlay, hframe, -⟩ := skewHeapMerge_run comp l r fuel hl hr hndu hsize
  have hndu' : (keys (merge (SkewLt comp) l r)).Nodup := by rw [keys_merge]; exact hndu
  have hrem : (keys (remove (SkewLt comp) b t)).Nodup := by
    have hk := h.nodup
    rw [← keys_remove (SkewLt comp) h.nodup hb] at hk
    exact (Multiset.nodup_cons.mp hk).2
  by_cases hroot : top t = some b
  · -- `b` is the root: nothing is above its replacement
    have hpar : (m b).parent = none := h.orphan b (h.root_eq.trans hroot)
    have hrt : remove (SkewLt comp) b t = merge (SkewLt comp) l r := by
      rw [hsub.eq_of_top h.nodup hroot, remove_top]
    rw [hrt] at hrem ⊢
    refine ⟨_, ?_, rfl, fun a ha => reparent_self ha, Layout.reparent hndu' hlay, hrem⟩
    simp [skewHeapRemove, hml, hmr, hrun, hpar]
  · obtain ⟨q, hq, hqb, hpar⟩ := h.layout.parent_mem hsub h.nodup hroot
    have hqu : q ∉ keys (merge (SkewLt comp) l r) := by
      rw [keys_merge]
      exact fun hx => hqb (by simp [Multiset.mem_add.mp hx])
    -- the memory once the new subtree has its parent, and what becomes of `q` then
    let m₂ := m₁.reparent (top (merge (SkewLt comp) l r)) (some q)
    have hout : ∀ x ∉ keys (merge (SkewLt comp) l r), m₂ x = m x := by
      intro x hx
      have hne : top (merge (SkewLt comp) l r) ≠ some x := fun he => hx (top_mem he)
      simp [m₂, reparent_of_ne hne, hframe x hx]
    have hlay₂ : Layout m₂ (merge (SkewLt comp) l r) := hlay.reparent hndu'
    let m' := Function.update m₂ q ((m q).replace b (top (merge (SkewLt comp) l r)))
    have hrest : ∀ x ≠ q, m' x = m₂ x := fun x hx => Function.update_of_ne hx ..
    have hfinal : Layout m' (remove (SkewLt comp) b t) := by
      refine Layout.replace rfl hpar ?_ (fun c hc => ?_) (Function.update_self ..) hsub hroot h.nodup h.layout ?_
      · exact hlay₂.congr fun x hx => hrest x fun he => hqu (he ▸ hx)
      · rw [hrest c fun he => hqu (he ▸ top_mem hc)]
        exact reparent_self hc
      · intro x _ hxq hxu
        rw [hrest x hxq, hout x hxu]
    rw [top_remove hroot, ← h.root_eq]
    refine ⟨m', ?_, (h.root_eq.trans (top_remove hroot).symm), fun a ha => ?_, hfinal, hrem⟩
    · simp only [skewHeapRemove, hml, hmr, hrun, hpar, Option.bind_eq_bind, Option.bind_some]
      have hleft : (m₂ q).left = (m q).left := by rw [hout q hqu]
      by_cases hc : (m q).left = some b
      · rw [if_pos (hleft.trans hc)]
        simp [m', SkewHeapEntry.replace, hc, setLeft, hout q hqu, m₂]
      · rw [if_neg (hleft ▸ hc)]
        simp [m', SkewHeapEntry.replace, hc, setRight, hout q hqu, m₂]
    · -- the root keeps having no parent
      have ha' : top t = some a := h.root_eq ▸ ha
      have hau : a ∉ keys (merge (SkewLt comp) l r) := by
        rw [keys_merge]
        exact fun hx => hsub.top_notMem h.nodup hroot ha' (by simp [Multiset.mem_add.mp hx])
      by_cases haq : a = q
      · subst haq
        rw [show m' a = _ from Function.update_self .., SkewHeapEntry.replace]
        split
        · exact h.orphan a ha
        · exact h.orphan a ha
      · rw [hrest a haq, hout a hau]
        exact h.orphan a ha

end Ucore
