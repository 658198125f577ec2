import Mathlib.Algebra.Order.Group.Multiset
import Mathlib.Data.Multiset.UnionInter
import Mathlib.Data.Tree.Basic

/-!
# `Lib.SkewTree` — skew heaps as binary trees

The self-adjusting heap on `BinaryTree`: `merge` walks down the two right spines and swaps the children of every node it
passes, `remove` puts the merged children of a node in its place. Which of two values goes on top is decided by a test
`lt`; the heap order is stated for a relation `le`, and `Decides` says what the test has to do with it on the values in
question. No value is ever compared with one that is not in the trees, so nothing is asked about other values.

## Contents
- **Values.** `keys`, `top`, and the relation `Sub` between a tree and the subtree at one of its nodes.
- **The operations.** `merge`, `remove`, and the values they leave (`keys_merge`, `keys_remove`).
- **The order.** `Ordered` is kept by both (`ordered_merge`, `ordered_remove`), and puts a minimum on top (`top_le`).
-/

namespace Ucore.SkewTree

variable {α : Type} {lt le : α → α → Prop} {a b : α} {l r s t : BinaryTree α}

/-! ## Values -/

def keys : BinaryTree α → Multiset α
  | .nil        => 0
  | .node a l r => a ::ₘ (keys l + keys r)

def top : BinaryTree α → Option α
  | .nil        => none
  | .node a _ _ => some a

@[simp] theorem keys_nil : keys (.nil : BinaryTree α) = 0 := rfl
@[simp] theorem keys_node : keys (.node a l r) = a ::ₘ (keys l + keys r) := rfl
@[simp] theorem top_nil : top (.nil : BinaryTree α) = none := rfl
@[simp] theorem top_node : top (.node a l r) = some a := rfl

theorem top_mem (h : top t = some a) : a ∈ keys t := by
  cases t with
  | nil => exact absurd h (by simp)
  | node b l r =>
    obtain rfl : b = a := by simpa using h
    simp

theorem card_keys (t : BinaryTree α) : Multiset.card (keys t) = t.numNodes := by
  induction t with
  | nil => simp
  | node a l r ihl ihr => simp [ihl, ihr]

/-- What it means for the values of a tree to be distinct, node by node. -/
theorem nodup_node : (keys (.node a l r)).Nodup ↔
    a ∉ keys l ∧ a ∉ keys r ∧ (keys l).Nodup ∧ (keys r).Nodup ∧ Disjoint (keys l) (keys r) := by
  rw [keys_node, Multiset.nodup_cons, Multiset.nodup_add, Multiset.mem_add]
  tauto

/-- `s` is the subtree of `t` at one of its nodes. -/
inductive Sub (s : BinaryTree α) : BinaryTree α → Prop where
  | here : Sub s s
  | left {a : α} {l r : BinaryTree α} (h : Sub s l) : Sub s (.node a l r)
  | right {a : α} {l r : BinaryTree α} (h : Sub s r) : Sub s (.node a l r)

/-- Every value has a subtree. -/
theorem exists_sub (h : b ∈ keys t) : ∃ l r, Sub (.node b l r) t := by
  induction t with
  | nil => simp at h
  | node a l r ihl ihr =>
    simp only [keys_node, Multiset.mem_cons, Multiset.mem_add] at h
    rcases h with rfl | h | h
    · exact ⟨l, r, .here⟩
    · obtain ⟨l', r', hs⟩ := ihl h
      exact ⟨l', r', .left hs⟩
    · obtain ⟨l', r', hs⟩ := ihr h
      exact ⟨l', r', .right hs⟩

theorem Sub.keys_le (h : Sub s t) : keys s ≤ keys t := by
  induction h with
  | here => exact le_rfl
  | left _ ih => exact (ih.trans (Multiset.le_add_right _ _)).trans (Multiset.le_cons_self _ _)
  | right _ ih => exact (ih.trans (Multiset.le_add_left _ _)).trans (Multiset.le_cons_self _ _)

theorem Sub.mem (h : Sub s t) (ha : a ∈ keys s) : a ∈ keys t := Multiset.mem_of_le h.keys_le ha

/-- A value occurs once, so the subtree at the top is the whole tree. -/
theorem Sub.eq_of_top (h : Sub (.node b l r) t) (hnd : (keys t).Nodup) (htop : top t = some b) : t = .node b l r := by
  cases h with
  | here => rfl
  | left h =>
    obtain rfl : _ = b := by simpa using htop
    exact absurd (h.mem (by simp)) (nodup_node.mp hnd).1
  | right h =>
    obtain rfl : _ = b := by simpa using htop
    exact absurd (h.mem (by simp)) (nodup_node.mp hnd).2.1

/-- The top of a tree is not below an inner node. -/
theorem Sub.top_notMem (h : Sub (.node b l r) t) (hnd : (keys t).Nodup) (hne : top t ≠ some b) (htop : top t = some a) :
    a ∉ keys (.node b l r) := by
  intro ha
  cases h with
  | here => exact hne rfl
  | left h =>
    obtain rfl : _ = a := by simpa using htop
    exact (nodup_node.mp hnd).1 (h.mem ha)
  | right h =>
    obtain rfl : _ = a := by simpa using htop
    exact (nodup_node.mp hnd).2.1 (h.mem ha)

/-! ## The operations -/

section Operations

variable [DecidableRel lt]

def merge (lt : α → α → Prop) [DecidableRel lt] : BinaryTree α → BinaryTree α → BinaryTree α
  | .nil, t                        => t
  | .node a l r, .nil              => .node a l r
  | .node a l r, .node b l' r'     =>
    if lt a b then .node a (merge lt r (.node b l' r')) l else .node b (merge lt (.node a l r) r') l'
termination_by s t => s.numNodes + t.numNodes
decreasing_by
  · simp only [BinaryTree.numNodes]
    omega
  · simp only [BinaryTree.numNodes]
    omega

@[simp] theorem merge_nil_left (t : BinaryTree α) : merge lt .nil t = t := by
  rw [merge.eq_def]

@[simp] theorem merge_nil_right (s : BinaryTree α) : merge lt s .nil = s := by
  cases s with
  | nil => simp
  | node a l r => rw [merge.eq_def]

/-- The smaller top goes on top, and its children change sides. -/
theorem merge_node_pos {l' r' : BinaryTree α} (h : lt a b) :
    merge lt (.node a l r) (.node b l' r') = .node a (merge lt r (.node b l' r')) l := by
  rw [merge.eq_def]
  simp [h]

theorem merge_node_neg {l' r' : BinaryTree α} (h : ¬ lt a b) :
    merge lt (.node a l r) (.node b l' r') = .node b (merge lt (.node a l r) r') l' := by
  rw [merge.eq_def]
  simp [h]

theorem keys_merge (lt : α → α → Prop) [DecidableRel lt] (s t : BinaryTree α) :
    keys (merge lt s t) = keys s + keys t := by
  induction s, t using merge.induct lt with
  | case1 t => simp
  | case2 a l r => simp
  | case3 a l r b l' r' h ih =>
    rw [merge_node_pos h]
    simp only [keys_node] at ih ⊢
    rw [ih, Multiset.cons_add, add_comm (keys l), add_right_comm]
  | case4 a l r b l' r' h ih =>
    rw [merge_node_neg h]
    simp only [keys_node] at ih ⊢
    rw [ih, Multiset.add_cons, add_comm (keys l') (keys r'), add_assoc]

/-- The top of a merge is one of the two tops. -/
theorem top_merge (h : top (merge lt s t) = some a) : top s = some a ∨ top t = some a := by
  cases s with
  | nil => exact .inr (by simpa using h)
  | node b l r =>
    cases t with
    | nil => exact .inl (by simpa using h)
    | node c l' r' =>
      by_cases hlt : lt b c
      · rw [merge_node_pos hlt] at h
        exact .inl h
      · rw [merge_node_neg hlt] at h
        exact .inr h

variable [DecidableEq α]

def remove (lt : α → α → Prop) [DecidableRel lt] (b : α) : BinaryTree α → BinaryTree α
  | .nil        => .nil
  | .node a l r => if a = b then merge lt l r else .node a (remove lt b l) (remove lt b r)

theorem remove_of_notMem (h : b ∉ keys t) : remove lt b t = t := by
  induction t with
  | nil => rfl
  | node a l r ihl ihr =>
    simp only [keys_node, Multiset.mem_cons, Multiset.mem_add, not_or] at h
    rw [remove, if_neg (Ne.symm h.1), ihl h.2.1, ihr h.2.2]

theorem remove_top : remove lt a (.node a l r) = merge lt l r := by
  simp [remove]

/-- Removing from one side leaves the other side as it is. -/
theorem remove_left (hnd : (keys (.node a l r)).Nodup) (hb : b ∈ keys l) :
    remove lt b (.node a l r) = .node a (remove lt b l) r := by
  obtain ⟨hal, -, -, -, hdisj⟩ := nodup_node.mp hnd
  have hne : a ≠ b := fun he => hal (he ▸ hb)
  rw [remove, if_neg hne, remove_of_notMem (Multiset.disjoint_left.mp hdisj hb)]

theorem remove_right (hnd : (keys (.node a l r)).Nodup) (hb : b ∈ keys r) :
    remove lt b (.node a l r) = .node a l (remove lt b r) := by
  obtain ⟨-, har, -, -, hdisj⟩ := nodup_node.mp hnd
  have hne : a ≠ b := fun he => har (he ▸ hb)
  rw [remove, if_neg hne, remove_of_notMem (Multiset.disjoint_right.mp hdisj hb)]

theorem keys_remove (lt : α → α → Prop) [DecidableRel lt] (hnd : (keys t).Nodup) (hb : b ∈ keys t) :
    b ::ₘ keys (remove lt b t) = keys t := by
  induction t with
  | nil => simp at hb
  | node a l r ihl ihr =>
    obtain ⟨-, -, hl, hr, -⟩ := nodup_node.mp hnd
    have hmem := hb
    simp only [keys_node, Multiset.mem_cons, Multiset.mem_add] at hmem
    rcases hmem with rfl | hmem | hmem
    · rw [remove_top, keys_merge, keys_node]
    · rw [remove_left hnd hmem, keys_node, keys_node, Multiset.cons_swap, ← Multiset.cons_add, ihl hl hmem]
    · rw [remove_right hnd hmem, keys_node, keys_node, Multiset.cons_swap, ← Multiset.add_cons, ihr hr hmem]

/-- A node below the top can go without the top changing. -/
theorem top_remove (h : top t ≠ some b) : top (remove lt b t) = top t := by
  cases t with
  | nil => rfl
  | node a l r =>
    have hne : a ≠ b := by simpa using h
    simp [remove, hne]

end Operations

/-! ## The order -/

/-- On the values in `M`, the test `lt` decides the preorder `le`. -/
structure Decides (lt le : α → α → Prop) (M : Multiset α) : Prop where
  of_lt : ∀ a ∈ M, ∀ b ∈ M, lt a b → le a b
  of_not_lt : ∀ a ∈ M, ∀ b ∈ M, ¬ lt a b → le b a
  trans : ∀ a ∈ M, ∀ b ∈ M, ∀ c ∈ M, le a b → le b c → le a c

namespace Decides

variable {M N : Multiset α}

theorem mono (h : Decides lt le M) (hN : ∀ x ∈ N, x ∈ M) : Decides lt le N where
  of_lt a ha b hb := h.of_lt a (hN a ha) b (hN b hb)
  of_not_lt a ha b hb := h.of_not_lt a (hN a ha) b (hN b hb)
  trans a ha b hb c hc := h.trans a (hN a ha) b (hN b hb) c (hN c hc)

theorem refl (h : Decides lt le M) (ha : a ∈ M) : le a a := by
  by_cases hlt : lt a a
  · exact h.of_lt a ha a ha hlt
  · exact h.of_not_lt a ha a ha hlt

end Decides

/-- No child is below its parent. -/
def Ordered (le : α → α → Prop) : BinaryTree α → Prop
  | .nil        => True
  | .node a l r => (∀ b ∈ top l, le a b) ∧ (∀ b ∈ top r, le a b) ∧ Ordered le l ∧ Ordered le r

/-- Only comparisons of values in the tree matter. -/
theorem Ordered.congr {le' : α → α → Prop} (hle : ∀ a ∈ keys t, ∀ b ∈ keys t, le a b → le' a b)
    (h : Ordered le t) : Ordered le' t := by
  induction t with
  | nil => trivial
  | node a l r ihl ihr =>
    obtain ⟨hal, har, hl, hr⟩ := h
    simp only [keys_node, Multiset.mem_cons, Multiset.mem_add] at hle
    refine ⟨fun b hb => ?_, fun b hb => ?_, ihl (fun x hx y hy => ?_) hl, ihr (fun x hx y hy => ?_) hr⟩
    · exact hle a (by simp) b (by simp [top_mem hb]) (hal b hb)
    · exact hle a (by simp) b (by simp [top_mem hb]) (har b hb)
    · exact hle x (by simp [hx]) y (by simp [hy])
    · exact hle x (by simp [hx]) y (by simp [hy])

/-- **The top is a minimum.** -/
theorem top_le (hd : Decides lt le (keys t)) (h : Ordered le t) (ha : top t = some a) (hb : b ∈ keys t) : le a b := by
  induction t generalizing a with
  | nil => simp at hb
  | node c l r ihl ihr =>
    obtain rfl : c = a := by simpa using ha
    obtain ⟨hal, har, hl, hr⟩ := h
    have hc : c ∈ keys (.node c l r) := by simp
    have hmem := hb
    simp only [keys_node, Multiset.mem_cons, Multiset.mem_add] at hmem
    rcases hmem with rfl | hmem | hmem
    · exact hd.refl hc
    · -- through the child on the left
      cases htop : top l with
      | none =>
        cases l with
        | nil => simp at hmem
        | node x l' r' => simp at htop
      | some x =>
        have hx : x ∈ keys (.node c l r) := by simp [top_mem htop]
        refine hd.trans c hc x hx b hb (hal x htop) ?_
        exact ihl (hd.mono fun y hy => by simp [hy]) hl htop hmem
    · cases htop : top r with
      | none =>
        cases r with
        | nil => simp at hmem
        | node x l' r' => simp at htop
      | some x =>
        have hx : x ∈ keys (.node c l r) := by simp [top_mem htop]
        refine hd.trans c hc x hx b hb (har x htop) ?_
        exact ihr (hd.mono fun y hy => by simp [hy]) hr htop hmem

section

variable [DecidableRel lt]

/-- **Merging keeps the order.** -/
theorem ordered_merge (hd : Decides lt le (keys s + keys t)) (hs : Ordered le s) (ht : Ordered le t) :
    Ordered le (merge lt s t) := by
  induction s, t using merge.induct lt with
  | case1 t => simpa using ht
  | case2 a l r => simpa using hs
  | case3 a l r b l' r' h ih =>
    rw [merge_node_pos h]
    obtain ⟨hal, har, hl, hr⟩ := hs
    have hd' : Decides lt le (keys r + keys (.node b l' r')) := hd.mono fun x hx => by
      simp only [keys_node, Multiset.mem_add, Multiset.mem_cons] at hx ⊢
      tauto
    refine ⟨fun c hc => ?_, hal, ih hd' hr ht, hl⟩
    rcases top_merge hc with hc | hc
    · exact har c hc
    · obtain rfl : b = c := by simpa using hc
      exact hd.of_lt a (by simp) b (by simp) h
  | case4 a l r b l' r' h ih =>
    rw [merge_node_neg h]
    obtain ⟨hbl, hbr, hl, hr⟩ := ht
    have hd' : Decides lt le (keys (.node a l r) + keys r') := hd.mono fun x hx => by
      simp only [keys_node, Multiset.mem_add, Multiset.mem_cons] at hx ⊢
      tauto
    refine ⟨fun c hc => ?_, hbl, ih hd' hs hr, hl⟩
    rcases top_merge hc with hc | hc
    · obtain rfl : a = c := by simpa using hc
      exact hd.of_not_lt a (by simp) b (by simp) h
    · exact hbr c hc

variable [DecidableEq α]

/-- **Removing keeps the order.** What moves up below `a` has been below the removed node. -/
theorem ordered_remove (hd : Decides lt le (keys t)) (h : Ordered le t) : Ordered le (remove lt b t) := by
  -- the new top of a subtree is still above nothing that the old one was not above
  have key : ∀ (a : α) (u : BinaryTree α), a ∈ keys t → (∀ x ∈ keys u, x ∈ keys t) → Ordered le u →
      (∀ c ∈ top u, le a c) → ∀ c ∈ top (remove lt b u), le a c := by
    intro a u ha hu hord htop c hc
    cases u with
    | nil => simp [remove] at hc
    | node x l r =>
      by_cases hx : x = b
      · subst hx
        rw [remove_top] at hc
        have hxt : x ∈ keys t := hu x (by simp)
        have hax : le a x := htop x rfl
        rcases top_merge hc with hc | hc
        · exact hd.trans a ha x hxt c (hu c (by simp [top_mem hc])) hax (hord.1 c hc)
        · exact hd.trans a ha x hxt c (hu c (by simp [top_mem hc])) hax (hord.2.1 c hc)
      · rw [top_remove (by simpa using hx)] at hc
        exact htop c hc
  induction t with
  | nil => trivial
  | node a l r ihl ihr =>
    have hal : ∀ x ∈ keys l, x ∈ keys (.node a l r) := fun x hx => by simp [hx]
    have har : ∀ x ∈ keys r, x ∈ keys (.node a l r) := fun x hx => by simp [hx]
    obtain ⟨htl, htr, hl, hr⟩ := h
    by_cases ha : a = b
    · subst ha
      rw [remove_top]
      exact ordered_merge (hd.mono fun x hx => by simp [Multiset.mem_add.mp hx]) hl hr
    · rw [remove, if_neg ha]
      have hkl : ∀ c u, c ∈ keys l → (∀ x ∈ keys u, x ∈ keys l) → Ordered le u →
          (∀ d ∈ top u, le c d) → ∀ d ∈ top (remove lt b u), le c d :=
        fun c u hc hu => key c u (hal c hc) fun x hx => hal x (hu x hx)
      have hkr : ∀ c u, c ∈ keys r → (∀ x ∈ keys u, x ∈ keys r) → Ordered le u →
          (∀ d ∈ top u, le c d) → ∀ d ∈ top (remove lt b u), le c d :=
        fun c u hc hu => key c u (har c hc) fun x hx => har x (hu x hx)
      refine ⟨?_, ?_, ihl (hd.mono hal) hl hkl, ihr (hd.mono har) hr hkr⟩
      · exact key a l (by simp) hal hl htl
      · exact key a r (by simp) har hr htr

end

end Ucore.SkewTree
