import Mathlib.Data.List.Basic
import Mathlib.Logic.Function.Iterate

/-!
# `Lib.Ring` — the shape of a circular list followed through one pointer

`Seg f a l b` says that following `f` from `a` visits exactly `l` and then arrives at `b`; a ring
through the head `h` is `Seg f h l h`. The lemmas are the ones a pointer program needs: splitting a
segment at a member, what the first and the last link are, changing one link, and that everything
reachable from the head lies on the ring.
-/

namespace Ucore

variable {α : Type} {f g : α → α}

/-- Following `f` from `a` visits the list `l` in order and then reaches `b`. -/
def Seg (f : α → α) : α → List α → α → Prop
  | a, [], b => f a = b
  | a, x :: l, b => f a = x ∧ Seg f x l b

namespace Seg

@[simp] theorem nil {a b : α} : Seg f a [] b ↔ f a = b := Iff.rfl

@[simp] theorem cons {a b x : α} {l : List α} : Seg f a (x :: l) b ↔ f a = x ∧ Seg f x l b := Iff.rfl

/-- A segment splits at any of its members. -/
theorem append {a b x : α} {l₁ l₂ : List α} :
    Seg f a (l₁ ++ x :: l₂) b ↔ Seg f a l₁ x ∧ Seg f x l₂ b := by
  induction l₁ generalizing a with
  | nil => simp
  | cons y ys ih => simp only [List.cons_append, cons, ih, and_assoc]

/-- The first hop. -/
theorem head {a b : α} {l : List α} (h : Seg f a l b) : f a = l.headD b := by
  cases l with
  | nil => exact h
  | cons x l => exact h.1

/-- The last hop. -/
theorem last {a b : α} {l : List α} (h : Seg f a l b) : f (l.getLastD a) = b := by
  induction l generalizing a with
  | nil => exact h
  | cons x l ih => rw [List.getLastD_cons]; exact ih h.2

/-- Only the links of `a` and of the members of `l` matter. -/
theorem congr {a b : α} {l : List α} (hfg : ∀ y ∈ a :: l, g y = f y) (h : Seg f a l b) :
    Seg g a l b := by
  induction l generalizing a with
  | nil => exact (hfg a (by simp)).trans h
  | cons x l ih =>
    obtain ⟨hx, hl⟩ := h
    refine ⟨(hfg a (by simp)).trans hx, ih (fun y hy => hfg y ?_) hl⟩
    exact List.mem_cons_of_mem _ hy

/-- Redirecting the last link moves the end of the segment. -/
theorem redirect [DecidableEq α] {a b c : α} {l : List α} (hnd : (a :: l).Nodup) (h : Seg f a l b) :
    Seg (Function.update f (l.getLastD a) c) a l c := by
  induction l generalizing a with
  | nil => simp [Function.update]
  | cons x l ih =>
    obtain ⟨hx, hl⟩ := h
    have hne : a ≠ l.getLastD x := by
      intro he
      have : l.getLastD x ∈ x :: l := List.getLastD_mem_cons
      rw [← he] at this
      exact (List.nodup_cons.mp hnd).1 this
    rw [List.getLastD_cons]
    refine ⟨?_, ih (List.nodup_cons.mp hnd).2 hl⟩
    rw [Function.update_of_ne hne]; exact hx

/-- Everything that iterating `f` from `a` reaches before `b`, or on the way back to `a`, is listed. -/
theorem iterate_mem {a : α} {l : List α} (h : Seg f a l a) (k : Nat) : f^[k] a ∈ a :: l := by
  have key : ∀ (m : List α) (x : α), Seg f x m a → (∀ y ∈ x :: m, f y ∈ a :: (x :: m)) := by
    intro m
    induction m with
    | nil => intro x hx y hy; rw [List.mem_singleton.mp hy, hx]; simp
    | cons z m ih =>
      intro x hx y hy
      rcases List.mem_cons.mp hy with rfl | hy
      · rw [hx.1]; simp
      · have := ih z hx.2 y hy
        rcases List.mem_cons.mp this with h' | h'
        · rw [h']; simp
        · exact List.mem_cons_of_mem _ (List.mem_cons_of_mem _ h')
  induction k with
  | zero => simp
  | succ k ih =>
    rw [Function.iterate_succ_apply']
    have := key l a h _ ih
    rcases List.mem_cons.mp this with h' | h'
    · rw [h']; simp
    · exact h'

/-- Conversely every listed entry is reached by iterating `f`. -/
theorem exists_iterate {a b x : α} {l : List α} (h : Seg f a l b) (hx : x ∈ l) :
    ∃ k, f^[k] a = x := by
  induction l generalizing a with
  | nil => exact absurd hx (by simp)
  | cons y l ih =>
    rcases List.mem_cons.mp hx with rfl | hx
    · exact ⟨1, h.1⟩
    · obtain ⟨k, hk⟩ := ih h.2 hx
      exact ⟨k + 1, by rw [Function.iterate_succ_apply, h.1, hk]⟩

/-! ## Insertion and removal on a ring -/

/-- Linking the fresh entry `x` behind the segment `l₁` puts it between `l₁` and `l₂`. -/
theorem insert [DecidableEq α] {a b x : α} {l₁ l₂ : List α} (hnd : (a :: (l₁ ++ l₂)).Nodup)
    (hx : x ∉ a :: (l₁ ++ l₂)) (h : Seg f a (l₁ ++ l₂) b) :
    Seg (Function.update (Function.update f (l₁.getLastD a) x) x (l₂.headD b)) a (l₁ ++ x :: l₂) b := by
  have hx₁ : x ∉ a :: l₁ := fun hm => hx (by
    rcases List.mem_cons.mp hm with rfl | hm
    · simp
    · exact List.mem_cons_of_mem _ (List.mem_append_left _ hm))
  have hx₂ : x ∉ l₂ := fun hm => hx (List.mem_cons_of_mem _ (List.mem_append_right _ hm))
  have hnd₁ : (a :: l₁).Nodup := by
    refine hnd.sublist ?_
    exact List.Sublist.cons_cons _ (List.sublist_append_left _ _)
  have hlast : l₁.getLastD a ∈ a :: l₁ := List.getLastD_mem_cons
  have hseg₁ : ∃ c, Seg f a l₁ c := by
    cases l₂ with
    | nil => exact ⟨b, by simpa using h⟩
    | cons y l₂ => exact ⟨y, (append.mp h).1⟩
  obtain ⟨c, hseg₁⟩ := hseg₁
  rw [append]
  constructor
  · refine congr (fun y hy => ?_) (redirect (c := x) hnd₁ hseg₁)
    exact Function.update_of_ne (fun he => hx₁ (by rw [← he]; exact hy)) _ _
  · cases l₂ with
    | nil => simp [Function.update]
    | cons y l₂ =>
      refine ⟨by simp [Function.update], congr (fun z hz => ?_) (append.mp h).2⟩
      have hzx : z ≠ x := fun he => hx₂ (by rw [← he]; exact hz)
      have hzl : z ≠ l₁.getLastD a := by
        intro he
        have hz' : z ∈ a :: l₁ := by rw [he]; exact hlast
        have hd := List.nodup_cons.mp hnd
        rcases List.mem_cons.mp hz' with rfl | hz'
        · exact hd.1 (List.mem_append_right _ hz)
        · exact (List.nodup_append.mp hd.2).2.2 z hz' z hz rfl
      rw [Function.update_of_ne hzx, Function.update_of_ne hzl]

/-- Redirecting the link behind `l₁` over `x` takes `x` off the ring. -/
theorem remove [DecidableEq α] {a b x : α} {l₁ l₂ : List α} (hnd : (a :: (l₁ ++ x :: l₂)).Nodup)
    (h : Seg f a (l₁ ++ x :: l₂) b) :
    Seg (Function.update f (l₁.getLastD a) (l₂.headD b)) a (l₁ ++ l₂) b := by
  obtain ⟨h₁, h₂⟩ := append.mp h
  have hnd₁ : (a :: l₁).Nodup := by
    refine hnd.sublist ?_
    exact List.Sublist.cons_cons _ (List.sublist_append_left _ _)
  have hlast : l₁.getLastD a ∈ a :: l₁ := List.getLastD_mem_cons
  cases l₂ with
  | nil => rw [List.append_nil]; exact redirect hnd₁ h₁
  | cons y l₂ =>
    rw [append]
    refine ⟨redirect hnd₁ h₁, congr (fun z hz => ?_) h₂.2⟩
    have hzl : z ≠ l₁.getLastD a := by
      intro he
      have hz' : z ∈ a :: l₁ := by rw [he]; exact hlast
      have hd := List.nodup_cons.mp hnd
      rcases List.mem_cons.mp hz' with rfl | hz'
      · exact hd.1 (List.mem_append_right _ (List.mem_cons_of_mem _ hz))
      · exact (List.nodup_append.mp hd.2).2.2 z hz' z (List.mem_cons_of_mem _ hz) rfl
    exact Function.update_of_ne hzl _ _

end Seg

/-! ## Back pointers that may be stale

A doubly linked ring whose `prev` side is not fully maintained: an entry points back either at its
predecessor or at itself. -/

/-- Every entry of `l`, listed behind `a`, points back at its predecessor or at itself. -/
def Back (p : α → α) : α → List α → Prop
  | _, [] => True
  | a, x :: l => (p x = a ∨ p x = x) ∧ Back p x l

namespace Back

variable {p q : α → α}

theorem append {a : α} {l₁ l₂ : List α} :
    Back p a (l₁ ++ l₂) ↔ Back p a l₁ ∧ Back p (l₁.getLastD a) l₂ := by
  induction l₁ generalizing a with
  | nil => simp [Back]
  | cons x l₁ ih => simp only [List.cons_append, Back, ih, List.getLastD_cons, and_assoc]

theorem congr {a : α} {l : List α} (hpq : ∀ y ∈ l, q y = p y) (h : Back p a l) : Back q a l := by
  induction l generalizing a with
  | nil => trivial
  | cons x l ih =>
    refine ⟨?_, ih (fun y hy => hpq y (List.mem_cons_of_mem _ hy)) h.2⟩
    rw [hpq x (by simp)]; exact h.1

/-- Any entry may go stale. -/
theorem update_self [DecidableEq α] {a x : α} {l : List α} (h : Back p a l) :
    Back (Function.update p x x) a l := by
  induction l generalizing a with
  | nil => trivial
  | cons y l ih =>
    refine ⟨?_, ih h.2⟩
    by_cases hy : y = x
    · subst hy; exact Or.inr (Function.update_self ..)
    · rw [Function.update_of_ne hy]; exact h.1

/-- The back pointer of a member, once it is known not to be stale. -/
theorem pred {a x : α} {l₁ l₂ : List α} (h : Back p a (l₁ ++ x :: l₂)) (hx : p x ≠ x) :
    p x = l₁.getLastD a :=
  (append.mp h).2.1.resolve_right hx

/-- The back side of linking a fresh `x` between `l₁` and `l₂`, with `x` pointing at `l₁`'s end. -/
theorem insert [DecidableEq α] {a b x : α} {l₁ l₂ : List α} (hnd : (l₁ ++ l₂).Nodup)
    (hb : b ∉ l₁ ++ l₂) (hx : x ∉ l₁ ++ l₂) (h : Back p a (l₁ ++ l₂)) :
    Back (Function.update (Function.update p (l₂.headD b) x) x (l₁.getLastD a)) a
      (l₁ ++ x :: l₂) := by
  obtain ⟨h₁, h₂⟩ := append.mp h
  rw [append]
  constructor
  · refine congr (fun y hy => ?_) h₁
    have hyx : y ≠ x := fun he => hx (by rw [← he]; exact List.mem_append_left _ hy)
    have hys : y ≠ l₂.headD b := by
      cases l₂ with
      | nil =>
        rintro rfl
        exact hb (List.mem_append_left _ hy)
      | cons z l₂ =>
        exact fun he => (List.nodup_append.mp hnd).2.2 y hy z (by simp) he
    rw [Function.update_of_ne hyx, Function.update_of_ne hys]
  · refine ⟨Or.inl (by simp), ?_⟩
    cases l₂ with
    | nil => trivial
    | cons z l₂ =>
      have hzx : z ≠ x := fun he => hx (by rw [← he]; simp)
      refine ⟨Or.inl (by simp [Function.update_of_ne hzx]), congr (fun y hy => ?_) h₂.2⟩
      have hyx : y ≠ x := fun he => hx (by rw [← he]; simp [hy])
      have hyz : y ≠ z := by
        rintro rfl
        exact (List.nodup_cons.mp (List.nodup_append.mp hnd).2.1).1 hy
      rw [Function.update_of_ne hyx, List.headD_cons, Function.update_of_ne hyz]

/-- The back side of unlinking `x`: its successor now points at the end of `l₁`. -/
theorem remove [DecidableEq α] {a b x : α} {l₁ l₂ : List α} (hnd : (l₁ ++ x :: l₂).Nodup)
    (hb : b ∉ l₁ ++ x :: l₂) (h : Back p a (l₁ ++ x :: l₂)) :
    Back (Function.update p (l₂.headD b) (l₁.getLastD a)) a (l₁ ++ l₂) := by
  obtain ⟨h₁, h₂⟩ := append.mp h
  rw [append]
  constructor
  · refine congr (fun y hy => ?_) h₁
    have hys : y ≠ l₂.headD b := by
      cases l₂ with
      | nil =>
        rintro rfl
        exact hb (List.mem_append_left _ hy)
      | cons z l₂ =>
        exact fun he => (List.nodup_append.mp hnd).2.2 y hy z (by simp) he
    exact Function.update_of_ne hys _ _
  · cases l₂ with
    | nil => trivial
    | cons z l₂ =>
      refine ⟨Or.inl (by simp), congr (fun y hy => ?_) h₂.2.2⟩
      have hyz : y ≠ z := by
        rintro rfl
        have := (List.nodup_append.mp hnd).2.1
        exact (List.nodup_cons.mp (List.nodup_cons.mp this).2).1 hy
      rw [List.headD_cons, Function.update_of_ne hyz]

end Back

end Ucore
