import Mathlib.Algebra.Group.Int.Defs
import Mathlib.Algebra.Group.Nat.Defs
import Mathlib.Logic.Function.Basic
import Mathlib.Order.Defs.Unbundled

/-!
# `Lib.Proc` — programs that return, fail with a code, or stop the machine

A kernel function ends in one of three ways: it returns a value, it returns an error code (having
changed the state on the way, nothing is rolled back), or it runs into a failed assertion and the whole
machine stops. `Proc π ε σ α` is the state monad with exactly these three endings.

## Contents
- **The monad.** `Outcome`, `Proc`, the primitives `get`/`put`/`modify`/`fail`/`stop`/`check`, error
  capture `attempt`, the `goto failed_cleanup` shape `onErr`, and `zoom` and `within` into a component of the state.
- **Symbolic execution.** One simp equation per primitive applied to a state, and the inversion lemmas
  `bind_eq_ok`/`bind_eq_err`/`bind_eq_panic` that peel a computation off the front.
- **Evaluation.** `Outcome.test`, `Outcome.testErr` and `Outcome.left` run a call on a concrete state.
- **The relational rule.** `Keeps r m`: whatever `m` does, if it returns or fails then `r` relates the
  states before and after. For a preorder `r` this composes, so a frame property of a long function
  follows from its primitives.
- **Postconditions.** `Outcome.Post Q E`: what holds when the call returns, and when it fails.
- **Ends.** `Outcome.Ends Q P`: the state of a call that returns or fails, and the assertion of one that stops.
- **All endings.** `Outcome.EndsIn s`; `Outcome.Meets Q E P`: one condition for each of the three.
- **Error codes and assertions.** `Fails Q P m`: what every error code, and every failed assertion, satisfies;
  `FailsUnder I Q m`: what every error code satisfies where the state has an invariant.
-/

namespace Ucore

/-- How a call ends: a value, an error code, or a stopped machine (no state is left to speak of). -/
inductive Outcome (π ε σ α : Type) where
  | ok (a : α) (s : σ)
  | err (e : ε) (s : σ)
  | panic (p : π)

/-- A program over the state `σ`. -/
def Proc (π ε σ α : Type) : Type := σ → Outcome π ε σ α

namespace Proc

variable {π ε σ τ α β : Type}

/-- Sequencing: the first error or panic ends the computation. -/
def bind (x : Proc π ε σ α) (f : α → Proc π ε σ β) : Proc π ε σ β := fun s =>
  match x s with
  | .ok a s'  => f a s'
  | .err e s' => .err e s'
  | .panic p  => .panic p

instance : Monad (Proc π ε σ) where
  pure a := fun s => .ok a s
  bind := Proc.bind

/-- The current state. -/
def get : Proc π ε σ σ := fun s => .ok s s

/-- Replace the state. -/
def put (s' : σ) : Proc π ε σ Unit := fun _ => .ok () s'

/-- Change the state. -/
def modify (f : σ → σ) : Proc π ε σ Unit := fun s => .ok () (f s)

/-- Return an error code. -/
def fail (e : ε) : Proc π ε σ α := fun s => .err e s

/-- Stop the machine. -/
def stop (p : π) : Proc π ε σ α := fun _ => .panic p

/-- `assert(c)`: stop the machine with `p` unless `c`. -/
def check (p : π) (c : Prop) [Decidable c] : Proc π ε σ Unit := fun s =>
  if c then .ok () s else .panic p

/-- Run `x` and hand its error code back as a value; the state stays as `x` left it. -/
def attempt (x : Proc π ε σ α) : Proc π ε σ (Except ε α) := fun s =>
  match x s with
  | .ok a s'  => .ok (.ok a) s'
  | .err e s' => .ok (.error e) s'
  | .panic p  => .panic p

/-- Run `x`; when it fails, run `undo` and then fail with the same code. -/
def onErr (x : Proc π ε σ α) (undo : Proc π ε σ Unit) : Proc π ε σ α := fun s =>
  match x s with
  | .ok a s'  => .ok a s'
  | .err e s' =>
    match undo s' with
    | .ok _ s''  => .err e s''
    | .err _ s'' => .err e s''
    | .panic p   => .panic p
  | .panic p  => .panic p

/-- Run a program over the component `g s` of the state and store the component back with `u`. -/
def zoom (g : σ → τ) (u : τ → σ → σ) (x : Proc π ε τ α) : Proc π ε σ α := fun s =>
  match x (g s) with
  | .ok a t  => .ok a (u t s)
  | .err e t => .err e (u t s)
  | .panic p => .panic p

/-- Run a program of another part of the machine, with assertions of its own, over the component `g s` of the state. -/
def within {π' : Type} (g : σ → τ) (u : τ → σ → σ) (k : π' → π) (x : Proc π' ε τ α) : Proc π ε σ α := fun s =>
  match x (g s) with
  | .ok a t  => .ok a (u t s)
  | .err e t => .err e (u t s)
  | .panic p => .panic (k p)

/-! ## Symbolic execution -/

@[simp] theorem pure_run (a : α) (s : σ) : (pure a : Proc π ε σ α) s = .ok a s := rfl
@[simp] theorem get_run (s : σ) : (get : Proc π ε σ σ) s = .ok s s := rfl
@[simp] theorem put_run (s s' : σ) : (put s' : Proc π ε σ Unit) s = .ok () s' := rfl
@[simp] theorem modify_run (f : σ → σ) (s : σ) :
    (modify f : Proc π ε σ Unit) s = .ok () (f s) := rfl
@[simp] theorem fail_run (e : ε) (s : σ) : (fail e : Proc π ε σ α) s = .err e s := rfl
@[simp] theorem stop_run (p : π) (s : σ) : (stop p : Proc π ε σ α) s = .panic p := rfl

theorem bind_run (x : Proc π ε σ α) (f : α → Proc π ε σ β) (s : σ) :
    (x >>= f) s = match x s with
      | .ok a s'  => f a s'
      | .err e s' => .err e s'
      | .panic p  => .panic p := rfl

@[simp] theorem pure_bind' (a : α) (f : α → Proc π ε σ β) (s : σ) : (pure a >>= f) s = f a s := rfl
@[simp] theorem get_bind (f : σ → Proc π ε σ β) (s : σ) : (get >>= f) s = f s s := rfl
@[simp] theorem put_bind (s' : σ) (f : Unit → Proc π ε σ β) (s : σ) :
    (put s' >>= f) s = f () s' := rfl
@[simp] theorem modify_bind (g : σ → σ) (f : Unit → Proc π ε σ β) (s : σ) :
    (modify g >>= f) s = f () (g s) := rfl
@[simp] theorem fail_bind (e : ε) (f : α → Proc π ε σ β) (s : σ) :
    (fail e >>= f) s = .err e s := rfl
@[simp] theorem stop_bind (p : π) (f : α → Proc π ε σ β) (s : σ) :
    (stop p >>= f) s = .panic p := rfl

theorem check_run_pos {p : π} {c : Prop} [Decidable c] (h : c) (s : σ) :
    (check p c : Proc π ε σ Unit) s = .ok () s := if_pos h

theorem check_run_neg {p : π} {c : Prop} [Decidable c] (h : ¬ c) (s : σ) :
    (check p c : Proc π ε σ Unit) s = .panic p := if_neg h

theorem bind_ok {x : Proc π ε σ α} {f : α → Proc π ε σ β} {s s' : σ} {a : α}
    (h : x s = .ok a s') : (x >>= f) s = f a s' := by
  rw [bind_run, h]

theorem bind_err {x : Proc π ε σ α} {f : α → Proc π ε σ β} {s s' : σ} {e : ε}
    (h : x s = .err e s') : (x >>= f) s = .err e s' := by
  rw [bind_run, h]

theorem bind_panic {x : Proc π ε σ α} {f : α → Proc π ε σ β} {s : σ} {p : π}
    (h : x s = .panic p) : (x >>= f) s = .panic p := by
  rw [bind_run, h]

theorem check_bind_pos {p : π} {c : Prop} [Decidable c] (h : c) (f : Unit → Proc π ε σ β) (s : σ) :
    (check p c >>= f) s = f () s := bind_ok (check_run_pos h s)

theorem check_bind_neg {p : π} {c : Prop} [Decidable c] (h : ¬ c) (f : Unit → Proc π ε σ β) (s : σ) :
    (check p c >>= f) s = .panic p := bind_panic (check_run_neg h s)

/-! ## Inversion -/

theorem bind_eq_ok {x : Proc π ε σ α} {f : α → Proc π ε σ β} {s s' : σ} {b : β} :
    (x >>= f) s = .ok b s' ↔ ∃ a s₁, x s = .ok a s₁ ∧ f a s₁ = .ok b s' := by
  rw [bind_run]
  cases x s with
  | ok a s₁ => simp [and_assoc]
  | err e s₁ => simp
  | panic p => simp

theorem bind_eq_err {x : Proc π ε σ α} {f : α → Proc π ε σ β} {s s' : σ} {e : ε} :
    (x >>= f) s = .err e s' ↔
      x s = .err e s' ∨ ∃ a s₁, x s = .ok a s₁ ∧ f a s₁ = .err e s' := by
  rw [bind_run]
  cases x s with
  | ok a s₁ => simp [and_assoc]
  | err e s₁ => simp
  | panic p => simp

theorem bind_eq_panic {x : Proc π ε σ α} {f : α → Proc π ε σ β} {s : σ} {p : π} :
    (x >>= f) s = .panic p ↔
      x s = .panic p ∨ ∃ a s₁, x s = .ok a s₁ ∧ f a s₁ = .panic p := by
  rw [bind_run]
  cases x s with
  | ok a s₁ => simp [and_assoc]
  | err e s₁ => simp
  | panic q => simp

@[simp] theorem check_eq_ok {p : π} {c : Prop} [Decidable c] {s s' : σ} {u : Unit} :
    (check p c : Proc π ε σ Unit) s = .ok u s' ↔ c ∧ s' = s := by
  unfold check
  by_cases h : c <;> simp [h, eq_comm]

@[simp] theorem check_ne_err {p : π} {c : Prop} [Decidable c] {s s' : σ} {e : ε} :
    (check p c : Proc π ε σ Unit) s ≠ .err e s' := by
  unfold check
  by_cases h : c <;> simp [h]

@[simp] theorem check_eq_panic {p q : π} {c : Prop} [Decidable c] {s : σ} :
    (check p c : Proc π ε σ Unit) s = .panic q ↔ ¬ c ∧ q = p := by
  unfold check
  by_cases h : c <;> simp [h, eq_comm]

theorem attempt_ok {x : Proc π ε σ α} {s s' : σ} {a : α} (h : x s = .ok a s') :
    attempt x s = .ok (.ok a) s' := by
  simp only [attempt, h]

theorem attempt_err {x : Proc π ε σ α} {s s' : σ} {e : ε} (h : x s = .err e s') :
    attempt x s = .ok (.error e) s' := by
  simp only [attempt, h]

theorem attempt_panic {x : Proc π ε σ α} {s : σ} {p : π} (h : x s = .panic p) :
    attempt x s = .panic p := by
  simp only [attempt, h]

theorem attempt_eq_ok {x : Proc π ε σ α} {s s' : σ} {a : α} : attempt x s = .ok (.ok a) s' ↔ x s = .ok a s' := by
  unfold attempt
  cases x s <;> simp

theorem onErr_ok {x : Proc π ε σ α} {undo : Proc π ε σ Unit} {s s' : σ} {a : α}
    (h : x s = .ok a s') : onErr x undo s = .ok a s' := by
  simp only [onErr, h]

theorem onErr_panic {x : Proc π ε σ α} {undo : Proc π ε σ Unit} {s : σ} {p : π}
    (h : x s = .panic p) : onErr x undo s = .panic p := by
  simp only [onErr, h]

theorem onErr_err {x : Proc π ε σ α} {undo : Proc π ε σ Unit} {s s' s'' : σ} {e : ε} {u : Unit}
    (h : x s = .err e s') (hu : undo s' = .ok u s'') : onErr x undo s = .err e s'' := by
  simp only [onErr, h, hu]

theorem onErr_eq_ok {x : Proc π ε σ α} {undo : Proc π ε σ Unit} {s s' : σ} {a : α} :
    onErr x undo s = .ok a s' ↔ x s = .ok a s' := by
  unfold onErr
  cases x s with
  | ok b s₁ => rfl
  | panic p => rfl
  | err e s₁ =>
    dsimp only
    cases undo s₁ <;> simp

theorem within_eq_ok {π' : Type} {g : σ → τ} {u : τ → σ → σ} {k : π' → π} {x : Proc π' ε τ α} {s s' : σ} {a : α} :
    within g u k x s = .ok a s' ↔ ∃ t, x (g s) = .ok a t ∧ s' = u t s := by
  unfold within
  cases x (g s) with
  | ok b t => simp [and_assoc, eq_comm]
  | err e t => simp
  | panic p => simp

theorem zoom_ok {g : σ → τ} {u : τ → σ → σ} {x : Proc π ε τ α} {s : σ} {t : τ} {a : α}
    (h : x (g s) = .ok a t) : zoom g u x s = .ok a (u t s) := by
  simp only [zoom, h]

theorem zoom_err {g : σ → τ} {u : τ → σ → σ} {x : Proc π ε τ α} {s : σ} {t : τ} {e : ε}
    (h : x (g s) = .err e t) : zoom g u x s = .err e (u t s) := by
  simp only [zoom, h]

theorem zoom_panic {g : σ → τ} {u : τ → σ → σ} {x : Proc π ε τ α} {s : σ} {p : π}
    (h : x (g s) = .panic p) : zoom g u x s = .panic p := by
  simp only [zoom, h]

end Proc

/-! ## Evaluation -/

/-- Whether a call returns, with a value and a state that pass `p`. -/
def Outcome.test {π ε σ α : Type} (p : α → σ → Bool) : Outcome π ε σ α → Bool
  | .ok a s  => p a s
  | .err _ _ => false
  | .panic _ => false

theorem Outcome.exists_of_test {π ε σ α : Type} {p : α → σ → Bool} {o : Outcome π ε σ α}
    (h : o.test p = true) : ∃ a s, o = .ok a s ∧ p a s = true := by
  cases o with
  | ok a s => exact ⟨a, s, rfl, h⟩
  | err e s => exact Bool.noConfusion h
  | panic p => exact Bool.noConfusion h

/-- Whether a call fails, with a code and a state that pass `p`. -/
def Outcome.testErr {π ε σ α : Type} (p : ε → σ → Bool) : Outcome π ε σ α → Bool
  | .ok _ _  => false
  | .err e s => p e s
  | .panic _ => false

theorem Outcome.exists_of_testErr {π ε σ α : Type} {p : ε → σ → Bool} {o : Outcome π ε σ α}
    (h : o.testErr p = true) : ∃ e s, o = .err e s ∧ p e s = true := by
  cases o with
  | ok a s => exact Bool.noConfusion h
  | err e s => exact ⟨e, s, rfl, h⟩
  | panic p => exact Bool.noConfusion h

/-- The state a call leaves behind; the one it started from if it stops the machine. -/
def Outcome.left {π ε σ α : Type} (s : σ) : Outcome π ε σ α → σ
  | .ok _ s'  => s'
  | .err _ s' => s'
  | .panic _  => s

/-! ## The relational rule -/

/-- `Q` holds of the state a call leaves behind, if it leaves one. -/
def Outcome.Leaves {π ε σ α : Type} (Q : σ → Prop) : Outcome π ε σ α → Prop
  | .ok _ s  => Q s
  | .err _ s => Q s
  | .panic _ => True

namespace Outcome.Leaves

variable {π ε σ α β : Type} {Q Q' : σ → Prop} {s : σ}

theorem of_ok {o : Outcome π ε σ α} (h : o.Leaves Q) {a : α} (ho : o = .ok a s) : Q s := by
  rw [ho] at h
  exact h

theorem of_err {o : Outcome π ε σ α} (h : o.Leaves Q) {e : ε} (ho : o = .err e s) : Q s := by
  rw [ho] at h
  exact h

theorem imp {o : Outcome π ε σ α} (h : o.Leaves Q) (hq : ∀ s, Q s → Q' s) : o.Leaves Q' := by
  cases o with
  | ok a s => exact hq s h
  | err e s => exact hq s h
  | panic p => trivial

/-- Sequencing: the second part starts in a state with `Q`. -/
theorem bind {x : Proc π ε σ α} {f : α → Proc π ε σ β} (hx : (x s).Leaves Q) (hf : ∀ a s', Q s' → (f a s').Leaves Q) :
    ((x >>= f) s).Leaves Q := by
  cases hxs : x s with
  | ok a s' =>
    rw [Proc.bind_ok hxs]
    exact hf a s' (hx.of_ok hxs)
  | err e s' =>
    rw [Proc.bind_err hxs]
    exact hx.of_err hxs
  | panic p =>
    rw [Proc.bind_panic hxs]
    trivial

theorem onErr {x : Proc π ε σ α} {undo : Proc π ε σ Unit} (hx : (x s).Leaves Q)
    (hu : ∀ s', Q s' → (undo s').Leaves Q) : (Proc.onErr x undo s).Leaves Q := by
  unfold Proc.onErr
  cases hxs : x s with
  | ok a s' => exact hx.of_ok hxs
  | panic p => trivial
  | err e s' =>
    have hu' := hu s' (hx.of_err hxs)
    show Outcome.Leaves Q (match undo s' with
      | .ok _ s'' => .err e s''
      | .err _ s'' => .err e s''
      | .panic p => .panic p)
    cases hus : undo s' with
    | ok b s'' => exact hu'.of_ok hus
    | err e' s'' => exact hu'.of_err hus
    | panic p => trivial

end Outcome.Leaves

/-- Whatever `m` returns, `r` relates the state before to the state after. -/
def Keeps {π ε σ α : Type} (r : σ → σ → Prop) (m : Proc π ε σ α) : Prop :=
  ∀ s, (m s).Leaves (r s)

namespace Keeps

variable {π ε σ τ α β : Type} {r : σ → σ → Prop}

theorem ok {m : Proc π ε σ α} {s s' : σ} {a : α} (h : Keeps r m) (hm : m s = .ok a s') : r s s' := by
  have := h s
  rwa [hm] at this

theorem err {m : Proc π ε σ α} {s s' : σ} {e : ε} (h : Keeps r m) (hm : m s = .err e s') :
    r s s' := by
  have := h s
  rwa [hm] at this

theorem of_pure [Std.Refl r] (a : α) : Keeps r (pure a : Proc π ε σ α) := fun s => refl_of r s

theorem of_get [Std.Refl r] : Keeps r (Proc.get : Proc π ε σ σ) := fun s => refl_of r s

theorem of_modify {f : σ → σ} (h : ∀ s, r s (f s)) : Keeps r (Proc.modify f : Proc π ε σ Unit) := h

theorem of_fail [Std.Refl r] (e : ε) : Keeps r (Proc.fail e : Proc π ε σ α) := fun s => refl_of r s

theorem of_stop (p : π) : Keeps r (Proc.stop p : Proc π ε σ α) := fun _ => trivial

theorem of_check [Std.Refl r] (p : π) (c : Prop) [Decidable c] :
    Keeps r (Proc.check p c : Proc π ε σ Unit) := by
  intro s
  unfold Proc.check
  by_cases h : c
  · rw [if_pos h]; exact refl_of r s
  · rw [if_neg h]; trivial

/-- Sequencing composes the relation. -/
theorem bind [IsTrans σ r] {x : Proc π ε σ α} {f : α → Proc π ε σ β} (hx : Keeps r x)
    (hf : ∀ a, Keeps r (f a)) : Keeps r (x >>= f) := by
  intro s
  cases h : x s with
  | ok a s₁ =>
    have h1 : r s s₁ := hx.ok h
    rw [Proc.bind_ok h]
    cases h' : f a s₁ with
    | ok b s₂ => exact trans_of r h1 ((hf a).ok h')
    | err e s₂ => exact trans_of r h1 ((hf a).err h')
    | panic p => trivial
  | err e s₁ => rw [Proc.bind_err h]; exact hx.err h
  | panic p => rw [Proc.bind_panic h]; trivial

theorem attempt {x : Proc π ε σ α} (hx : Keeps r x) : Keeps r (Proc.attempt x) := by
  intro s
  unfold Proc.attempt
  cases h : x s with
  | ok a s₁ => exact hx.ok h
  | err e s₁ => exact hx.err h
  | panic p => trivial

theorem onErr [IsTrans σ r] {x : Proc π ε σ α} {undo : Proc π ε σ Unit} (hx : Keeps r x)
    (hu : Keeps r undo) : Keeps r (Proc.onErr x undo) := by
  intro s
  unfold Proc.onErr
  cases h : x s with
  | ok a s₁ => exact hx.ok h
  | err e s₁ =>
    have h1 : r s s₁ := hx.err h
    show Outcome.Leaves (r s) (match undo s₁ with
      | .ok _ s'' => .err e s''
      | .err _ s'' => .err e s''
      | .panic p => .panic p)
    cases h' : undo s₁ with
    | ok b s₂ => exact trans_of r h1 (hu.ok h')
    | err e' s₂ => exact trans_of r h1 (hu.err h')
    | panic p => trivial
  | panic p => trivial

theorem zoom {g : σ → τ} {u : τ → σ → σ} {x : Proc π ε τ α} {q : τ → τ → Prop}
    (hx : Keeps q x) (hq : ∀ s t, q (g s) t → r s (u t s)) : Keeps r (Proc.zoom g u x) := by
  intro s
  unfold Proc.zoom
  cases h : x (g s) with
  | ok a t => exact hq s t (hx.ok h)
  | err e t => exact hq s t (hx.err h)
  | panic p => trivial

theorem within {π' : Type} {g : σ → τ} {u : τ → σ → σ} {k : π' → π} {x : Proc π' ε τ α} {q : τ → τ → Prop}
    (hx : Keeps q x) (hq : ∀ s t, q (g s) t → r s (u t s)) : Keeps r (Proc.within g u k x) := by
  intro s
  unfold Proc.within
  cases h : x (g s) with
  | ok a t => exact hq s t (hx.ok h)
  | err e t => exact hq s t (hx.err h)
  | panic p => trivial

/-- Whatever runs within a component leaves the rest as it is. -/
theorem within_any {π' : Type} {g : σ → τ} {u : τ → σ → σ} {k : π' → π} (x : Proc π' ε τ α) (hu : ∀ s t, r s (u t s)) :
    Keeps r (Proc.within g u k x) := by
  have hx : Keeps (fun _ _ => True) x := by
    intro t
    cases x t with
    | ok a t => trivial
    | err e t => trivial
    | panic p => trivial
  exact hx.within fun s t _ => hu s t

end Keeps

/-! ## Postconditions -/

/-- If the call returns, its value and state satisfy `Q`; if it fails, its code and state satisfy `E`. -/
def Outcome.Post {π ε σ α : Type} (Q : α → σ → Prop) (E : ε → σ → Prop) : Outcome π ε σ α → Prop
  | .ok a s  => Q a s
  | .err e s => E e s
  | .panic _ => True

namespace Outcome.Post

variable {π ε σ τ α β : Type} {Q Q' : α → σ → Prop} {E E' : ε → σ → Prop} {s : σ}

theorem of_ok {o : Outcome π ε σ α} (h : o.Post Q E) {a : α} (ho : o = .ok a s) : Q a s := by
  rw [ho] at h
  exact h

theorem of_err {o : Outcome π ε σ α} (h : o.Post Q E) {e : ε} (ho : o = .err e s) : E e s := by
  rw [ho] at h
  exact h

theorem imp {o : Outcome π ε σ α} (h : o.Post Q E) (hq : ∀ a s, Q a s → Q' a s)
    (he : ∀ e s, E e s → E' e s) : o.Post Q' E' := by
  cases o with
  | ok a s => exact hq a s h
  | err e s => exact he e s h
  | panic p => trivial

/-- Sequencing: the second part starts where the first one returned. -/
theorem bind {x : Proc π ε σ α} {f : α → Proc π ε σ β} {R : β → σ → Prop} (hx : (x s).Post Q E')
    (he : ∀ e s', E' e s' → E e s') (hf : ∀ a s', Q a s' → (f a s').Post R E) :
    ((x >>= f) s).Post R E := by
  cases hxs : x s with
  | ok a s' =>
    rw [Proc.bind_ok hxs]
    exact hf a s' (hx.of_ok hxs)
  | err e s' =>
    rw [Proc.bind_err hxs]
    exact he e s' (hx.of_err hxs)
  | panic p =>
    rw [Proc.bind_panic hxs]
    trivial

/-- Sequencing, when both parts fail the same way. -/
theorem seq {x : Proc π ε σ α} {f : α → Proc π ε σ β} {R : β → σ → Prop} (hx : (x s).Post Q E)
    (hf : ∀ a s', Q a s' → (f a s').Post R E) : ((x >>= f) s).Post R E :=
  hx.bind (fun _ _ h => h) hf

theorem check_bind {p : π} {c : Prop} [Decidable c] {f : Unit → Proc π ε σ α}
    (h : c → (f () s).Post Q E) : ((Proc.check p c >>= f) s).Post Q E := by
  by_cases hc : c
  · rw [Proc.check_bind_pos hc]
    exact h hc
  · rw [Proc.check_bind_neg hc]
    trivial

theorem check {p : π} {c : Prop} [Decidable c] {Q : Unit → σ → Prop} (h : c → Q () s) :
    ((Proc.check p c : Proc π ε σ Unit) s).Post Q E := by
  by_cases hc : c
  · rw [Proc.check_run_pos hc]
    exact h hc
  · rw [Proc.check_run_neg hc]
    trivial

theorem onErr {x : Proc π ε σ α} {undo : Proc π ε σ Unit} (hx : (x s).Post Q E')
    (hu : ∀ e s', E' e s' → (undo s').Post (fun _ s'' => E e s'') (fun _ s'' => E e s'')) :
    (Proc.onErr x undo s).Post Q E := by
  unfold Proc.onErr
  cases hxs : x s with
  | ok a s' => exact hx.of_ok hxs
  | panic p => trivial
  | err e s' =>
    have hu' := hu e s' (hx.of_err hxs)
    show Outcome.Post Q E (match undo s' with
      | .ok _ s'' => .err e s''
      | .err _ s'' => .err e s''
      | .panic p => .panic p)
    cases hus : undo s' with
    | ok b s'' => exact hu'.of_ok hus
    | err e' s'' => exact hu'.of_err hus
    | panic p => trivial

theorem zoom {g : σ → τ} {u : τ → σ → σ} {x : Proc π ε τ α}
    (hx : (x (g s)).Post (fun a t => Q a (u t s)) (fun e t => E e (u t s))) :
    (Proc.zoom g u x s).Post Q E := by
  unfold Proc.zoom
  cases hxs : x (g s) with
  | ok a t => exact hx.of_ok hxs
  | err e t => exact hx.of_err hxs
  | panic p => trivial

end Outcome.Post

/-! ## How a call may end -/

/-- A call that returns or fails leaves a state with `Q`; a failed assertion satisfies `P`. -/
def Outcome.Ends {π ε σ α : Type} (Q : σ → Prop) (P : π → Prop) : Outcome π ε σ α → Prop
  | .ok _ s  => Q s
  | .err _ s => Q s
  | .panic p => P p

namespace Outcome.Ends

variable {π ε σ τ α β : Type} {Q Q' : σ → Prop} {P P' : π → Prop} {s : σ}

theorem of_ok {o : Outcome π ε σ α} (h : o.Ends Q P) {a : α} (ho : o = .ok a s) : Q s := by
  rw [ho] at h
  exact h

theorem of_err {o : Outcome π ε σ α} (h : o.Ends Q P) {e : ε} (ho : o = .err e s) : Q s := by
  rw [ho] at h
  exact h

theorem of_panic {o : Outcome π ε σ α} (h : o.Ends Q P) {p : π} (ho : o = .panic p) : P p := by
  rw [ho] at h
  exact h

theorem imp {o : Outcome π ε σ α} (h : o.Ends Q P) (hq : ∀ s, Q s → Q' s) (hp : ∀ p, P p → P' p) :
    o.Ends Q' P' := by
  cases o with
  | ok a s => exact hq s h
  | err e s => exact hq s h
  | panic p => exact hp p h

/-- Sequencing: the second part starts where the first one returned. -/
theorem bind {x : Proc π ε σ α} {f : α → Proc π ε σ β} (hx : (x s).Ends Q P)
    (hf : ∀ a s', x s = .ok a s' → Q s' → (f a s').Ends Q P) : ((x >>= f) s).Ends Q P := by
  cases hxs : x s with
  | ok a s' =>
    rw [Proc.bind_ok hxs]
    exact hf a s' hxs (hx.of_ok hxs)
  | err e s' =>
    rw [Proc.bind_err hxs]
    exact hx.of_err hxs
  | panic p =>
    rw [Proc.bind_panic hxs]
    exact hx.of_panic hxs

theorem attempt {x : Proc π ε σ α} (hx : (x s).Ends Q P) : (Proc.attempt x s).Ends Q P := by
  cases hxs : x s with
  | ok a s' =>
    rw [Proc.attempt_ok hxs]
    exact hx.of_ok hxs
  | err e s' =>
    rw [Proc.attempt_err hxs]
    exact hx.of_err hxs
  | panic p =>
    rw [Proc.attempt_panic hxs]
    exact hx.of_panic hxs

theorem onErr {x : Proc π ε σ α} {undo : Proc π ε σ Unit} (hx : (x s).Ends Q P)
    (hu : ∀ s', Q s' → (undo s').Ends Q P) : (Proc.onErr x undo s).Ends Q P := by
  unfold Proc.onErr
  cases hxs : x s with
  | ok a s' => exact hx.of_ok hxs
  | panic p => exact hx.of_panic hxs
  | err e s' =>
    have hu' := hu s' (hx.of_err hxs)
    show Outcome.Ends Q P (match undo s' with
      | .ok _ s'' => .err e s''
      | .err _ s'' => .err e s''
      | .panic p => .panic p)
    cases hus : undo s' with
    | ok b s'' => exact hu'.of_ok hus
    | err e' s'' => exact hu'.of_err hus
    | panic p => exact hu'.of_panic hus

theorem zoom {g : σ → τ} {u : τ → σ → σ} {x : Proc π ε τ α} (hx : (x (g s)).Ends (fun t => Q (u t s)) P) :
    (Proc.zoom g u x s).Ends Q P := by
  unfold Proc.zoom
  cases hxs : x (g s) with
  | ok a t => exact hx.of_ok hxs
  | err e t => exact hx.of_err hxs
  | panic p => exact hx.of_panic hxs

end Outcome.Ends

/-! ## All three endings -/

/-- The call ends with the state `s`: it returns or fails. -/
def Outcome.EndsIn {π ε σ α : Type} (s : σ) : Outcome π ε σ α → Prop
  | .ok _ s'  => s' = s
  | .err _ s' => s' = s
  | .panic _  => False

/-- What holds when the call returns, when it fails, and of the assertion that stops the machine. -/
def Outcome.Meets {π ε σ α : Type} (Q : α → σ → Prop) (E : ε → σ → Prop) (P : π → Prop) : Outcome π ε σ α → Prop
  | .ok a s  => Q a s
  | .err e s => E e s
  | .panic p => P p

namespace Outcome.Meets

variable {π ε σ α β : Type} {Q Q' : α → σ → Prop} {E E' : ε → σ → Prop} {P P' : π → Prop} {s : σ}

theorem of_ok {o : Outcome π ε σ α} (h : o.Meets Q E P) {a : α} (ho : o = .ok a s) : Q a s := by
  rw [ho] at h
  exact h

theorem of_err {o : Outcome π ε σ α} (h : o.Meets Q E P) {e : ε} (ho : o = .err e s) : E e s := by
  rw [ho] at h
  exact h

theorem of_panic {o : Outcome π ε σ α} (h : o.Meets Q E P) {p : π} (ho : o = .panic p) : P p := by
  rw [ho] at h
  exact h

theorem endsIn {Q : σ → Prop} {o : Outcome π ε σ α} (h : o.Meets (fun _ s => Q s) (fun _ s => Q s) P)
    (ho : o.EndsIn s) : Q s := by
  cases o with
  | ok a s' => exact ho ▸ h
  | err e s' => exact ho ▸ h
  | panic p => exact ho.elim

theorem imp {o : Outcome π ε σ α} (h : o.Meets Q E P) (hq : ∀ a s, Q a s → Q' a s) (he : ∀ e s, E e s → E' e s)
    (hp : ∀ p, P p → P' p) : o.Meets Q' E' P' := by
  cases o with
  | ok a s => exact hq a s h
  | err e s => exact he e s h
  | panic p => exact hp p h

/-- Sequencing: the second part starts where the first one returned. -/
theorem bind {x : Proc π ε σ α} {f : α → Proc π ε σ β} {R : β → σ → Prop} (hx : (x s).Meets Q E P)
    (hf : ∀ a s', Q a s' → (f a s').Meets R E P) : ((x >>= f) s).Meets R E P := by
  cases hxs : x s with
  | ok a s' =>
    rw [Proc.bind_ok hxs]
    exact hf a s' (hx.of_ok hxs)
  | err e s' =>
    rw [Proc.bind_err hxs]
    exact hx.of_err hxs
  | panic p =>
    rw [Proc.bind_panic hxs]
    exact hx.of_panic hxs

end Outcome.Meets

/-! ## The rule for error codes and failed assertions -/

/-- Every error code `m` can fail with satisfies `Q`, and every assertion it can run into satisfies `P`. -/
def Fails {π ε σ α : Type} (Q : ε → Prop) (P : π → Prop) (m : Proc π ε σ α) : Prop :=
  ∀ s, match m s with
    | .ok _ _  => True
    | .err e _ => Q e
    | .panic p => P p

namespace Fails

variable {π ε σ τ α β : Type} {Q Q' : ε → Prop} {P P' : π → Prop}

theorem err {m : Proc π ε σ α} {s s' : σ} {e : ε} (h : Fails Q P m) (hm : m s = .err e s') : Q e := by
  have hs := h s
  rw [hm] at hs
  exact hs

theorem panic {m : Proc π ε σ α} {s : σ} {p : π} (h : Fails Q P m) (hm : m s = .panic p) : P p := by
  have hs := h s
  rw [hm] at hs
  exact hs

theorem mono {m : Proc π ε σ α} (h : Fails Q P m) (hq : ∀ e, Q e → Q' e) (hp : ∀ p, P p → P' p) :
    Fails Q' P' m := by
  intro s
  cases hs : m s with
  | ok a s' => trivial
  | err e s' => exact hq e (h.err hs)
  | panic p => exact hp p (h.panic hs)

theorem of_pure (a : α) : Fails Q P (pure a : Proc π ε σ α) := fun _ => trivial

theorem of_get : Fails Q P (Proc.get : Proc π ε σ σ) := fun _ => trivial

theorem of_modify (f : σ → σ) : Fails Q P (Proc.modify f : Proc π ε σ Unit) := fun _ => trivial

theorem of_fail {e : ε} (he : Q e) : Fails Q P (Proc.fail e : Proc π ε σ α) := fun _ => he

theorem of_stop {p : π} (hp : P p) : Fails Q P (Proc.stop p : Proc π ε σ α) := fun _ => hp

theorem of_check {p : π} (hp : P p) (c : Prop) [Decidable c] :
    Fails Q P (Proc.check p c : Proc π ε σ Unit) := by
  intro s
  by_cases hc : c
  · rw [Proc.check_run_pos hc]
    trivial
  · rw [Proc.check_run_neg hc]
    exact hp

theorem bind {x : Proc π ε σ α} {f : α → Proc π ε σ β} (hx : Fails Q P x) (hf : ∀ a, Fails Q P (f a)) :
    Fails Q P (x >>= f) := by
  intro s
  cases hs : x s with
  | ok a s' =>
    rw [Proc.bind_ok hs]
    exact hf a s'
  | err e s' =>
    rw [Proc.bind_err hs]
    exact hx.err hs
  | panic p =>
    rw [Proc.bind_panic hs]
    exact hx.panic hs

theorem onErr {x : Proc π ε σ α} {undo : Proc π ε σ Unit} (hx : Fails Q P x) (hu : Fails Q' P undo) :
    Fails Q P (Proc.onErr x undo) := by
  intro s
  unfold Proc.onErr
  cases hs : x s with
  | ok a s' => trivial
  | panic p => exact hx.panic hs
  | err e s' =>
    cases hus : undo s' with
    | ok u s'' =>
      simp only [hus]
      exact hx.err hs
    | err e' s'' =>
      simp only [hus]
      exact hx.err hs
    | panic p =>
      simp only [hus]
      exact hu.panic hus

theorem zoom {g : σ → τ} {u : τ → σ → σ} {x : Proc π ε τ α} (hx : Fails Q P x) :
    Fails Q P (Proc.zoom g u x) := by
  intro s
  unfold Proc.zoom
  cases hs : x (g s) with
  | ok a t => trivial
  | err e t => exact hx.err hs
  | panic p => exact hx.panic hs

theorem of_ite {c : Prop} [Decidable c] {x y : Proc π ε σ α} (hx : Fails Q P x) (hy : Fails Q P y) :
    Fails Q P (if c then x else y) := by
  split
  · exact hx
  · exact hy

end Fails

/-! ## The rule for error codes under an invariant -/

/-- Started with `I`, `m` keeps `I`, and every error code it fails with satisfies `Q`. -/
def FailsUnder {π ε σ α : Type} (I : σ → Prop) (Q : ε → Prop) (m : Proc π ε σ α) : Prop :=
  ∀ s, I s → (m s).Post (fun _ s' => I s') (fun e s' => I s' ∧ Q e)

namespace FailsUnder

variable {π ε σ τ α β : Type} {I : σ → Prop} {J : τ → Prop} {Q : ε → Prop}

theorem of_pure (a : α) : FailsUnder I Q (pure a : Proc π ε σ α) := fun _ h => h

theorem of_get : FailsUnder I Q (Proc.get : Proc π ε σ σ) := fun _ h => h

theorem of_modify {f : σ → σ} (hf : ∀ s, I s → I (f s)) : FailsUnder I Q (Proc.modify f : Proc π ε σ Unit) := hf

theorem of_fail {e : ε} (he : Q e) : FailsUnder I Q (Proc.fail e : Proc π ε σ α) := fun _ h => ⟨h, he⟩

theorem of_stop (p : π) : FailsUnder I Q (Proc.stop p : Proc π ε σ α) := fun _ _ => trivial

theorem of_check (p : π) (c : Prop) [Decidable c] : FailsUnder I Q (Proc.check p c : Proc π ε σ Unit) :=
  fun _ h => Outcome.Post.check fun _ => h

theorem bind {x : Proc π ε σ α} {f : α → Proc π ε σ β} (hx : FailsUnder I Q x) (hf : ∀ a, FailsUnder I Q (f a)) :
    FailsUnder I Q (x >>= f) := fun s h => (hx s h).seq fun a s' h' => hf a s' h'

theorem onErr {x : Proc π ε σ α} {undo : Proc π ε σ Unit} (hx : FailsUnder I Q x) (hu : FailsUnder I Q undo) :
    FailsUnder I Q (Proc.onErr x undo) := by
  intro s h
  refine (hx s h).onErr fun e s' he => ?_
  have hend := hu s' he.1
  cases hs : undo s' with
  | ok u s'' => exact ⟨hend.of_ok hs, he.2⟩
  | err e' s'' => exact ⟨(hend.of_err hs).1, he.2⟩
  | panic p => trivial

/-- The component that a program works on has an invariant of its own. -/
theorem zoom {g : σ → τ} {u : τ → σ → σ} {x : Proc π ε τ α} (hx : FailsUnder J Q x) (hJ : ∀ s, I s → J (g s))
    (hI : ∀ s t, I s → J t → I (u t s)) : FailsUnder I Q (Proc.zoom g u x) := by
  intro s h
  have hend := hx (g s) (hJ s h)
  apply Outcome.Post.zoom
  cases hs : x (g s) with
  | ok a t => exact hI s t h (hend.of_ok hs)
  | err e t => exact ⟨hI s t h (hend.of_err hs).1, (hend.of_err hs).2⟩
  | panic p => trivial

theorem of_ite {c : Prop} [Decidable c] {x y : Proc π ε σ α} (hx : FailsUnder I Q x) (hy : FailsUnder I Q y) :
    FailsUnder I Q (if c then x else y) := by
  split
  · exact hx
  · exact hy

end FailsUnder

end Ucore
