import Ucore.Lib.Proc

/-!
# `Lib.TwoRuns` — what a program does not look at

`r s t` says that two states differ in nothing but a certain part. `Blind r x`: from two such states the program `x` ends in the
same way, with the same result, and again in two such states; so it never decides anything by that part. A program is blind
if its parts are, and if what it does with the state it gets does not depend on the part. An invariant is a case of this (`Keeping`).
-/

namespace Ucore

variable {π ε σ τ α β : Type} {r : σ → σ → Prop}

/-- Two calls end alike. -/
inductive Outcome.Alike (r : σ → σ → Prop) : Outcome π ε σ α → Outcome π ε σ α → Prop
  | ok (a : α) {s t : σ} (h : r s t) : Alike r (.ok a s) (.ok a t)
  | err (e : ε) {s t : σ} (h : r s t) : Alike r (.err e s) (.err e t)
  | panic (p : π) : Alike r (.panic p) (.panic p)

/-- Sequencing: what comes next may be told where it starts. -/
theorem Outcome.Alike.bind {x y : Proc π ε σ α} {f g : α → Proc π ε σ β} {s t : σ} (hx : (x s).Alike r (y t))
    (hf : ∀ a s' t', r s' t' → (f a s').Alike r (g a t')) : ((x >>= f) s).Alike r ((y >>= g) t) := by
  rw [Proc.bind_run, Proc.bind_run]
  generalize x s = o, y t = o' at hx
  cases hx with
  | ok a hr => exact hf a _ _ hr
  | err e hr => exact .err e hr
  | panic p => exact .panic p

def Blind (r : σ → σ → Prop) (x : Proc π ε σ α) : Prop := ∀ s t, r s t → (x s).Alike r (x t)

namespace Blind

/-- A run that returns has a counterpart. -/
theorem ok {x : Proc π ε σ α} (h : Blind r x) {s s' t : σ} {a : α} (hst : r s t) (hx : x s = .ok a s') :
    ∃ t', x t = .ok a t' ∧ r s' t' := by
  have hp := h s t hst
  rw [hx] at hp
  generalize x t = o at hp
  cases hp with
  | ok _ hr => exact ⟨_, rfl, hr⟩

/-! ## The primitives -/

theorem of_pure (a : α) : Blind r (pure a : Proc π ε σ α) := fun _ _ hst => .ok a hst

theorem of_fail (e : ε) : Blind r (Proc.fail e : Proc π ε σ α) := fun _ _ hst => .err e hst

theorem of_stop (p : π) : Blind r (Proc.stop p : Proc π ε σ α) := fun _ _ _ => .panic p

theorem of_modify {f : σ → σ} (h : ∀ s t, r s t → r (f s) (f t)) : Blind r (Proc.modify f : Proc π ε σ Unit) :=
  fun s t hst => .ok () (h s t hst)

theorem of_check (p : π) (c : Prop) [Decidable c] : Blind r (Proc.check p c : Proc π ε σ Unit) := by
  intro s t hst
  by_cases hc : c
  · rw [Proc.check_run_pos hc, Proc.check_run_pos hc]
    exact .ok () hst
  · rw [Proc.check_run_neg hc, Proc.check_run_neg hc]
    exact .panic p

/-- What is done with the state does not depend on the part. -/
theorem of_get {f : σ → Proc π ε σ β} (hsame : ∀ s t, r s t → f s = f t) (hf : ∀ s, Blind r (f s)) :
    Blind r (Proc.get >>= f) := by
  intro s t hst
  rw [Proc.get_bind, Proc.get_bind, ← hsame s t hst]
  exact hf s s t hst

/-! ## Composition -/

/-- Sequencing. -/
theorem bind {x : Proc π ε σ α} {f : α → Proc π ε σ β} (hx : Blind r x) (hf : ∀ a, Blind r (f a)) : Blind r (x >>= f) :=
  fun s t hst => (hx s t hst).bind hf

theorem ite {c : Prop} [Decidable c] {x y : Proc π ε σ α} (hx : Blind r x) (hy : Blind r y) : Blind r (if c then x else y) := by
  split
  · exact hx
  · exact hy

theorem attempt {x : Proc π ε σ α} (hx : Blind r x) : Blind r (Proc.attempt x) := by
  intro s t hst
  have hp := hx s t hst
  rw [Proc.attempt, Proc.attempt]
  generalize x s = o, x t = o' at hp
  cases hp with
  | ok a hr => exact .ok _ hr
  | err e hr => exact .ok _ hr
  | panic p => exact .panic p

theorem onErr {x : Proc π ε σ α} {undo : Proc π ε σ Unit} (hx : Blind r x) (hu : Blind r undo) : Blind r (Proc.onErr x undo) := by
  intro s t hst
  have hp := hx s t hst
  rw [Proc.onErr, Proc.onErr]
  generalize x s = o, x t = o' at hp
  cases hp with
  | ok a hr => exact .ok a hr
  | panic p => exact .panic p
  | @err e s' t' hr =>
    -- the code returned is that of `x`, whatever becomes of `undo`
    have hq := hu s' t' hr
    dsimp only
    generalize undo s' = o, undo t' = o' at hq
    cases hq with
    | ok _ hr' => exact .err e hr'
    | err _ hr' => exact .err e hr'
    | panic p => exact .panic p

/-- A blind program on a component of the state. -/
theorem zoom {q : τ → τ → Prop} {g : σ → τ} {u : τ → σ → σ} {x : Proc π ε τ α} (hx : Blind q x) (hg : ∀ s t, r s t → q (g s) (g t))
    (hu : ∀ s t a b, r s t → q a b → r (u a s) (u b t)) : Blind r (Proc.zoom g u x) := by
  intro s t hst
  have hp := hx _ _ (hg s t hst)
  rw [Proc.zoom, Proc.zoom]
  generalize x (g s) = o, x (g t) = o' at hp
  cases hp with
  | ok a hr => exact .ok a (hu s t _ _ hst hr)
  | err e hr => exact .err e (hu s t _ _ hst hr)
  | panic p => exact .panic p

end Blind

/-! ## A part that is overwritten -/

/-- Overwriting the part of `s` gives `t`. -/
def Overwritten {ξ : Type} (g : ξ → σ → σ) (s t : σ) : Prop := ∃ x, t = g x s

namespace Blind

variable {ξ : Type} {g : ξ → σ → σ}

theorem modify {f : σ → σ} (h : ∀ s x, ∃ y, f (g x s) = g y (f s)) :
    Blind (Overwritten g) (Proc.modify f : Proc π ε σ Unit) := by
  refine .of_modify ?_
  rintro s _ ⟨x, rfl⟩
  exact h s x

theorem get {f : σ → Proc π ε σ β} (hsame : ∀ s x, f (g x s) = f s) (hf : ∀ s, Blind (Overwritten g) (f s)) :
    Blind (Overwritten g) (Proc.get >>= f) := by
  refine .of_get ?_ hf
  rintro s _ ⟨x, rfl⟩
  exact (hsame s x).symm

end Blind

/-! ## An invariant -/

/-- The same state twice, and `I` holds in it: to be blind then is to keep `I`. -/
def Keeping (I : σ → Prop) (s t : σ) : Prop := t = s ∧ I s

theorem blind_keeping {I : σ → Prop} {x : Proc π ε σ α} : Blind (Keeping I) x ↔ ∀ s, I s → (x s).Leaves I := by
  constructor
  · intro h s hs
    have hp := h s s ⟨rfl, hs⟩
    generalize x s = o at hp
    cases hp with
    | ok a hr => exact hr.2
    | err e hr => exact hr.2
    | panic p => trivial
  · rintro h s t ⟨ht, hs⟩
    subst ht
    have hl := h t hs
    generalize x t = o at hl
    cases o with
    | ok a s' => exact .ok a ⟨rfl, hl⟩
    | err e s' => exact .err e ⟨rfl, hl⟩
    | panic p => exact .panic p

end Ucore
