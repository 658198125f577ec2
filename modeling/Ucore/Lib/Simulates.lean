import Ucore.Lib.Proc

/-!
# `Lib.Simulates` — one program does what another does

`R s t` relates the states of two machines. `Simulates R k x y`: from related states `x` returns what `y` returns, fails with the
code that `y` fails with, in related states again, and stops at the assertion `k p` where `y` stops at `p`. The rules follow the
two programs side by side; `Simulates.step` lets the first one make a step of its own.
-/

namespace Ucore

variable {π π' ε σ τ α β : Type} {R : σ → τ → Prop} {k : π' → π}

/-- Two calls end alike, each on its machine. -/
inductive Outcome.Matches (R : σ → τ → Prop) (k : π' → π) : Outcome π ε σ α → Outcome π' ε τ α → Prop
  | ok (a : α) {s : σ} {t : τ} (h : R s t) : Matches R k (.ok a s) (.ok a t)
  | err (e : ε) {s : σ} {t : τ} (h : R s t) : Matches R k (.err e s) (.err e t)
  | panic (p : π') : Matches R k (.panic (k p)) (.panic p)

def Simulates (R : σ → τ → Prop) (k : π' → π) (x : Proc π ε σ α) (y : Proc π' ε τ α) : Prop :=
  ∀ s t, R s t → (x s).Matches R k (y t)

namespace Simulates

/-- A run that returns is a run of the other program. -/
theorem ok {x : Proc π ε σ α} {y : Proc π' ε τ α} (h : Simulates R k x y) {s s' : σ} {t : τ} {a : α} (hst : R s t)
    (hx : x s = .ok a s') : ∃ t', y t = .ok a t' ∧ R s' t' := by
  have hp := h s t hst
  rw [hx] at hp
  generalize y t = o at hp
  cases hp with
  | ok _ hr => exact ⟨_, rfl, hr⟩

/-- A run of the other program that returns is a run of this one. -/
theorem ok_of {x : Proc π ε σ α} {y : Proc π' ε τ α} (h : Simulates R k x y) {s : σ} {t t' : τ} {a : α} (hst : R s t)
    (hy : y t = .ok a t') : ∃ s', x s = .ok a s' ∧ R s' t' := by
  have hp := h s t hst
  rw [hy] at hp
  generalize x s = o at hp
  cases hp with
  | ok _ hr => exact ⟨_, rfl, hr⟩

/-! ## The primitives -/

theorem of_pure (a : α) : Simulates R k (pure a : Proc π ε σ α) (pure a : Proc π' ε τ α) := fun _ _ h => .ok a h

theorem of_fail (e : ε) : Simulates R k (Proc.fail e : Proc π ε σ α) (Proc.fail e : Proc π' ε τ α) := fun _ _ h => .err e h

theorem of_stop (p : π') : Simulates R k (Proc.stop (k p) : Proc π ε σ α) (Proc.stop p : Proc π' ε τ α) := fun _ _ _ => .panic p

theorem of_check (p : π') (c : Prop) [Decidable c] :
    Simulates R k (Proc.check (k p) c : Proc π ε σ Unit) (Proc.check p c : Proc π' ε τ Unit) := by
  intro s t hst
  by_cases hc : c
  · rw [Proc.check_run_pos hc, Proc.check_run_pos hc]
    exact .ok () hst
  · rw [Proc.check_run_neg hc, Proc.check_run_neg hc]
    exact .panic p

/-- Both look at their states. -/
theorem of_get {f : σ → Proc π ε σ β} {g : τ → Proc π' ε τ β} (hf : ∀ s t, R s t → Simulates R k (f s) (g t)) :
    Simulates R k (Proc.get >>= f) (Proc.get >>= g) := fun s t hst => hf s t hst s t hst

/-- A program runs within a component. -/
theorem within {g : σ → τ} {u : τ → σ → σ} (y : Proc π' ε τ α) (hg : ∀ s t, R s t → g s = t)
    (hu : ∀ s t t', R s t → R (u t' s) t') : Simulates R k (Proc.within g u k y) y := by
  intro s t hst
  unfold Proc.within
  rw [hg s t hst]
  cases y t with
  | ok a t' => exact .ok a (hu s t t' hst)
  | err e t' => exact .err e (hu s t t' hst)
  | panic p => exact .panic p

/-! ## Composition -/

theorem bind {x : Proc π ε σ α} {y : Proc π' ε τ α} {f : α → Proc π ε σ β} {g : α → Proc π' ε τ β} (hx : Simulates R k x y)
    (hf : ∀ a, Simulates R k (f a) (g a)) : Simulates R k (x >>= f) (y >>= g) := by
  intro s t hst
  have hp := hx s t hst
  rw [Proc.bind_run, Proc.bind_run]
  generalize x s = o, y t = o' at hp
  cases hp with
  | ok a hr => exact hf a _ _ hr
  | err e hr => exact .err e hr
  | panic p => exact .panic p

/-- A step of the first program alone, that returns something with `P`. -/
theorem step {x : Proc π ε σ α} {f : α → Proc π ε σ β} {y : Proc π' ε τ β} (P : α → Prop)
    (hx : ∀ s t, R s t → ∃ a s', x s = .ok a s' ∧ R s' t ∧ P a) (hf : ∀ a, P a → Simulates R k (f a) y) :
    Simulates R k (x >>= f) y := by
  intro s t hst
  obtain ⟨a, s', hrun, hr, ha⟩ := hx s t hst
  rw [Proc.bind_ok hrun]
  exact hf a ha s' t hr

theorem ite {c : Prop} [Decidable c] {x x' : Proc π ε σ α} {y y' : Proc π' ε τ α} (h : Simulates R k x y)
    (h' : Simulates R k x' y') : Simulates R k (if c then x else x') (if c then y else y') := by
  split
  · exact h
  · exact h'

theorem onErr {x : Proc π ε σ α} {y : Proc π' ε τ α} {undo : Proc π ε σ Unit} {undo' : Proc π' ε τ Unit}
    (hx : Simulates R k x y) (hu : Simulates R k undo undo') : Simulates R k (Proc.onErr x undo) (Proc.onErr y undo') := by
  intro s t hst
  have hp := hx s t hst
  rw [Proc.onErr, Proc.onErr]
  generalize x s = o, y t = o' at hp
  cases hp with
  | ok a hr => exact .ok a hr
  | panic p => exact .panic p
  | @err e s' t' hr =>
    have hq := hu s' t' hr
    dsimp only
    generalize undo s' = o, undo' t' = o' at hq
    cases hq with
    | ok _ hr' => exact .err e hr'
    | err _ hr' => exact .err e hr'
    | panic p => exact .panic p

end Simulates

end Ucore
