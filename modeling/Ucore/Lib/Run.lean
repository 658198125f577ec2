import Mathlib.Logic.Basic

/-!
# `Lib.Run` — runs of a labelled transition system

`Reaches init step ok s`: some run that starts in an `init` state, takes only `step`s, and meets the
condition `ok` before each of them, ends in `s`. The condition is separate from the step relation so that
one system can be looked at both on all its runs (`ok` always true) and on the runs that avoid a defect.
`Traced step s is s'` is a run with its labels, for comparing two systems (`Traced.refines`).
-/

namespace Ucore

variable {σ τ ι : Type}

/-- The states reached by the runs whose every step is taken under the condition `ok`. -/
inductive Reaches (init : σ → Prop) (step : σ → ι → σ → Prop) (ok : σ → ι → Prop) : σ → Prop where
  | start {s : σ} (h : init s) : Reaches init step ok s
  | next {s s' : σ} {i : ι} (h : Reaches init step ok s) (hok : ok s i) (hs : step s i s') :
      Reaches init step ok s'

namespace Reaches

variable {init : σ → Prop} {step : σ → ι → σ → Prop} {ok : σ → ι → Prop}

/-- **The invariant rule.** What holds initially and is kept by every step taken under `ok` holds in
    every state reached. -/
theorem invariant {I : σ → Prop} (h0 : ∀ s, init s → I s)
    (hstep : ∀ s i s', I s → ok s i → step s i s' → I s') {s : σ} (h : Reaches init step ok s) : I s := by
  induction h with
  | start h => exact h0 _ h
  | next _ hok hs ih => exact hstep _ _ _ ih hok hs

/-- A run under a stronger condition is a run under a weaker one. -/
theorem mono {ok' : σ → ι → Prop} (hok : ∀ s i, ok s i → ok' s i) {s : σ}
    (h : Reaches init step ok s) : Reaches init step ok' s :=
  h.invariant (fun _ h => .start h) (fun _ _ _ ih h hs => .next ih (hok _ _ h) hs)

/-- The run of a deterministic system along a list of labels. -/
theorem foldlM {f : σ → ι → Option σ} {s s' : σ} {is : List ι} (h : is.foldlM f s = some s')
    (h0 : Reaches init (fun s i s' => f s i = some s') (fun _ _ => True) s) :
    Reaches init (fun s i s' => f s i = some s') (fun _ _ => True) s' := by
  induction is generalizing s with
  | nil =>
    obtain rfl := Option.some.inj h
    exact h0
  | cons i is ih =>
    rw [List.foldlM_cons] at h
    obtain ⟨s₁, hs, hrest⟩ := Option.bind_eq_some_iff.mp h
    exact ih hrest (h0.next trivial hs)

end Reaches

/-! ## Runs with their labels -/

/-- The steps with the labels `is` lead from `s` to `s'`. -/
inductive Traced (step : σ → ι → σ → Prop) : σ → List ι → σ → Prop where
  | nil {s : σ} : Traced step s [] s
  | cons {s s' s'' : σ} {i : ι} {is : List ι} (hs : step s i s') (h : Traced step s' is s'') : Traced step s (i :: is) s''

namespace Traced

variable {step : σ → ι → σ → Prop} {step' : τ → ι → τ → Prop}

theorem mono {step₁ step₂ : σ → ι → σ → Prop} (hstep : ∀ s i s', step₁ s i s' → step₂ s i s') {s s' : σ} {is : List ι}
    (h : Traced step₁ s is s') : Traced step₂ s is s' := by
  induction h with
  | nil => exact .nil
  | cons hs _ ih => exact .cons (hstep _ _ _ hs) ih

/-- **Forward simulation** along an abstraction `f`, under the invariant `I`. -/
theorem refines {I : σ → Prop} {f : σ → τ} (hstep : ∀ s i s', I s → step s i s' → I s' ∧ step' (f s) i (f s')) {s s' : σ}
    {is : List ι} (h : Traced step s is s') (hI : I s) : I s' ∧ Traced step' (f s) is (f s') := by
  induction h with
  | nil => exact ⟨hI, .nil⟩
  | cons hs _ ih =>
    obtain ⟨hI', hs'⟩ := hstep _ _ _ hI hs
    obtain ⟨hend, hrest⟩ := ih hI'
    exact ⟨hend, .cons hs' hrest⟩

end Traced

end Ucore
