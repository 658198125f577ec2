import Mathlib.Data.Finset.Card
import Mathlib.Data.Finset.Prod

/-!
# `Lib.Tally` — how many keys point at a value

`tally K f a` is the number of keys in `K` that the partial map `f` sends to `a`. Reference counts are tallies:
redirecting one key moves one unit from the old value to the new one (`tally_update`).
-/

namespace Ucore

variable {κ α : Type} [DecidableEq α]

def tally (K : Finset κ) (f : κ → Option α) (a : α) : Nat := (K.filter fun k => f k = some a).card

variable {K : Finset κ} {f g : κ → Option α} {a : α} {k : κ} {o : Option α}

theorem tally_congr (h : ∀ k ∈ K, g k = f k) (a : α) : tally K g a = tally K f a := by
  rw [tally, tally, Finset.filter_congr fun k hk => by rw [h k hk]]

theorem tally_eq_zero : tally K f a = 0 ↔ ∀ k ∈ K, f k ≠ some a := by
  rw [tally, Finset.card_eq_zero, Finset.filter_eq_empty_iff]

theorem tally_pos (hk : k ∈ K) (h : f k = some a) : 0 < tally K f a := by
  refine Nat.pos_of_ne_zero fun h0 => ?_
  exact tally_eq_zero.mp h0 k hk h

/-- Only the keys that point somewhere matter. -/
theorem tally_members {K' : Finset κ} (h : ∀ k, f k ≠ none → (k ∈ K' ↔ k ∈ K)) (a : α) : tally K' f a = tally K f a := by
  have heq : K'.filter (fun k => f k = some a) = K.filter fun k => f k = some a := by
    ext k
    rw [Finset.mem_filter, Finset.mem_filter, and_congr_left_iff]
    exact fun hk => h k fun hnone => nomatch hnone.symm.trans hk
  rw [tally, tally, heq]

variable [DecidableEq κ]

theorem tally_erase (hk : k ∈ K) : tally K f a = tally (K.erase k) f a + if f k = some a then 1 else 0 := by
  rw [tally, tally, Finset.filter_erase]
  split
  · next h => exact (Finset.card_erase_add_one (Finset.mem_filter.mpr ⟨hk, h⟩)).symm
  · next h =>
    have hnot : k ∉ K.filter fun k => f k = some a := fun hmem => h (Finset.mem_filter.mp hmem).2
    rw [Finset.erase_eq_of_notMem hnot, Nat.add_zero]

/-- **Redirecting a key.** -/
theorem tally_update (hk : k ∈ K) (h : ∀ j ∈ K, g j = if j = k then o else f j) (a : α) :
    tally K g a + (if f k = some a then 1 else 0) = tally K f a + if o = some a then 1 else 0 := by
  have hrest : tally (K.erase k) g a = tally (K.erase k) f a := by
    refine tally_congr (fun j hj => ?_) a
    rw [h j (Finset.mem_of_mem_erase hj), if_neg (Finset.ne_of_mem_erase hj)]
  have hg : g k = o := by rw [h k hk, if_pos rfl]
  rw [tally_erase hk, hrest, hg, tally_erase (f := f) hk]
  omega

/-- Keys that point nowhere do not count. -/
theorem tally_subset {K' : Finset κ} (hsub : K ⊆ K') (h : ∀ k ∈ K', k ∉ K → f k ≠ some a) :
    tally K' f a = tally K f a := by
  have heq : K'.filter (fun k => f k = some a) = K.filter fun k => f k = some a := by
    ext k
    rw [Finset.mem_filter, Finset.mem_filter]
    constructor
    · rintro ⟨hk, hfk⟩
      by_contra hcon
      exact h k hk (fun hk => hcon ⟨hk, hfk⟩) hfk
    · rintro ⟨hk, hfk⟩
      exact ⟨hsub hk, hfk⟩
  rw [tally, tally, heq]

end Ucore
