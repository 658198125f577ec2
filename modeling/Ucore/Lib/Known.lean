import Ucore.Lib.Bytes

/-!
# `Lib.Known` — the bytes that are known

A memory is filled block by block, and of an address it is known what was written there, or nothing is known. `Known.put` adds
a block. A page has `B` bytes: `Within B N k` says that only pages of `N` have known bytes, and `Full B N k` that every byte of
these pages is known. Pages that are filled apart from the others can be looked at apart from them (`full_or`).
-/

namespace Ucore

def Known : Type := Nat → Option UInt8

namespace Known

def nothing : Known := fun _ => none

/-- The bytes of `f` are written from `lo` to `hi`. -/
def put (k : Known) (lo hi : Nat) (f : Bytes) : Known := fun a => if lo ≤ a ∧ a < hi then some (f a) else k a

variable {k k' : Known} {lo mid hi a B : Nat} {f g : Bytes} {N P : Nat → Prop}

theorem put_in (h : lo ≤ a ∧ a < hi) : k.put lo hi f a = some (f a) := if_pos h

theorem put_out (h : ¬ (lo ≤ a ∧ a < hi)) : k.put lo hi f a = k a := if_neg h

theorem put_nil (h : hi ≤ lo) : k.put lo hi f = k := by
  funext a
  exact put_out (by omega)

/-- Two blocks, one behind the other. -/
theorem put_append (h : lo ≤ mid) (h' : mid ≤ hi) : (k.put lo mid f).put mid hi f = k.put lo hi f := by
  funext a
  by_cases hmid : mid ≤ a
  · by_cases hhi : a < hi
    · rw [put_in ⟨hmid, hhi⟩, put_in ⟨by omega, hhi⟩]
    · rw [put_out (by omega), put_out (by omega), put_out (by omega)]
  · rw [put_out (by omega)]
    by_cases hlo : lo ≤ a
    · rw [put_in ⟨hlo, by omega⟩, put_in ⟨hlo, by omega⟩]
    · rw [put_out (by omega), put_out (by omega)]

theorem put_congr (h : ∀ a, lo ≤ a → a < hi → f a = g a) : k.put lo hi f = k.put lo hi g := by
  funext a
  by_cases hin : lo ≤ a ∧ a < hi
  · rw [put_in hin, put_in hin, h a hin.1 hin.2]
  · rw [put_out hin, put_out hin]

theorem put_ne_none : k.put lo hi f a ≠ none ↔ (lo ≤ a ∧ a < hi) ∨ k a ≠ none := by
  by_cases hin : lo ≤ a ∧ a < hi
  · rw [put_in hin]
    exact ⟨fun _ => .inl hin, fun _ => Option.some_ne_none _⟩
  · rw [put_out hin]
    exact ⟨.inr, fun h => h.resolve_left hin⟩

/-! ## Pages -/

def Within (B : Nat) (N : Nat → Prop) (k : Known) : Prop := ∀ a, k a ≠ none → N (a / B)

def Full (B : Nat) (N : Nat → Prop) (k : Known) : Prop := ∀ a, N (a / B) → k a ≠ none

theorem Within.put (h : Within B N k) (hN : ∀ a, lo ≤ a → a < hi → N (a / B)) : Within B N (k.put lo hi f) := by
  intro a ha
  rcases put_ne_none.mp ha with hin | hold
  · exact hN a hin.1 hin.2
  · exact h a hold

theorem Within.mono (h : Within B N k) (hN : ∀ n, N n → P n) : Within B P k := fun a ha => hN _ (h a ha)

theorem Within.unknown (h : Within B N k) (ha : ¬ N (a / B)) : k a = none := by
  by_contra hne
  exact ha (h a hne)

/-- More pages are filled, and the bytes of the others stay as known as they are. -/
theorem full_or (hsame : ∀ a, ¬ P (a / B) → (k' a ≠ none ↔ k a ≠ none)) (hapart : ∀ n, P n → ¬ N n) :
    Full B (fun n => N n ∨ P n) k' ↔ Full B N k ∧ Full B P k' := by
  have hkeep : ∀ a, N (a / B) → (k' a ≠ none ↔ k a ≠ none) := fun a ha => hsame a fun hp => hapart _ hp ha
  constructor
  · intro h
    exact ⟨fun a ha => (hkeep a ha).mp (h a (.inl ha)), fun a ha => h a (.inr ha)⟩
  · rintro ⟨hN, hP⟩ a (ha | ha)
    · exact (hkeep a ha).mpr (hN a ha)
    · exact hP a ha

end Known

end Ucore
