import Mathlib.Algebra.Group.Int.Defs
import Mathlib.Algebra.Group.Nat.Defs
import Mathlib.Data.Multiset.UnionInter

/-!
# `Lib.Window` — counters that stay close together, and their wrapped values

Counters only grow, and a machine keeps them modulo `2 ^ w`. As long as any two of them are less than half of that apart
(`Spread`), the sign of the wrapped difference is the sign of the true one (`toInt_sub_of_spread`). A window of width `B`
survives when a least counter advances by at most `B` (`Spread.advance`); this is the whole argument for the fairness of
schedulers that always run the least one.
-/

namespace Ucore

variable {ι : Type} {acc acc' : ι → Nat} {M N : Multiset ι} {B : Nat} {p q : ι}

/-- Any two of the counters in `M` are at most `B` apart. -/
def Spread (acc : ι → Nat) (M : Multiset ι) (B : Nat) : Prop := ∀ p ∈ M, ∀ q ∈ M, acc p ≤ acc q + B

namespace Spread

theorem mono (h : Spread acc M B) (hN : ∀ p ∈ N, p ∈ M) : Spread acc N B :=
  fun p hp q hq => h p (hN p hp) q (hN q hq)

theorem congr (h : Spread acc M B) (hacc : ∀ p ∈ M, acc' p = acc p) : Spread acc' M B := by
  intro p hp q hq
  rw [hacc p hp, hacc q hq]
  exact h p hp q hq

/-- A newcomer that is close to all of them. -/
theorem cons (h : Spread acc M B) (hp : ∀ q ∈ M, acc p ≤ acc q + B ∧ acc q ≤ acc p + B) : Spread acc (p ::ₘ M) B := by
  intro a ha b hb
  rcases Multiset.mem_cons.mp ha with rfl | ha'
  · rcases Multiset.mem_cons.mp hb with rfl | hb'
    · exact Nat.le_add_right _ _
    · exact (hp b hb').1
  · rcases Multiset.mem_cons.mp hb with rfl | hb'
    · exact (hp a ha').2
    · exact h a ha' b hb'

/-- **A least counter advances.** -/
theorem advance [DecidableEq ι] {d : Nat} (h : Spread acc M B) (hmin : ∀ q ∈ M, acc p ≤ acc q) (hd : d ≤ B) :
    Spread (Function.update acc p (acc p + d)) M B := by
  intro a ha b hb
  by_cases hap : a = p
  · subst hap
    rw [Function.update_self]
    by_cases hba : b = a
    · rw [hba, Function.update_self]
      omega
    · -- it was least, and gets at most `B` ahead
      have := hmin b hb
      rw [Function.update_of_ne hba]
      omega
  · rw [Function.update_of_ne hap]
    by_cases hbp : b = p
    · subst hbp
      have := h a ha b hb
      rw [Function.update_self]
      omega
    · rw [Function.update_of_ne hbp]
      exact h a ha b hb

end Spread

/-- **Comparing modulo `2 ^ w`** is comparing, inside a window. -/
theorem toInt_sub_of_spread {w a b : Nat} (hab : a ≤ b + B) (hba : b ≤ a + B) (hB : 2 * B < 2 ^ w) :
    (BitVec.ofNat w a - BitVec.ofNat w b).toInt = (a : Int) - b := by
  rw [BitVec.toInt_sub, BitVec.toInt_ofNat', BitVec.toInt_ofNat', ← Int.sub_bmod]
  apply Int.bmod_eq_of_le
  · omega
  · omega

end Ucore
