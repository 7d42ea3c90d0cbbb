import Mathlib.Algebra.Group.Int.Defs
import Mathlib.Algebra.Group.Nat.Defs
import Stencil.Number.Word

/-!
Which integers are words.
-/

namespace Stencil.Number

theorem isWord_iff {n : Int} : IsWord n ↔ ∃ w, word? n = some w := by
  simp [word?]

theorem isWord_iff_bounds {n : Int} : IsWord n ↔ -2 ^ 63 ≤ n ∧ n < 2 ^ 63 := by
  unfold IsWord
  rw [Int64.toInt_minValue, Int64.toInt_maxValue]
  omega

theorem exists_word {n : Int} (h : IsWord n) : ∃ w : Int64, w.toInt = n :=
  ⟨_, toInt_of_word? (if_pos h)⟩

-- The quotient of two words is a word, with one exception.
theorem isWord_tdiv {a b : Int} (ha : IsWord a) (hb : b ≠ 0)
    (hexception : ¬(a = Int64.minValue.toInt ∧ b = -1)) : IsWord (a.tdiv b) := by
  rw [isWord_iff_bounds] at ha ⊢
  rw [Int64.toInt_minValue] at hexception
  by_cases hunit : b.natAbs = 1
  · obtain rfl | rfl : b = 1 ∨ b = -1 := by omega
    · rw [Int.tdiv_one]
      exact ha
    · rw [Int.tdiv_neg, Int.tdiv_one]
      omega
  · have hhalf : (a.tdiv b).natAbs ≤ 2 ^ 63 / 2 := by
      rw [Int.natAbs_tdiv]
      calc a.natAbs / b.natAbs ≤ a.natAbs / 2 := Nat.div_le_div_left (by omega) (by decide)
        _ ≤ 2 ^ 63 / 2 := Nat.div_le_div_right (by omega)
    omega

end Stencil.Number
