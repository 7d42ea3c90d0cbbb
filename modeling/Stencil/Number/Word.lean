/-!
Integers are 64-bit words. Arithmetic is done on the integers and fails where the result is no word.
-/

namespace Stencil.Number

def IsWord (n : Int) : Prop := Int64.minValue.toInt ≤ n ∧ n ≤ Int64.maxValue.toInt

instance (n : Int) : Decidable (IsWord n) := inferInstanceAs (Decidable (_ ∧ _))

-- The word of value `n`, if there is one.
def word? (n : Int) : Option Int64 := if IsWord n then some (Int64.ofInt n) else none

theorem isWord_toInt (w : Int64) : IsWord w.toInt := ⟨w.minValue_le_toInt, w.toInt_le⟩

theorem toInt_of_word? {n : Int} {w : Int64} (h : word? n = some w) : w.toInt = n := by
  unfold word? at h
  split at h
  · next hn =>
    obtain rfl : Int64.ofInt n = w := by simpa using h
    have hmin : -2 ^ 63 ≤ n := Int64.toInt_minValue ▸ hn.1
    have hmax : n ≤ 2 ^ 63 - 1 := Int64.toInt_maxValue ▸ hn.2
    exact Int64.toInt_ofInt_of_le hmin (by omega)
  · cases h

theorem word?_toInt (w : Int64) : word? w.toInt = some w := by
  simp [word?, isWord_toInt]

theorem word?_eq_none_iff {n : Int} : word? n = none ↔ ¬IsWord n := by
  simp [word?]

def floatOfWord (w : Int64) : Float := Float.ofInt w.toInt

end Stencil.Number
