import Mathlib.Algebra.Order.Field.Power
import Mathlib.Data.Rat.Cast.Order
import Mathlib.Order.WithBotTop
import Mathlib.Tactic.Linarith
import Mathlib.Tactic.Positivity
import Mathlib.Tactic.Ring
import Stencil.Number.Binary

/-!
The exact values of doubles. Comparing two doubles is comparing these.
-/

namespace Stencil.Number

-- The rational numbers, with a value below and one above them all.
abbrev Exact := WithBot (WithTop ℚ)

namespace Binary

-- The number that a sign, a mantissa and an exponent stand for.
def rational (negative : Bool) (mantissa : Nat) (exponent : Int) : ℚ :=
  if negative then -(mantissa * 2 ^ exponent) else mantissa * 2 ^ exponent

def value? : Binary → Option Exact
  | nan => none
  | infinite true => some ⊥
  | infinite false => some ⊤
  | finite negative mantissa exponent => some (rational negative mantissa exponent : ℚ)

end Binary

open Float.Model Float.Model.UnpackedFloat

-- A float taken apart, as a number.
def binaryOf : UnpackedFloat → Binary
  | .notANumber => .nan
  | .infinity s => .infinite (s == .negative)
  | .zero s => .finite (s == .negative) 0 Binary.leastExponent
  | .finite s m e _ => .finite (s == .negative) m e

-- How the size of a double is written: with 53 bits, the first of which is set unless the exponent
-- is the least.
structure Written (m : Nat) (e : Int) : Prop where
  lt : m < 2 ^ 53
  least_le : Binary.leastExponent ≤ e
  normal : 2 ^ 52 ≤ m ∨ e = Binary.leastExponent

-- What bits can be taken apart into.
inductive Canonical : UnpackedFloat → Prop where
  | notANumber : Canonical .notANumber
  | infinity (s : Sign) : Canonical (.infinity s)
  | zero (s : Sign) : Canonical (.zero s)
  | finite (s : Sign) {m : Nat} {e : Int} (hm : 0 < m) (h : Written m e) :
    Canonical (.finite s m e hm)

section Unpacking

variable (b : BitVec 64)

theorem toNat_unpackMantissa :
    (@unpackMantissa .binary64 b).toNat = b.toNat % Binary.fractionSize := by
  simp [unpackMantissa, Binary.fractionSize, Binary.fractionBits]

theorem toNat_unpackExponent : (@unpackExponent .binary64 b).toNat =
    b.toNat / Binary.fractionSize % Nat.pow 2 11 := by
  simp [unpackExponent, Binary.fractionSize, Binary.fractionBits, Nat.shiftRight_eq_div_pow]

theorem ofBitVec_unpackSign : (Sign.ofBitVec (@unpackSign .binary64 b) == .negative) =
    (b.toNat / Nat.pow 2 63 % 2 == 1) := by
  have hs : (@unpackSign .binary64 b).toNat = b.toNat / Nat.pow 2 63 % 2 := by
    delta unpackSign
    simp [Nat.shiftRight_eq_div_pow]
  rw [← hs]
  generalize @unpackSign .binary64 b = v
  revert v
  decide

-- Both ways to take bits apart come to the same.
theorem ofBits_unpack :
    Binary.ofBits b.toNat = binaryOf (UnpackedFloat.unpack .binary64 b) ∧
      Canonical (UnpackedFloat.unpack .binary64 b) := by
  have hfraction : (@unpackMantissa .binary64 b).toNat < 2 ^ 52 := BitVec.isLt _
  have hnone : @unpackMantissa .binary64 b = 0#52 ↔
      (@unpackMantissa .binary64 b).toNat = 0 := by
    rw [← BitVec.toNat_inj, BitVec.toNat_ofNat]
    rfl
  have hleast : @unpackExponent .binary64 b = 0#11 ↔
      (@unpackExponent .binary64 b).toNat = 0 := by
    rw [← BitVec.toNat_inj, BitVec.toNat_ofNat]
    rfl
  have hones : @unpackExponent .binary64 b = -1#11 ↔
      (@unpackExponent .binary64 b).toNat = Nat.pow 2 11 - 1 := by
    rw [← BitVec.toNat_inj]
    rfl
  unfold Binary.ofBits
  simp only [← toNat_unpackMantissa, ← toNat_unpackExponent, ← ofBitVec_unpackSign]
  unfold UnpackedFloat.unpack
  dsimp only
  by_cases hspecial : (@unpackExponent .binary64 b).toNat = Nat.pow 2 11 - 1
  · rw [if_pos hspecial, if_pos (hones.2 hspecial)]
    by_cases hinfinite : (@unpackMantissa .binary64 b).toNat = 0
    · rw [if_pos hinfinite, if_pos (hnone.2 hinfinite)]
      exact ⟨rfl, .infinity _⟩
    · rw [if_neg hinfinite, if_neg (hnone.not.2 hinfinite)]
      exact ⟨rfl, .notANumber⟩
  rw [if_neg hspecial, if_neg (hones.not.2 hspecial)]
  by_cases hsmall : (@unpackExponent .binary64 b).toNat = 0
  · rw [if_pos hsmall, if_pos (hleast.2 hsmall)]
    by_cases hzero : (@unpackMantissa .binary64 b).toNat = 0
    · rw [dif_pos (hnone.2 hzero), hzero]
      exact ⟨rfl, .zero _⟩
    · rw [dif_neg (hnone.not.2 hzero)]
      have hexponent : ((@unpackExponent .binary64 b).toNat : Int) - (1023 + 52) + 1 =
          Binary.leastExponent := by
        rw [hsmall]
        rfl
      refine ⟨?_, .finite _ _ ⟨by omega, hexponent.ge, .inr hexponent⟩⟩
      exact congrArg _ hexponent.symm
  · rw [if_neg hsmall, if_neg (hleast.not.2 hsmall)]
    have hmantissa : (1#1 ++ @unpackMantissa .binary64 b).toNat =
        Binary.fractionSize + (@unpackMantissa .binary64 b).toNat := by
      rw [BitVec.toNat_append, ← Nat.shiftLeft_add_eq_or_of_lt hfraction]
      rfl
    have hexponent : Binary.leastExponent +
        ((@unpackExponent .binary64 b).toNat - 1 : Nat) =
          ((@unpackExponent .binary64 b).toNat : Int) - (1023 + 52) := by
      unfold Binary.leastExponent
      omega
    refine ⟨?_, .finite _ _ ⟨?_, ?_, .inl ?_⟩⟩
    · rw [← hmantissa, hexponent]
      rfl
    · rw [hmantissa, Binary.fractionSize, Binary.fractionBits, Nat.pow_eq]
      omega
    · change Binary.leastExponent ≤ ((@unpackExponent .binary64 b).toNat : Int) - (1023 + 52)
      rw [← hexponent]
      omega
    · rw [hmantissa]
      exact Nat.le_add_right _ _

end Unpacking

-- The number that a float is, unless it is none.
def value? (x : Float) : Option Exact := (Binary.ofFloat x).value?

theorem ofFloat_eq_binaryOf (x : Float) : Binary.ofFloat x = binaryOf x.toModel.unpack :=
  (ofBits_unpack _).1

theorem canonical_unpack (x : Float) : Canonical x.toModel.unpack := (ofBits_unpack _).2

section Comparing

-- The larger exponent decides.
theorem Written.lt_of_exponent_lt {m n : Nat} {d e : Int} (h : Written m d) (h' : Written n e)
    (hlt : d < e) : (m * 2 ^ d : ℚ) < n * 2 ^ e := by
  have hn : 2 ^ 52 ≤ n := h'.normal.resolve_right (by have := h.least_le; omega)
  have hm := h.lt
  calc (m * 2 ^ d : ℚ) < 2 ^ 53 * 2 ^ d := by
        gcongr
        exact_mod_cast hm
    _ = 2 ^ 52 * 2 ^ (d + 1) := by
        rw [zpow_add₀ (by norm_num)]
        ring
    _ ≤ 2 ^ 52 * 2 ^ e := by
        gcongr
        · norm_num
        · omega
    _ ≤ n * 2 ^ e := by
        gcongr
        exact_mod_cast hn

theorem Written.compare_eq {m n : Nat} {d e : Int} (h : Written m d) (h' : Written n e) :
    (compare d e).then (compare m n) = cmp (m * 2 ^ d : ℚ) (n * 2 ^ e) := by
  rcases lt_trichotomy d e with hlt | rfl | hgt
  · rw [compare_lt_iff_lt.2 hlt, (cmp_eq_lt_iff _ _).2 (h.lt_of_exponent_lt h' hlt)]
    rfl
  · have hpos : (0 : ℚ) < 2 ^ d := by positivity
    have hmono : StrictMono fun k : Nat => (k * 2 ^ d : ℚ) := fun j k hjk => by
      dsimp only
      gcongr
    rw [compare_eq_iff_eq.2 rfl]
    exact (cmp_eq_compare m n).symm.trans (hmono.cmp_map_eq m n).symm
  · rw [compare_gt_iff_gt.2 hgt, (cmp_eq_gt_iff _ _).2 (h'.lt_of_exponent_lt h hgt)]
    rfl

theorem cmp_rational (p q : ℚ) : cmp (p : Exact) (q : Exact) = cmp p q := by
  have hmono : StrictMono fun r : ℚ => ((r : WithTop ℚ) : Exact) :=
    WithBot.coe_strictMono.comp WithTop.coe_strictMono
  exact hmono.cmp_map_eq p q

theorem cmp_rational_top (q : ℚ) : cmp (q : Exact) ⊤ = .lt :=
  (cmp_eq_lt_iff _ _).2 (WithBot.coe_lt_coe.2 (WithTop.coe_lt_top q))

theorem cmp_rational_bot (q : ℚ) : cmp (q : Exact) ⊥ = .gt :=
  (cmp_eq_gt_iff _ _).2 (WithBot.bot_lt_coe _)

theorem cmp_top_rational (q : ℚ) : cmp ⊤ (q : Exact) = .gt :=
  (cmp_eq_gt_iff _ _).2 (WithBot.coe_lt_coe.2 (WithTop.coe_lt_top q))

theorem cmp_bot_rational (q : ℚ) : cmp ⊥ (q : Exact) = .lt :=
  (cmp_eq_lt_iff _ _).2 (WithBot.bot_lt_coe _)

theorem size_pos {m : Nat} (hm : 0 < m) (e : Int) : (0 : ℚ) < m * 2 ^ e := by
  have hcast : (0 : ℚ) < m := by exact_mod_cast hm
  positivity

theorem value?_zero (s : Sign) : (binaryOf (.zero s)).value? = some ((0 : ℚ) : Exact) := by
  have hzero : Binary.rational (s == .negative) 0 Binary.leastExponent = 0 := by
    cases s <;> simp [Binary.rational]
  exact congrArg (fun q : ℚ => some (q : Exact)) hzero

-- A zero is below what has the positive sign and above what has the negative one.
theorem compare_zero_finite (s s' : Sign) {m : Nat} {e : Int} (hm : 0 < m) :
    (UnpackedFloat.zero s).compare (.finite s' m e hm) =
      some (cmp 0 (Binary.rational (s' == .negative) m e)) := by
  have hpos := size_pos hm e
  cases s' with
  | positive => exact congrArg some ((cmp_eq_lt_iff _ _).2 hpos).symm
  | negative => exact congrArg some ((cmp_eq_gt_iff _ _).2 (neg_neg_of_pos hpos)).symm

theorem compare_finite_zero (s s' : Sign) {m : Nat} {e : Int} (hm : 0 < m) :
    (UnpackedFloat.finite s m e hm).compare (.zero s') =
      some (cmp (Binary.rational (s == .negative) m e) 0) := by
  have hpos := size_pos hm e
  cases s with
  | positive => exact congrArg some ((cmp_eq_gt_iff _ _).2 hpos).symm
  | negative => exact congrArg some ((cmp_eq_lt_iff _ _).2 (neg_neg_of_pos hpos)).symm

theorem compare_finite (s s' : Sign) {m n : Nat} {d e : Int} (hm : 0 < m) (hn : 0 < n)
    (h : Written m d) (h' : Written n e) :
    (UnpackedFloat.finite s m d hm).compare (.finite s' n e hn) =
      some (cmp (Binary.rational (s == .negative) m d)
        (Binary.rational (s' == .negative) n e)) := by
  have hpos := size_pos hm d
  have hpos' := size_pos hn e
  cases s with
  | positive =>
    cases s' with
    | positive => exact congrArg some (h.compare_eq h')
    | negative =>
      exact congrArg some ((cmp_eq_gt_iff _ _).2 ((neg_neg_of_pos hpos').trans hpos)).symm
  | negative =>
    cases s' with
    | positive =>
      exact congrArg some ((cmp_eq_lt_iff _ _).2 ((neg_neg_of_pos hpos).trans hpos')).symm
    | negative =>
      have hanti : StrictAnti fun q : ℚ => -q := fun _ _ hlt => neg_lt_neg hlt
      refine congrArg some ((congrArg Ordering.swap (h.compare_eq h')).trans ?_)
      exact (cmp_swap _ _).trans (hanti.cmp_map_eq _ _).symm

-- The infinities are the ends of the order.
theorem compare_infinity_left {s : Sign} {g : UnpackedFloat} {u v : Exact}
    (hu : (binaryOf (.infinity s)).value? = some u) (hv : (binaryOf g).value? = some v) :
    (UnpackedFloat.infinity s).compare g = some (cmp u v) := by
  cases g with
  | notANumber => cases hv
  | infinity s' => cases s <;> cases s' <;> cases hu <;> cases hv <;> rfl
  | zero s' =>
    rw [value?_zero] at hv
    cases hv
    cases s <;> cases hu
    · exact congrArg some (cmp_bot_rational _).symm
    · exact congrArg some (cmp_top_rational _).symm
  | finite s' n e hn =>
    cases hv
    cases s <;> cases hu
    · exact congrArg some (cmp_bot_rational _).symm
    · exact congrArg some (cmp_top_rational _).symm

theorem compare_infinity_right {s : Sign} {f : UnpackedFloat} {q : ℚ} {v : Exact}
    (hq : (binaryOf f).value? = some (q : Exact)) (hv : (binaryOf (.infinity s)).value? = some v) :
    f.compare (.infinity s) = some (cmp (q : Exact) v) := by
  cases f with
  | notANumber => cases hq
  | infinity s' => cases s' <;> cases hq
  | zero s' =>
    cases s <;> cases hv
    · exact congrArg some (cmp_rational_bot _).symm
    · exact congrArg some (cmp_rational_top _).symm
  | finite s' m e hm =>
    cases s <;> cases hv
    · rw [cmp_rational_bot]
      cases s' <;> rfl
    · rw [cmp_rational_top]
      cases s' <;> rfl

-- The comparison of floats is that of their values, where both are numbers.
theorem compare_binaryOf {f g : UnpackedFloat} (hf : Canonical f) (hg : Canonical g) {u v : Exact}
    (hu : (binaryOf f).value? = some u) (hv : (binaryOf g).value? = some v) :
    f.compare g = some (cmp u v) := by
  cases hf with
  | notANumber => cases hu
  | infinity s => exact compare_infinity_left hu hv
  | zero s =>
    have hzero := value?_zero s
    obtain rfl := Option.some_inj.1 (hu.symm.trans hzero)
    cases hg with
    | notANumber => cases hv
    | infinity s' => exact compare_infinity_right hzero hv
    | zero s' =>
      obtain rfl := Option.some_inj.1 (hv.symm.trans (value?_zero s'))
      rw [cmp_self_eq_eq]
      rfl
    | finite s' hn h' =>
      cases hv
      rw [cmp_rational, compare_zero_finite]
  | finite s hm h =>
    cases hu
    cases hg with
    | notANumber => cases hv
    | infinity s' => exact compare_infinity_right rfl hv
    | zero s' =>
      obtain rfl := Option.some_inj.1 (hv.symm.trans (value?_zero s'))
      rw [cmp_rational, compare_finite_zero]
    | finite s' hn h' =>
      cases hv
      rw [cmp_rational, compare_finite s s' hm hn h h']

variable {x y : Float} {u v : Exact}

theorem compare_unpack (hx : value? x = some u) (hy : value? y = some v) :
    x.toModel.unpack.compare y.toModel.unpack = some (cmp u v) :=
  compare_binaryOf (canonical_unpack x) (canonical_unpack y)
    ((congrArg Binary.value? (ofFloat_eq_binaryOf x)).symm.trans hx)
    ((congrArg Binary.value? (ofFloat_eq_binaryOf y)).symm.trans hy)

theorem float_lt_iff (hx : value? x = some u) (hy : value? y = some v) : x < y ↔ u < v := by
  have hlt : x < y ↔ (x.toModel.unpack.compare y.toModel.unpack == some .lt) = true :=
    decide_eq_true_iff
  rw [hlt, compare_unpack hx hy, beq_iff_eq, Option.some_inj, cmp_eq_lt_iff]

theorem float_beq_iff (hx : value? x = some u) (hy : value? y = some v) :
    (x == y) = true ↔ u = v := by
  have hbeq : (x == y) = (x.toModel.unpack.compare y.toModel.unpack == some .eq) := rfl
  rw [hbeq, compare_unpack hx hy, beq_iff_eq, Option.some_inj, cmp_eq_eq_iff]

theorem unpack_of_value?_eq_none (hx : value? x = none) : x.toModel.unpack = .notANumber := by
  rw [value?, ofFloat_eq_binaryOf] at hx
  generalize x.toModel.unpack = f at hx
  cases f with
  | notANumber => rfl
  | infinity s => cases s <;> cases hx
  | _ => cases hx

theorem exists_value? (hx : x.isNaN = false) : ∃ u, value? x = some u := by
  refine Option.ne_none_iff_exists'.1 fun hnone => ?_
  have hnan : x.isNaN = x.toModel.unpack.isNaN := rfl
  rw [hnan, unpack_of_value?_eq_none hnone] at hx
  cases hx

-- Two floats are equal if they are the same number.
theorem float_beq_eq_true_iff :
    (x == y) = true ↔ ∃ u, value? x = some u ∧ value? y = some u := by
  constructor
  · intro h
    have hbeq : (x == y) = (x.toModel.unpack.compare y.toModel.unpack == some .eq) := rfl
    cases hx : value? x with
    | none =>
      rw [hbeq, unpack_of_value?_eq_none hx] at h
      cases h
    | some u =>
      cases hy : value? y with
      | none =>
        rw [hbeq, unpack_of_value?_eq_none hy] at h
        cases hf : x.toModel.unpack <;> rw [hf] at h <;> cases h
      | some v => exact ⟨u, rfl, congrArg some ((float_beq_iff hx hy).1 h).symm⟩
  · rintro ⟨u, hx, hy⟩
    exact (float_beq_iff hx hy).2 rfl

theorem float_beq_comm (x y : Float) : (x == y) = (y == x) := by
  rw [Bool.eq_iff_iff, float_beq_eq_true_iff, float_beq_eq_true_iff]
  exact exists_congr fun _ => and_comm

theorem float_beq_trans {z : Float} (h : (x == y) = true) (h' : (y == z) = true) :
    (x == z) = true := by
  obtain ⟨u, hx, hy⟩ := float_beq_eq_true_iff.1 h
  obtain ⟨v, hy', hz⟩ := float_beq_eq_true_iff.1 h'
  obtain rfl : u = v := Option.some_inj.1 (hy.symm.trans hy')
  exact float_beq_eq_true_iff.2 ⟨u, hx, hz⟩

end Comparing

end Stencil.Number
