import Mathlib.Algebra.Order.Field.Rat
import Mathlib.Tactic.FieldSimp
import Stencil.Number.Word
import Stencil.Proofs.Number.Doubles

/-!
An integer taken as a float is the float nearest to it.
-/

namespace Stencil.Number

open Float.Model Float.Model.UnpackedFloat

-- What can be written with 53 bits, at an exponent that is not too small. The finite doubles are.
def Precise (q : ℚ) : Prop :=
  ∃ k e : ℤ, |k| < 2 ^ 53 ∧ Binary.leastExponent ≤ e ∧ q = k * 2 ^ e

structure Nearest (q r : ℚ) : Prop where
  precise : Precise r
  le {d : ℚ} : Precise d → |q - r| ≤ |q - d|

theorem Precise.neg {q : ℚ} : Precise q → Precise (-q)
  | ⟨k, e, hk, he, hq⟩ => ⟨-k, e, by rwa [abs_neg], he, by rw [hq, Int.cast_neg, neg_mul]⟩

theorem precise_nat {n : Nat} (hn : n ≤ 2 ^ 53) {e : Int} (he : Binary.leastExponent ≤ e) :
    Precise (n * 2 ^ e) := by
  rcases hn.lt_or_eq with hlt | rfl
  · exact ⟨n, e, by rw [Nat.abs_cast]; exact_mod_cast hlt, he, by simp⟩
  · refine ⟨2 ^ 52, e + 1, by decide, by omega, ?_⟩
    rw [zpow_add₀ (by norm_num)]
    push_cast
    ring

theorem precise_int {n : Int} (hn : n.natAbs ≤ 2 ^ 53) : Precise n := by
  have hsize := precise_nat hn (e := 0) (by decide)
  rw [zpow_zero, mul_one] at hsize
  obtain ⟨k, rfl | rfl⟩ := n.eq_nat_or_neg
  · rwa [Int.natAbs_natCast] at hsize
  · rw [Int.natAbs_neg, Int.natAbs_natCast] at hsize
    rw [Int.cast_neg]
    exact hsize.neg

theorem precise_of_value? {x : Float} {q : ℚ} (h : value? x = some (q : Exact)) : Precise q := by
  rw [value?, ofFloat_eq_binaryOf] at h
  have hcanonical := canonical_unpack x
  generalize x.toModel.unpack = f at h hcanonical
  cases hcanonical with
  | notANumber => cases h
  | infinity s => cases s <;> cases h
  | zero s =>
    rw [value?_zero] at h
    cases h
    exact precise_int (n := 0) (by decide)
  | finite s hm hwritten =>
    have hsize := precise_nat hwritten.lt.le hwritten.least_le
    cases s with
    | positive =>
      cases h
      exact hsize
    | negative =>
      cases h
      exact hsize.neg

namespace Nearest

variable {q q' r r' d : ℚ}

protected theorem neg (h : Nearest q r) : Nearest (-q) (-r) where
  precise := h.precise.neg
  le {d} hd := by
    have hle := h.le hd.neg
    rwa [← abs_neg (q - r), ← abs_neg (q - -d), neg_sub', neg_sub', neg_neg] at hle

theorem eq_of_precise (h : Nearest q r) (hq : Precise q) : r = q := by
  have hle := h.le hq
  rw [sub_self, abs_zero] at hle
  exact (sub_eq_zero.1 (abs_nonpos_iff.1 hle)).symm

-- Rounding does not pass a double.
theorem le_of_le (h : Nearest q r) (hd : Precise d) (hdq : d ≤ q) : d ≤ r := by
  by_contra hlt
  have hle := h.le hd
  rw [abs_of_nonneg (by linarith), abs_of_nonneg (by linarith)] at hle
  linarith

theorem ge_of_ge (h : Nearest q r) (hd : Precise d) (hdq : q ≤ d) : r ≤ d :=
  neg_le_neg_iff.1 (h.neg.le_of_le hd.neg (neg_le_neg hdq))

-- Of two doubles in the wrong order, each would be as near to one number as the other is, and the
-- two numbers would be on the wrong sides of the middle.
theorem mono (h : Nearest q r) (h' : Nearest q' r') (hq : q < q') : r ≤ r' := by
  by_contra hlt
  have hle := sq_le_sq.2 (h.le h'.precise)
  have hle' := sq_le_sq.2 (h'.le h.precise)
  nlinarith

-- Nor does it pass an infinity.
theorem exact_le (h : Nearest q r) {x : Float} {u : Exact} (hu : value? x = some u)
    (hqu : (q : Exact) ≤ u) : (r : Exact) ≤ u := by
  induction u using WithBot.recBotCoe with
  | bot => exact absurd (WithBot.bot_lt_coe _) hqu.not_gt
  | coe t =>
    induction t using WithTop.recTopCoe with
    | top => exact WithBot.coe_le_coe.2 le_top
    | coe d =>
      have hle : q ≤ d := WithTop.coe_le_coe.1 (WithBot.coe_le_coe.1 hqu)
      have hge := h.ge_of_ge (precise_of_value? hu) hle
      exact WithBot.coe_le_coe.2 (WithTop.coe_le_coe.2 hge)

theorem le_exact (h : Nearest q r) {x : Float} {u : Exact} (hu : value? x = some u)
    (huq : u ≤ (q : Exact)) : u ≤ (r : Exact) := by
  induction u using WithBot.recBotCoe with
  | bot => exact bot_le
  | coe t =>
    induction t using WithTop.recTopCoe with
    | top => exact absurd (WithBot.coe_lt_coe.2 (WithTop.coe_lt_top q)) huq.not_gt
    | coe d =>
      have hle : d ≤ q := WithTop.coe_le_coe.1 (WithBot.coe_le_coe.1 huq)
      have hge := h.le_of_le (precise_of_value? hu) hle
      exact WithBot.coe_le_coe.2 (WithTop.coe_le_coe.2 hge)

end Nearest

-- No integer is nearer than one within a half.
theorem abs_sub_int_le {x : ℚ} {m : Int} (hx : |x - m| ≤ 1 / 2) (j : Int) : |x - m| ≤ |x - j| := by
  rcases eq_or_ne m j with rfl | hne
  · exact le_rfl
  · have hone : (1 : ℚ) ≤ |(m : ℚ) - j| := by
      exact_mod_cast Int.one_le_abs (sub_ne_zero.2 hne)
    have htriangle := abs_sub_le (m : ℚ) x j
    rw [abs_sub_comm (m : ℚ) x] at htriangle
    linarith

-- With the first of the 53 bits set, the competitors are the integers and what is below them all.
theorem nearest_of_abs_sub_le {x : ℚ} {m : Nat} {e : Int} (hlow : 2 ^ 52 ≤ x) (hm : m ≤ 2 ^ 53)
    (hx : |x - m| ≤ 1 / 2) (he : Binary.leastExponent ≤ e) : Nearest (x * 2 ^ e) (m * 2 ^ e) where
  precise := precise_nat hm he
  le {d} := by
    rintro ⟨k, e', hk, -, rfl⟩
    have hpos : (0 : ℚ) < 2 ^ e := by positivity
    have hscale : (k * 2 ^ e' : ℚ) = k * 2 ^ (e' - e) * 2 ^ e := by
      rw [mul_assoc, ← zpow_add₀ (by norm_num), Int.sub_add_cancel]
    rw [hscale, ← sub_mul, ← sub_mul, abs_mul, abs_mul]
    refine mul_le_mul_of_nonneg_right ?_ (abs_nonneg _)
    rcases le_or_gt e e' with hle | hgt
    · have hint : (k * 2 ^ (e' - e) : ℚ) = ((k * 2 ^ (e' - e).toNat : Int) : ℚ) := by
        push_cast
        rw [← zpow_natCast, Int.toNat_of_nonneg (by omega)]
      rw [hint]
      exact abs_sub_int_le hx _
    · have hbelow : (k * 2 ^ (e' - e) : ℚ) ≤ 2 ^ 52 := by
        have hk' : (k : ℚ) ≤ 2 ^ 53 := by exact_mod_cast (abs_lt.1 hk).2.le
        calc (k * 2 ^ (e' - e) : ℚ) ≤ 2 ^ 53 * 2 ^ (e' - e) := by gcongr
          _ ≤ 2 ^ 53 * 2 ^ (-1 : Int) := by
            gcongr
            · norm_num
            · omega
          _ = 2 ^ 52 := by norm_num
      refine (abs_sub_int_le hx (2 ^ 52)).trans ?_
      push_cast
      rw [abs_of_nonneg (by linarith), abs_of_nonneg (by linarith)]
      linarith

section Shifting

-- What a mantissa with its two further bits says of a number: where between two integers it is.
inductive Represents : ExtendedMantissa → ℚ → Prop where
  | exact (m : Nat) : Represents ⟨m, false, false⟩ m
  | below {m : Nat} {x : ℚ} (h : m < x) (h' : x < m + 1 / 2) : Represents ⟨m, false, true⟩ x
  | middle (m : Nat) : Represents ⟨m, true, false⟩ (m + 1 / 2)
  | above {m : Nat} {x : ℚ} (h : m + 1 / 2 < x) (h' : x < m + 1) : Represents ⟨m, true, true⟩ x

theorem shiftRightOne_even (q : Nat) (r s : Bool) :
    ExtendedMantissa.shiftRightOne ⟨2 * q, r, s⟩ = ⟨q, false, r || s⟩ := by
  simp [ExtendedMantissa.shiftRightOne]

theorem shiftRightOne_odd (q : Nat) (r s : Bool) :
    ExtendedMantissa.shiftRightOne ⟨2 * q + 1, r, s⟩ = ⟨q, true, r || s⟩ := by
  have hhalf : (2 * q + 1) / 2 = q := by omega
  simp [ExtendedMantissa.shiftRightOne, hhalf]

-- The bit shifted out says on which side of the middle the half of the number is.
theorem Represents.shiftRightOne {em : ExtendedMantissa} {x : ℚ} (h : Represents em x) :
    Represents em.shiftRightOne (x / 2) := by
  cases h with
  | exact m =>
    obtain ⟨q, rfl | rfl⟩ := Nat.even_or_odd' m
    · rw [shiftRightOne_even, show ((2 * q : Nat) : ℚ) / 2 = q by push_cast; ring]
      exact .exact q
    · rw [shiftRightOne_odd, show ((2 * q + 1 : Nat) : ℚ) / 2 = q + 1 / 2 by push_cast; ring]
      exact .middle q
  | @below m x h h' =>
    obtain ⟨q, rfl | rfl⟩ := Nat.even_or_odd' m
    all_goals push_cast at h h'
    · rw [shiftRightOne_even]
      exact .below (by linarith) (by linarith)
    · rw [shiftRightOne_odd]
      exact .above (by linarith) (by linarith)
  | middle m =>
    obtain ⟨q, rfl | rfl⟩ := Nat.even_or_odd' m
    all_goals push_cast
    · rw [shiftRightOne_even]
      exact .below (by linarith) (by linarith)
    · rw [shiftRightOne_odd]
      exact .above (by linarith) (by linarith)
  | @above m x h h' =>
    obtain ⟨q, rfl | rfl⟩ := Nat.even_or_odd' m
    all_goals push_cast at h h'
    · rw [shiftRightOne_even]
      exact .below (by linarith) (by linarith)
    · rw [shiftRightOne_odd]
      exact .above (by linarith) (by linarith)

theorem Represents.shiftRight {em : ExtendedMantissa} {x : ℚ} (h : Represents em x) (n : Nat) :
    Represents (em >>> n) (x / 2 ^ n) := by
  induction n with
  | zero => rwa [pow_zero, div_one]
  | succ n ih =>
    rw [pow_succ, ← div_div]
    exact ih.shiftRightOne

theorem Represents.abs_sub_rounded_le {em : ExtendedMantissa} {x : ℚ} (h : Represents em x) :
    |x - em.roundedMantissa| ≤ 1 / 2 := by
  cases h with
  | exact m =>
    change |(m : ℚ) - m| ≤ _
    rw [sub_self, abs_zero]
    norm_num
  | @below m x h h' =>
    change |x - m| ≤ _
    rw [abs_of_pos (by linarith)]
    linarith
  | middle m =>
    change |(m : ℚ) + 1 / 2 - (m + m % 2 : Nat)| ≤ _
    rcases Nat.mod_two_eq_zero_or_one m with heven | hodd
    · rw [heven, Nat.add_zero, add_sub_cancel_left, abs_of_pos (by norm_num)]
    · rw [hodd, Nat.cast_add, add_sub_add_left_eq_sub]
      norm_num
  | @above m x h h' =>
    change |x - (m + 1 : Nat)| ≤ _
    push_cast
    rw [abs_of_neg (by linarith)]
    linarith

end Shifting

-- How a float of ordinary size is written.
structure Ordinary (m : Nat) (e : Int) : Prop where
  le : 2 ^ 52 ≤ m
  lt : m < 2 ^ 53
  least_le : Binary.leastExponent ≤ e
  le_most : e ≤ 971

-- A float taken apart is one of the given sign whose size is nearest to `q`.
def Approximates (f : UnpackedFloat) (s : Sign) (q : ℚ) : Prop :=
  ∃ m e, ∃ hm : 0 < m, f = .finite s m e hm ∧ Ordinary m e ∧ Nearest q (m * 2 ^ e)

section Rounding

variable {m : Nat} {e : Int}

theorem log2_eq_of_ordinary (h : 2 ^ 52 ≤ m) (h' : m < 2 ^ 53) : m.log2 = 52 := by
  have hle := (Nat.le_log2 (by omega)).2 h
  have hlt := (Nat.log2_lt (by omega)).2 h'
  omega

theorem shiftToTargetExponent_eq (hm : 2 ^ 52 ≤ m) (he : Binary.leastExponent ≤ e) :
    shiftToTargetExponent .binary64 m e .exact =
      ((⟨m, false, false⟩ : ExtendedMantissa) >>> (m.log2 - 52), e + (m.log2 - 52 : Nat)) := by
  have hlog := (Nat.le_log2 (by omega)).2 hm
  have hshift : (Format.binary64.targetExponent (totalExponent m e) - e).toNat = m.log2 - 52 := by
    change -1074 ≤ e at he
    change (max ((m.log2 + 1 + e : Int) - 53) (-1074) - e).toNat = _
    omega
  rw [← hshift]
  rfl

-- The first shift leaves 53 bits.
theorem shifted_bounds (hm : 2 ^ 52 ≤ m) :
    (2 ^ 52 : ℚ) ≤ m / 2 ^ (m.log2 - 52) ∧ (m / 2 ^ (m.log2 - 52) : ℚ) < 2 ^ 53 := by
  have hlog := (Nat.le_log2 (by omega)).2 hm
  have hle : 2 ^ 52 * 2 ^ (m.log2 - 52) ≤ m := by
    rw [← pow_add, Nat.add_sub_cancel' hlog]
    exact Nat.log2_self_le (by omega)
  have hlt : m < 2 ^ 53 * 2 ^ (m.log2 - 52) := by
    rw [← pow_add, show 53 + (m.log2 - 52) = m.log2 + 1 by omega]
    exact Nat.lt_log2_self
  constructor
  · rw [le_div_iff₀ (by positivity)]
    exact_mod_cast hle
  · rw [div_lt_iff₀ (by positivity)]
    exact_mod_cast hlt

theorem roundWithAccuracy_eq (s : Sign) (hm : 2 ^ 52 ≤ m) (he : Binary.leastExponent ≤ e)
    {r n : Nat} {d : Int} (hn : 0 < n)
    (hr : ((⟨m, false, false⟩ : ExtendedMantissa) >>> (m.log2 - 52)).roundedMantissa = r)
    (hsecond : shiftToTargetExponent .binary64 r (e + (m.log2 - 52 : Nat)) .exact =
      (⟨n, false, false⟩, d)) :
    roundWithAccuracy .binary64 s m e .exact = .finite s n d hn := by
  unfold roundWithAccuracy
  rw [shiftToTargetExponent_eq hm he]
  dsimp only
  rw [hr, hsecond]
  exact dif_neg hn.ne'

-- What has 53 bits is not rounded.
theorem roundWithAccuracy_ordinary (s : Sign) (hm : 0 < m) (h : Ordinary m e) :
    roundWithAccuracy .binary64 s m e .exact = .finite s m e hm := by
  have hlog := log2_eq_of_ordinary h.le h.lt
  have hshift := shiftToTargetExponent_eq h.le h.least_le
  rw [hlog, Nat.sub_self, Nat.cast_zero, add_zero] at hshift
  refine roundWithAccuracy_eq s h.le h.least_le (r := m) hm ?_ ?_
  · rw [hlog]
    rfl
  · rw [hlog, Nat.sub_self, Nat.cast_zero, add_zero]
    exact hshift

-- Rounding leaves 53 bits too, or carries.
theorem rounded_bounds {x : ℚ} {r : Nat} (hlow : 2 ^ 52 ≤ x) (hhigh : x < 2 ^ 53)
    (hx : |x - r| ≤ 1 / 2) : 2 ^ 52 ≤ r ∧ r ≤ 2 ^ 53 := by
  obtain ⟨hbelow, habove⟩ := abs_le.1 hx
  constructor
  · have hlt : (2 ^ 52 : ℚ) < r + 1 := by linarith
    exact Nat.lt_succ_iff.1 (by exact_mod_cast hlt)
  · have hlt : (r : ℚ) < 2 ^ 53 + 1 := by linarith
    exact Nat.lt_succ_iff.1 (by exact_mod_cast hlt)

-- The number is cut to 53 bits and rounded to an integer there. A carry into one more bit is
-- shifted out again.
theorem approximates_round (s : Sign) (hm : 2 ^ 52 ≤ m) (he : Binary.leastExponent ≤ e)
    (hmost : e + m.log2 ≤ 1000) :
    Approximates (roundWithAccuracy .binary64 s m e .exact) s (m * 2 ^ e) := by
  have hlog := (Nat.le_log2 (by omega)).2 hm
  obtain ⟨hlow, hhigh⟩ := shifted_bounds hm
  have habs := ((Represents.exact m).shiftRight (m.log2 - 52)).abs_sub_rounded_le
  generalize hr : ((⟨m, false, false⟩ : ExtendedMantissa) >>> (m.log2 - 52)).roundedMantissa = r
    at habs
  obtain ⟨hrlow, hrhigh⟩ := rounded_bounds hlow hhigh habs
  have hleast : Binary.leastExponent ≤ e + (m.log2 - 52 : Nat) := by omega
  have hnearest := nearest_of_abs_sub_le hlow hrhigh habs hleast
  have hscale : (m / 2 ^ (m.log2 - 52) * 2 ^ (e + (m.log2 - 52 : Nat)) : ℚ) = m * 2 ^ e := by
    rw [zpow_add₀ (by norm_num), zpow_natCast]
    field_simp
  rw [hscale] at hnearest
  have hsecond := shiftToTargetExponent_eq hrlow hleast
  rcases hrhigh.lt_or_eq with hlt | rfl
  · rw [log2_eq_of_ordinary hrlow hlt, Nat.sub_self, Nat.cast_zero, add_zero] at hsecond
    exact ⟨r, _, by omega, roundWithAccuracy_eq s hm he (by omega) hr hsecond,
      ⟨hrlow, hlt, hleast, by omega⟩, hnearest⟩
  · rw [Nat.log2_two_pow] at hsecond
    refine ⟨2 ^ 52, _, by decide, roundWithAccuracy_eq s hm he (by decide) hr hsecond,
      ⟨le_rfl, by decide, by omega, by omega⟩, ?_⟩
    have hcarry : ((2 ^ 53 : Nat) * 2 ^ (e + (m.log2 - 52 : Nat)) : ℚ) =
        (2 ^ 52 : Nat) * 2 ^ (e + (m.log2 - 52 : Nat) + (53 - 52 : Nat)) := by
      rw [zpow_add₀ (two_ne_zero' ℚ) _ ((53 - 52 : Nat) : Int)]
      push_cast
      ring
    rwa [hcarry] at hnearest

end Rounding

section Packing

variable {f : UnpackedFloat} {s : Sign} {q : ℚ}

theorem ofBitVec_unpackSign_packComponents {spec : Format} {e m} :
    Sign.ofBitVec (unpackSign (packComponents spec s e m)) = s := by
  have hsign : unpackSign (packComponents spec s e m) = s.toBitVec := by
    ext i hi
    obtain rfl : i = 0 := by omega
    delta unpackSign packComponents
    simp [BitVec.getLsbD_append, BitVec.getElem_append]
  rw [hsign]
  cases s <;> rfl

theorem pack_finite (s : Sign) {m : Nat} {e : Int} (hm : 0 < m) (h : Ordinary m e) :
    UnpackedFloat.pack .binary64 (.finite s m e hm) =
      packComponents .binary64 s (BitVec.ofNat 11 (e + 1023 + 52).toNat) (BitVec.ofNat 52 m) := by
  have hexponent : ¬2 ^ 11 ≤ (e + 1023 + 52).toNat + 1 := by
    have hmost := h.le_most
    omega
  have hmantissa : m.log2 + 1 = 53 := congrArg (· + 1) (log2_eq_of_ordinary h.le h.lt)
  exact (if_neg hexponent).trans (if_pos hmantissa)

-- Packing loses nothing of a float of ordinary size.
theorem unpack_pack_finite (s : Sign) {m : Nat} {e : Int} (hm : 0 < m) (h : Ordinary m e) :
    UnpackedFloat.unpack .binary64 (UnpackedFloat.pack .binary64 (.finite s m e hm)) =
      .finite s m e hm := by
  obtain ⟨hle, hlt, hleast, hmost⟩ := id h
  change -1074 ≤ e at hleast
  have hexponent : (BitVec.ofNat 11 (e + 1023 + 52).toNat).toNat = (e + 1023 + 52).toNat := by
    rw [BitVec.toNat_ofNat]
    omega
  have hmantissa : (1#1 ++ BitVec.ofNat 52 m).toNat = m := by
    rw [BitVec.toNat_append, ← Nat.shiftLeft_add_eq_or_of_lt (BitVec.isLt _), BitVec.toNat_ofNat]
    change 2 ^ 52 + m % 2 ^ 52 = m
    omega
  have hones : BitVec.ofNat 11 (e + 1023 + 52).toNat ≠ -1#11 := fun heq => by
    have htoNat : (e + 1023 + 52).toNat = 2047 := hexponent.symm.trans (congrArg BitVec.toNat heq)
    omega
  have hzero : BitVec.ofNat 11 (e + 1023 + 52).toNat ≠ 0#11 := fun heq => by
    have htoNat : (e + 1023 + 52).toNat = 0 := hexponent.symm.trans (congrArg BitVec.toNat heq)
    omega
  rw [pack_finite s hm h]
  have hsame {s' : Sign} {m' : Nat} {e' : Int} (hm' : 0 < m') (hs : s' = s) (heq : m' = m)
      (heq' : e' = e) : UnpackedFloat.finite s' m' e' hm' = .finite s m e hm := by
    subst hs heq heq'
    rfl
  unfold UnpackedFloat.unpack
  refine (if_neg ?_).trans ((if_neg ?_).trans
    (hsame _ ofBitVec_unpackSign_packComponents ?_ ?_))
  · rw [unpackExponent_packComponents]
    exact hones
  · rw [unpackExponent_packComponents]
    exact hzero
  · rw [unpackMantissa_packComponents]
    exact hmantissa
  · rw [unpackExponent_packComponents, hexponent]
    change ((e + 1023 + 52).toNat : Int) - (1023 + 52) = e
    omega

theorem Approximates.unpack_pack (h : Approximates f s q) :
    Approximates (Float.Model.pack f).unpack s q := by
  obtain ⟨m, e, hm, rfl, hordinary, hnearest⟩ := h
  exact ⟨m, e, hm, unpack_pack_finite s hm hordinary, hordinary, hnearest⟩

theorem Approximates.neg (h : Approximates f s q) : Approximates f.neg (-s) q := by
  obtain ⟨m, e, hm, rfl, hordinary, hnearest⟩ := h
  exact ⟨m, e, hm, rfl, hordinary, hnearest⟩

end Packing

section Integers

variable {n : Nat}

theorem ordinary_shiftLeft (hpos : 0 < n) (hn : n < 2 ^ 53) :
    Ordinary (n <<< (52 - n.log2)) (-(52 - n.log2 : Nat)) := by
  have hlog : n.log2 < 53 := (Nat.log2_lt hpos.ne').2 hn
  have hle : 2 ^ n.log2 ≤ n := Nat.log2_self_le hpos.ne'
  have hlt : n < 2 ^ (n.log2 + 1) := Nat.lt_log2_self
  have hpow : 2 ^ n.log2 * 2 ^ (52 - n.log2) = 2 ^ 52 := by
    rw [← pow_add, Nat.add_sub_cancel' (by omega)]
  rw [Nat.shiftLeft_eq]
  refine ⟨?_, ?_, ?_, by omega⟩
  · rw [← hpow]
    exact Nat.mul_le_mul_right _ hle
  · calc n * 2 ^ (52 - n.log2) < 2 ^ (n.log2 + 1) * 2 ^ (52 - n.log2) :=
          Nat.mul_lt_mul_of_pos_right hlt (by positivity)
      _ = 2 ^ 53 := by
          rw [pow_succ, mul_right_comm, hpow]
          rfl
  · change -1074 ≤ _
    omega

-- Moved up and scaled down, a number is what it was.
theorem shiftLeft_mul_zpow {m k : Nat} {e : Int} (hm : m = n <<< k) (he : e = -k) :
    (m * 2 ^ e : ℚ) = n := by
  rw [hm, he, Nat.shiftLeft_eq, zpow_neg, zpow_natCast]
  push_cast
  exact mul_inv_cancel_right₀ (by positivity) _

-- A number of at most 53 bits is moved up to 53 and not rounded.
theorem round_small (hpos : 0 < n) (hn : n < 2 ^ 53) :
    ∃ hm, UnpackedFloat.round .binary64 .positive n 0 =
      .finite .positive (n <<< (52 - n.log2)) (-(52 - n.log2 : Nat)) hm := by
  have hordinary := ordinary_shiftLeft hpos hn
  have hlog : n.log2 < 53 := (Nat.log2_lt hpos.ne').2 hn
  have hshift : (0 - Format.binary64.targetExponent (totalExponent n 0)).toNat = 52 - n.log2 := by
    change (0 - max ((n.log2 + 1 + 0 : Int) - 53) (-1074)).toNat = _
    omega
  have hround : UnpackedFloat.round .binary64 .positive n 0 =
      roundWithAccuracy .binary64 .positive (n <<< (52 - n.log2)) (0 - (52 - n.log2 : Nat))
        .exact := by
    rw [← hshift]
    rfl
  rw [hround, zero_sub]
  exact ⟨_, roundWithAccuracy_ordinary _ (by have := hordinary.le; omega) hordinary⟩

theorem unpack_toFloat (hpos : 0 < n) (hn : n < 2 ^ 53) :
    ∃ hm, n.toUInt64.toFloat.toModel.unpack =
      .finite .positive (n <<< (52 - n.log2)) (-(52 - n.log2 : Nat)) hm := by
  obtain ⟨hm, hround⟩ := round_small hpos hn
  have hword : n.toUInt64.toNat = n := Nat.mod_eq_of_lt (by omega)
  have hofNat : UnpackedFloat.ofNat .binary64 n =
      UnpackedFloat.round .binary64 .positive n 0 := by
    change UnpackedFloat.normalize .binary64 n 0 .positive = _
    rw [UnpackedFloat.normalize, compare_gt_iff_gt.2 (by omega)]
    rfl
  refine ⟨hm, ?_⟩
  change UnpackedFloat.unpack .binary64
    (UnpackedFloat.pack .binary64 (UnpackedFloat.ofNat .binary64 n.toUInt64.toNat)) = _
  rw [hword, hofNat, hround, unpack_pack_finite .positive hm (ordinary_shiftLeft hpos hn)]

theorem unpack_one :
    (Float.ofBits 0x3FF0000000000000).toModel.unpack =
      .finite .positive (2 ^ 52) (-52) (by decide) := rfl

-- A natural number below 2^53 is first made a float, without loss, and multiplied by one.
theorem approximates_ofNat_small (hpos : 0 < n) (hn : n < 2 ^ 53) :
    Approximates (Float.ofNat n).toModel.unpack .positive n := by
  have hordinary := ordinary_shiftLeft hpos hn
  have hlog : n.log2 < 53 := (Nat.log2_lt hpos.ne').2 hn
  obtain ⟨hm, hfloat⟩ := unpack_toFloat hpos hn
  have hproduct : Float.ofNat n = n.toUInt64.toFloat * Float.ofBits 0x3FF0000000000000 := by
    change Float.ofScientific n false 0 = _
    rw [Float.ofScientific, dif_pos ⟨hn, by decide⟩]
    rfl
  have hmul : Approximates (UnpackedFloat.mul .binary64 n.toUInt64.toFloat.toModel.unpack
      (Float.ofBits 0x3FF0000000000000).toModel.unpack) .positive n := by
    rw [hfloat, unpack_one]
    have hleast : Binary.leastExponent ≤ -(52 - n.log2 : Nat) + -52 := by
      change -1074 ≤ _
      omega
    have hsize : (n <<< (52 - n.log2) * 2 ^ 52).log2 < 128 := by
      rw [Nat.log2_lt (by positivity)]
      calc n <<< (52 - n.log2) * 2 ^ 52 ≤ 2 ^ 53 * 2 ^ 52 :=
            Nat.mul_le_mul_right _ hordinary.lt.le
        _ < 2 ^ 128 := by norm_num
    have hvalue : ((n <<< (52 - n.log2) * 2 ^ 52 : Nat) *
        2 ^ (-(52 - n.log2 : Nat) + -52 : Int) : ℚ) = n :=
      shiftLeft_mul_zpow (by rw [Nat.shiftLeft_add, Nat.shiftLeft_eq _ 52]) (by omega)
    have hlow : 2 ^ 52 ≤ n <<< (52 - n.log2) * 2 ^ 52 :=
      hordinary.le.trans (Nat.le_mul_of_pos_right _ (by positivity))
    have hrounded := approximates_round .positive hlow hleast (by omega)
    rwa [hvalue] at hrounded
  rw [hproduct]
  exact hmul.unpack_pack

theorem approximates_ofNat_large (hn : 2 ^ 53 ≤ n) (hn' : n ≤ 2 ^ 63) :
    Approximates (Float.ofNat n).toModel.unpack .positive n := by
  have hscientific : Float.ofNat n = .ofModel (Float.Model.ofScientific n 0) := by
    change Float.ofScientific n false 0 = _
    rw [Float.ofScientific, dif_neg (by omega)]
    rfl
  have hsmall : ¬(0 : Int) < -(2 ^ 11 + n.log2) := by omega
  have hround : UnpackedFloat.ofScientific .binary64 n 0 =
      roundWithAccuracy .binary64 .positive ((n <<< 53) * 10 ^ 0) (-53 + 0) .exact := by
    rw [UnpackedFloat.ofScientific, dif_neg (by omega), if_neg (by decide), if_neg hsmall,
      if_pos le_rfl]
    rfl
  have hlow : 2 ^ 52 ≤ n <<< 53 * 10 ^ 0 := by
    rw [Nat.shiftLeft_eq]
    omega
  have hlog : (n <<< 53 * 10 ^ 0).log2 < 128 := by
    rw [Nat.log2_lt (by omega), Nat.shiftLeft_eq]
    calc n * 2 ^ 53 * 10 ^ 0 ≤ 2 ^ 63 * 2 ^ 53 * 10 ^ 0 := by gcongr
      _ < 2 ^ 128 := by norm_num
  have hvalue : ((n <<< 53 * 10 ^ 0 : Nat) * 2 ^ (-53 + 0 : Int) : ℚ) = n :=
    shiftLeft_mul_zpow (k := 53) (Nat.mul_one _) rfl
  have hrounded := approximates_round .positive hlow (e := -53 + 0) (by decide) (by omega)
  rw [hvalue, ← hround] at hrounded
  rw [hscientific]
  exact hrounded.unpack_pack

theorem approximates_ofNat (hpos : 0 < n) (hn : n ≤ 2 ^ 63) :
    Approximates (Float.ofNat n).toModel.unpack .positive n := by
  rcases lt_or_ge n (2 ^ 53) with hlt | hge
  · exact approximates_ofNat_small hpos hlt
  · exact approximates_ofNat_large hge hn

-- The float of an integer is the nearest one.
theorem nearest_floatOfWord (w : Int64) :
    ∃ r : ℚ, value? (floatOfWord w) = some (r : Exact) ∧ Nearest w.toInt r := by
  obtain ⟨hlow, hhigh⟩ := isWord_toInt w
  rw [Int64.toInt_minValue] at hlow
  rw [Int64.toInt_maxValue] at hhigh
  unfold floatOfWord value?
  rw [ofFloat_eq_binaryOf]
  generalize w.toInt = k at hlow hhigh
  cases k with
  | ofNat n =>
    rw [Int.ofNat_eq_natCast] at hhigh
    rcases Nat.eq_zero_or_pos n with rfl | hpos
    · exact ⟨0, value?_zero .positive, precise_int (n := 0) (by decide), fun _ => by simp⟩
    · obtain ⟨m, e, hm, hunpack, -, hnearest⟩ := approximates_ofNat hpos (by omega)
      exact ⟨_, congrArg (fun f => (binaryOf f).value?) hunpack, hnearest⟩
  | negSucc n =>
    have hneg := (approximates_ofNat n.succ_pos (by omega)).neg.unpack_pack
    obtain ⟨m, e, hm, hunpack, -, hnearest⟩ := hneg
    refine ⟨_, congrArg (fun f => (binaryOf f).value?) hunpack, ?_⟩
    have hcast : ((Int.negSucc n : Int) : ℚ) = -(n.succ : Nat) := by
      rw [Int.cast_negSucc]
    rw [hcast]
    exact hnearest.neg

end Integers

end Stencil.Number
