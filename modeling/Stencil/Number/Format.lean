import Stencil.Number.Binary

/-!
How numbers are written: with the fewest decimal digits that read back as the same double. Of two
decimals with that many digits the nearer one is taken, and of two equally near the larger.
-/

namespace Stencil.Number

-- `digits * 10 ^ exponent`
structure Decimal where
  digits : Nat
  exponent : Int
deriving DecidableEq

-- The interval of numbers that round to a double, with the double inside it. All three bounds are
-- numerators over one denominator.
structure Rounding where
  low : Nat
  value : Nat
  high : Nat
  denominator : Nat
  closed : Bool

namespace Rounding

-- The neighbours below a power of two are only half as far away as those above it.
def ofBinary (mantissa : Nat) (exponent : Int) : Rounding :=
  let atPower := mantissa == Binary.fractionSize && exponent != Binary.leastExponent
  let unit := Nat.pow 2 (exponent - 2).toNat
  { low := (4 * mantissa - if atPower then 1 else 2) * unit
    value := 4 * mantissa * unit
    high := (4 * mantissa + 2) * unit
    denominator := Nat.pow 2 (2 - exponent).toNat
    closed := mantissa % 2 == 0 }

-- Does `n * 10 ^ exponent` lie in the interval?
def holds (r : Rounding) (n : Nat) (exponent : Int) : Bool :=
  let n := n * Nat.pow 10 exponent.toNat * r.denominator
  let scale := Nat.pow 10 (-exponent).toNat
  if r.closed then r.low * scale ≤ n && n ≤ r.high * scale
  else r.low * scale < n && n < r.high * scale

-- The multiple of `10 ^ exponent` next to the value that lies in the interval, if there is one.
def onGrid? (r : Rounding) (exponent : Int) : Option Nat :=
  let step := Nat.pow 10 exponent.toNat * r.denominator
  let value := r.value * Nat.pow 10 (-exponent).toNat
  let below := value / step
  let above := below + 1
  match r.holds below exponent, r.holds above exponent with
  | true, true => some (if value % step * 2 < step then below else above)
  | true, false => some below
  | false, true => some above
  | false, false => none

-- Goes through ever finer grids. Twenty are enough: seventeen digits tell all doubles apart.
def search (r : Rounding) : Nat → Int → Decimal
  | 0, exponent =>
    let step := Nat.pow 10 exponent.toNat * r.denominator
    ⟨r.value * Nat.pow 10 (-exponent).toNat / step, exponent⟩
  | fuel + 1, exponent =>
    match r.onGrid? exponent with
    | some n => ⟨n, exponent⟩
    | none => r.search fuel (exponent - 1)

end Rounding

-- Moves zeros at the end of the digits into the exponent.
def Decimal.strip (d : Decimal) : Nat → Decimal
  | 0 => d
  | fuel + 1 =>
    if d.digits ≠ 0 ∧ d.digits % 10 = 0 then strip ⟨d.digits / 10, d.exponent + 1⟩ fuel else d

-- An exponent of ten that is at least that of the number and at most a little more.
private def startExponent (mantissa : Nat) (exponent : Int) : Int :=
  Int.fdiv ((mantissa.log2 + exponent + 1) * 30103) 100000 + 1

-- The shortest decimal of a positive double.
def shortest (mantissa : Nat) (exponent : Int) : Decimal :=
  ((Rounding.ofBinary mantissa exponent).search 22 (startExponent mantissa exponent)).strip 22

private def zeros (n : Nat) : String := String.ofList (List.replicate n '0')

namespace Decimal

-- All digits written out, with a point where the number has a fraction.
def positional (d : Decimal) : String :=
  let digits := (toString d.digits).toList
  if 0 ≤ d.exponent then String.ofList digits ++ zeros d.exponent.toNat
  else
    let places := (-d.exponent).toNat
    if digits.length ≤ places then "0." ++ zeros (places - digits.length) ++ String.ofList digits
    else
      let whole := digits.length - places
      String.ofList (digits.take whole) ++ "." ++ String.ofList (digits.drop whole)

-- One digit before the point, and a power of ten.
def scientific (d : Decimal) : String :=
  let digits := (toString d.digits).toList
  let power := d.exponent + (digits.length - 1 : Nat)
  let fraction := digits.drop 1
  String.ofList (digits.take 1)
    ++ (if fraction.isEmpty then "" else "." ++ String.ofList fraction) ++ s!"e{power}"

end Decimal

private def signed (negative : Bool) (text : String) : String :=
  if negative then "-" ++ text else text

-- The text of a float: its shortest digits, never in scientific form, with no fraction for a whole
-- number.
def floatText (x : Float) : String :=
  match Binary.ofFloat x with
  | .nan => "NaN"
  | .infinite negative => signed negative "inf"
  | .finite negative mantissa exponent =>
    signed negative (if mantissa = 0 then "0" else (shortest mantissa exponent).positional)

-- The text of a float where it must not be taken for an integer: whole numbers show a fraction, and
-- numbers below `10 ^ -4` or from `10 ^ 16` on are written in scientific form.
def floatDebugText (x : Float) : String :=
  match Binary.ofFloat x with
  | .nan => "NaN"
  | .infinite negative => signed negative "inf"
  | .finite negative mantissa exponent =>
    if mantissa = 0 then signed negative "0.0"
    else
      let d := shortest mantissa exponent
      if x.abs < 0.0001 || 10000000000000000.0 ≤ x.abs then signed negative d.scientific
      else signed negative (if 0 ≤ d.exponent then d.positional ++ ".0" else d.positional)

end Stencil.Number
