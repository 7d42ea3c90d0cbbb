/-!
A double as an exact number: a sign and an integer times a power of two. The remainder of a division
of doubles is calculated on these.
-/

namespace Stencil.Number

inductive Binary where
  | nan
  | infinite (negative : Bool)
  -- `mantissa * 2 ^ exponent`, negated if so marked
  | finite (negative : Bool) (mantissa : Nat) (exponent : Int)
deriving DecidableEq

namespace Binary

def fractionBits : Nat := 52

-- The number of fractions.
def fractionSize : Nat := Nat.pow 2 fractionBits

-- The exponent of the smallest positive double.
def leastExponent : Int := -1074

def ofBits (bits : Nat) : Binary :=
  let negative : Bool := bits / Nat.pow 2 63 % 2 == 1
  let biased : Nat := bits / fractionSize % Nat.pow 2 11
  let fraction : Nat := bits % fractionSize
  if biased = Nat.pow 2 11 - 1 then if fraction = 0 then infinite negative else nan
  else if biased = 0 then finite negative fraction leastExponent
  else finite negative (fractionSize + fraction) (leastExponent + (biased - 1 : Nat))

def ofFloat (x : Float) : Binary := ofBits x.toBits.toNat

-- The double of value `mantissa * 2 ^ exponent`, for a mantissa below `2 ^ 53` and an exponent no
-- less than that of the smallest double: such a product needs no rounding.
def encode (negative : Bool) (mantissa : Nat) (exponent : Int) : Float :=
  let room := (exponent - leastExponent).toNat
  let lift := min (fractionBits - mantissa.log2) room
  let lifted := mantissa * Nat.pow 2 lift
  let magnitude :=
    if lifted < fractionSize then lifted
    else (room - lift + 1) * fractionSize + (lifted - fractionSize)
  Float.ofBits (UInt64.ofNat (magnitude + if negative then Nat.pow 2 63 else 0))

end Binary

def notANumber : Float := 0.0 / 0.0

-- The exact remainder of a division whose quotient is cut toward zero. It takes the sign of the
-- dividend, also where it is zero, and is always a double itself.
def floatRemainder (x y : Float) : Float :=
  match Binary.ofFloat x, Binary.ofFloat y with
  | .finite negative mx qx, .finite _ my qy =>
    if my = 0 then notANumber
    else
      let q := min qx qy
      let remainder := mx * Nat.pow 2 (qx - q).toNat % (my * Nat.pow 2 (qy - q).toNat)
      Binary.encode negative remainder q
  | .finite _ _ _, .infinite _ => x
  | _, _ => notANumber

end Stencil.Number
