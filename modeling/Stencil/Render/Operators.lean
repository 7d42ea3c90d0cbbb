import Stencil.Number.Binary
import Stencil.Render.Error
import Stencil.Text.Case
import Stencil.Text.Classes
import Stencil.Text.Word
import Stencil.Typing.Term

/-!
What operators and builtin methods do with values.
-/

namespace Stencil

-- Integer arithmetic is exact or refused. A remainder is refused where the quotient is.
def ArithmeticOp.onInts (op : ArithmeticOp) (a b : Int64) : Except RenderError Int64 :=
  let exact (n : Int) : Except RenderError Int64 :=
    match Number.word? n with
    | some w => .ok w
    | none => .error (.overflow op.symbol)
  match op with
  | add => exact (a.toInt + b.toInt)
  | subtract => exact (a.toInt - b.toInt)
  | multiply => exact (a.toInt * b.toInt)
  | divide => if b = 0 then .error .divisionByZero else exact (a.toInt.tdiv b.toInt)
  | remainder =>
    if b = 0 then .error .divisionByZero
    else do
      let _ ← exact (a.toInt.tdiv b.toInt)
      exact (a.toInt.tmod b.toInt)

def ArithmeticOp.onFloats (op : ArithmeticOp) (a b : Float) : Except RenderError Float :=
  match op with
  | add => .ok (a + b)
  | subtract => .ok (a - b)
  | multiply => .ok (a * b)
  | divide => if b == 0.0 then .error .divisionByZero else .ok (a / b)
  | remainder => if b == 0.0 then .error .divisionByZero else .ok (Number.floatRemainder a b)

variable {ρ : Type}

-- Arithmetic on two values that are not both texts. If either is a float, both are taken as floats.
def ArithmeticOp.onNumbers (op : ArithmeticOp) (a b : Value ρ) :
    Except RenderError (Value ρ) :=
  match a, b with
  | .int a, .int b => (op.onInts a b).map .int
  | _, _ =>
    match a.float?, b.float? with
    | some a, some b => (op.onFloats a b).map .float
    | none, _ => .error (.typeMismatch op.symbol "number" a.kind)
    | some _, none => .error (.typeMismatch op.symbol "number" b.kind)

def ArithmeticOp.apply (op : ArithmeticOp) (a b : Value ρ) : Except RenderError (Value ρ) :=
  match op, a, b with
  | .add, .text a, .text b => .ok (.text (a ++ b))
  | op, a, b => op.onNumbers a b

-- Numbers of which one is not a number in the strict sense have no order.
def compareFloats? (a b : Float) : Option Ordering :=
  if a < b then some .lt else if a == b then some .eq else if b < a then some .gt else none

def compareTexts (a b : String) : Ordering :=
  if a < b then .lt else if a = b then .eq else .gt

-- The order of two values, if they have one.
def Value.compare? : Value ρ → Value ρ → Option Ordering
  | .int a, .int b => some (compare a.toInt b.toInt)
  | .text a, .text b => some (compareTexts a b)
  | a, b => do compareFloats? (← a.float?) (← b.float?)

def OrderOp.holds : OrderOp → Ordering → Bool
  | less, o => o == .lt
  | lessEqual, o => o != .gt
  | greater, o => o == .gt
  | greaterEqual, o => o != .lt

-- Values without an order are not ordered either way, but `null` is refused.
def OrderOp.apply (op : OrderOp) (a b : Value ρ) : Except RenderError (Value ρ) :=
  if a.isNull || b.isNull then .error (.typeMismatch op.symbol "comparable values" .null)
  else .ok (.bool ((a.compare? b).any op.holds))

def EqualityOp.apply [DecidableEq ρ] (op : EqualityOp) (a b : Value ρ) : Value ρ :=
  match op with
  | equal => .bool (a.looseEq b)
  | notEqual => .bool (!a.looseEq b)

def Value.negate : Value ρ → Except RenderError (Value ρ)
  | .int n =>
    match Number.word? (-n.toInt) with
    | some w => .ok (.int w)
    | none => .error (.overflow "-")
  | .float x => .ok (.float (-x))
  | v => .error (.typeMismatch "-" "number" v.kind)

-- A truth value, for the operator or tag of the given name.
def Value.truth (name : String) : Value ρ → Except RenderError Bool
  | .bool b => .ok b
  | v => .error (.typeMismatch name "bool" v.kind)

-- The error of a builtin method on a value that has no such method.
def Value.noMethod {α : Type} (name : String) : Value ρ → Except RenderError α
  | .null => .error (.nullDereference name)
  | v => .error (.typeMismatch name "string or list" v.kind)

def Builtin.apply (b : Builtin) (v : Value ρ) : Except RenderError (Value ρ) :=
  match b, v with
  | .len, .text s => .ok (.int (.ofNat s.length))
  | .len, .list items => .ok (.int (.ofNat items.length))
  | .isEmpty, .text s => .ok (.bool s.isEmpty)
  | .isEmpty, .list items => .ok (.bool items.isEmpty)
  | .upper, .text s => .ok (.text (Text.upper s))
  | .lower, .text s => .ok (.text (Text.lower s))
  | .trim, .text s => .ok (.text (Text.trim s))
  | b, v => v.noMethod b.name

-- Does a text hold another, or a list a value? A text does not hold `null`.
def Value.contains [DecidableEq ρ] : Value ρ → Value ρ → Except RenderError (Value ρ)
  | .text s, .text needle => .ok (.bool (containsWord needle.toList s.toList))
  | .text _, .null => .ok (.bool false)
  | .text _, v => .error (.typeMismatch "contains" "string" v.kind)
  | .list items, v => .ok (.bool (items.any (·.looseEq v)))
  | v, _ => v.noMethod "contains"

end Stencil
