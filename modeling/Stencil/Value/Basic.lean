import Stencil.Expr.Basic
import Stencil.Number.Format
import Stencil.Number.Word
import Stencil.Text.Quoted
import Stencil.Type.Basic
import Stencil.Value.Constant

/-!
Values at render time. A record is known by a reference only; its model answers for what is in it.
-/

namespace Stencil

inductive Value (ρ : Type) where
  | null
  | bool (b : Bool)
  | int (n : Int64)
  | float (x : Float)
  | text (s : String)
  | list (items : List (Value ρ))
  | record (ref : ρ)
deriving Inhabited

-- The kinds of values, as errors name them.
inductive Kind where
  | null
  | bool
  | int
  | float
  | text
  | list
  | record
deriving DecidableEq

def Kind.name : Kind → String
  | null => "null"
  | bool => "bool"
  | int => "int"
  | float => "float"
  | text => "string"
  | list => "list"
  | record => "record"

variable {ρ : Type}

def Literal.value : Literal → Value ρ
  | null => .null
  | bool b => .bool b
  | int n => .int n
  | float x => .float x
  | text s => .text s

mutual

def Constant.value : Constant → Value ρ
  | .literal l => l.value
  | .list items => .list (Constant.values items)

def Constant.values : List Constant → List (Value ρ)
  | [] => []
  | c :: cs => c.value :: Constant.values cs

end

namespace Value

def kind : Value ρ → Kind
  | null => .null
  | bool _ => .bool
  | int _ => .int
  | float _ => .float
  | text _ => .text
  | list _ => .list
  | record _ => .record

def isNull : Value ρ → Bool
  | null => true
  | _ => false

def bool? : Value ρ → Option Bool
  | bool b => some b
  | _ => none

def int? : Value ρ → Option Int64
  | int n => some n
  | _ => none

-- A number of either kind, as a float.
def float? : Value ρ → Option Float
  | int n => some (Number.floatOfWord n)
  | float x => some x
  | _ => none

def text? : Value ρ → Option String
  | text s => some s
  | _ => none

def list? : Value ρ → Option (List (Value ρ))
  | list items => some items
  | _ => none

-- What an interpolation shows. `null` shows nothing; lists and records cannot be shown.
def shown? : Value ρ → Option String
  | null => some ""
  | bool b => some (if b then "true" else "false")
  | int n => some (toString n.toInt)
  | float x => some (Number.floatText x)
  | text s => some s
  | list _ | record _ => none

-- Does a value fit a declared type, as far as can be told without looking into it?
def conforms : Value ρ → Ty → Bool
  | null, _ => true
  | bool _, .bool => true
  | int _, .int | int _, .float => true
  | float _, .float => true
  | text _, .text => true
  | list _, .list _ => true
  | record _, .record _ => true
  | _, _ => false

-- Makes an integer a float where the declared type is float.
def widen : Value ρ → Ty → Value ρ
  | int n, .float => float (Number.floatOfWord n)
  | v, _ => v

variable [DecidableEq ρ]

mutual

-- Equality as expressions see it: an integer and a float are compared as floats, records by
-- reference, and lists by their elements.
def looseEq : Value ρ → Value ρ → Bool
  | .null, .null => true
  | .bool a, .bool b => a == b
  | .int a, .int b => a == b
  | .int a, .float b => Number.floatOfWord a == b
  | .float a, .int b => a == Number.floatOfWord b
  | .float a, .float b => a == b
  | .text a, .text b => a == b
  | .list as, .list bs => looseEqAll as bs
  | .record a, .record b => a == b
  | _, _ => false

def looseEqAll : List (Value ρ) → List (Value ρ) → Bool
  | [], [] => true
  | a :: as, b :: bs => a.looseEq b && looseEqAll as bs
  | _, _ => false

end

omit [DecidableEq ρ] in
-- The text of a value for the eyes of a developer.
mutual

def describe : Value ρ → String
  | .null => "Null"
  | .bool b => s!"Bool({b})"
  | .int n => s!"Int({n.toInt})"
  | .float x => s!"Float({Number.floatDebugText x})"
  | .text s => s!"Str({Text.quoted s})"
  | .list items => "List([" ++ ", ".intercalate (describeAll items) ++ "])"
  | .record _ => "Record(..)"

def describeAll : List (Value ρ) → List String
  | [] => []
  | v :: vs => v.describe :: describeAll vs

end

end Value

end Stencil
