/-!
The types of expressions and parameters.
-/

namespace Stencil

inductive Ty where
  | bool
  | int
  | float
  | text
  -- the type of `null`
  | null
  | list (element : Ty)
  | record (name : String)
deriving DecidableEq, Inhabited

namespace Ty

def name : Ty → String
  | bool => "bool"
  | int => "int"
  | float => "float"
  | text => "string"
  | null => "null"
  | list element => s!"list<{element.name}>"
  | record name => name

-- The type of a simple name that is no record.
def primitive? : String → Option Ty
  | "bool" => some bool
  | "int" => some int
  | "float" => some float
  | "string" => some text
  | _ => none

-- May a value of the second type stand where the first is expected? `null` may stand anywhere, an
-- integer for a float, and lists follow their elements.
def accepts : Ty → Ty → Bool
  | _, null => true
  | float, int => true
  | list a, list b => a.accepts b
  | a, b => a == b

-- The narrower of two types that accepts both, if one does.
def unify (a b : Ty) : Option Ty :=
  if a.accepts b then some a else if b.accepts a then some b else none

def isNumeric : Ty → Bool
  | int | float => true
  | _ => false

-- Types whose values have a text form.
def isRenderable : Ty → Bool
  | bool | int | float | text | null => true
  | list _ | record _ => false

-- The record that a type mentions, if any.
def recordName? : Ty → Option String
  | record name => some name
  | list element => element.recordName?
  | _ => none

end Ty

end Stencil
