import Stencil.Expr.Basic

/-!
Templates as they are read from a source: a header of parameters, and a body.
-/

namespace Stencil

-- A name that a loop introduces.
structure Binding where
  mark : Mark
  name : String
deriving Inhabited

-- An argument of an inclusion, by position or by name.
structure Argument where
  name : Option String
  value : Expr

mutual

inductive Node where
  | text (content : String) (span : Span)
  | interpolation (raw : Bool) (value : Expr) (span : Span)
  | conditional (arms : List Arm) (otherwise : Option (List Node)) (span : Span)
  | loop (element : Binding) (index : Option Binding) (iterable : Expr) (body : List Node)
      (otherwise : Option (List Node)) (span : Span)
  | inclusion (id : Nat) (target : String) (args : List Argument) (span : Span)

-- What a conditional shows if a test holds and none before it did.
inductive Arm where
  | mk (test : Expr) (body : List Node)

end

namespace Arm

def test : Arm → Expr
  | mk test _ => test

def body : Arm → List Node
  | mk _ body => body

end Arm

def Node.span : Node → Span
  | text _ s | interpolation _ _ s | conditional _ _ s | loop _ _ _ _ _ s | inclusion _ _ _ s => s

-- A declared parameter; `span` is its line.
structure ParamDecl where
  name : String
  type : TypeExpr
  default : Option Expr
  span : Span

structure Template where
  params : List ParamDecl
  body : List Node
  -- Node numbers are all below this.
  idCount : Nat

end Stencil
