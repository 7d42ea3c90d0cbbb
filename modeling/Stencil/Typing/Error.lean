import Stencil.Source.Span
import Stencil.Type.Basic

/-!
What can be wrong with the types of a template. Checks collect complaints and go on, so that one run
reports all mistakes.
-/

namespace Stencil

inductive Problem where
  | unknownType (name : String)
  | duplicateParameter (name : String)
  | invalidDefault (name : String) (expected : Ty)
  | unresolvedIdentifier (name : String)
  | unknownMember (type : Ty) (name : String)
  | notAMethod (type : Ty) (name : String)
  | notAField (type : Ty) (name : String)
  | argumentCount (name : String) (expected found : Nat)
  | argumentType (name : String) (expected found : Ty)
  | nonBooleanCondition (found : Ty)
  | notIterable (found : Ty)
  | notRenderable (found : Ty)
  | invalidOperands (op : String) (operands : List Ty)
  | mixedList (first other : Ty)
  | unknownTemplate (name : String)
  | unknownArgument (template name : String)
  | duplicateArgument (name : String)
  | missingArgument (template name : String)
  | tooManyArguments (template : String) (expected found : Nat)
  | positionalAfterNamed
deriving DecidableEq

def Problem.message : Problem → String
  | unknownType name => s!"unknown type '{name}'"
  | duplicateParameter name => s!"parameter '{name}' is declared more than once"
  | invalidDefault name expected =>
    s!"default value for parameter '{name}' must be a {expected.name} literal"
  | unresolvedIdentifier name => s!"unresolved identifier '{name}'"
  | unknownMember type name => s!"type {type.name} has no member '{name}'"
  | notAMethod type name => s!"'{name}' on {type.name} is a field, not a method"
  | notAField type name => s!"'{name}' on {type.name} is a method and must be called"
  | argumentCount name expected found => s!"'{name}' takes {expected} argument(s), {found} given"
  | argumentType name expected found =>
    s!"argument '{name}' expects {expected.name}, found {found.name}"
  | nonBooleanCondition found => s!"condition must be bool, found {found.name}"
  | notIterable found => s!"cannot iterate over {found.name}, expected a list"
  | notRenderable found => s!"cannot render a value of type {found.name}"
  | invalidOperands op operands =>
    s!"operator '{op}' cannot be applied to " ++ " and ".intercalate (operands.map Ty.name)
  | mixedList first other =>
    s!"list elements must share a type, found {first.name} and {other.name}"
  | unknownTemplate name => s!"unknown template '{name}'"
  | unknownArgument template name => s!"template '{template}' has no parameter '{name}'"
  | duplicateArgument name => s!"argument '{name}' is given more than once"
  | missingArgument template name => s!"missing argument '{name}' for template '{template}'"
  | tooManyArguments template expected found =>
    s!"template '{template}' takes {expected} argument(s), {found} given"
  | positionalAfterNamed => "positional argument after a named argument"

structure TypeError where
  problem : Problem
  location : Location
deriving DecidableEq

namespace TypeError

def message (e : TypeError) : String :=
  s!"{e.problem.message} at line {e.location.line}, column {e.location.column}"

-- One error a line.
def messages (es : List TypeError) : String := "\n".intercalate (es.map message)

end TypeError

-- A problem and the place to blame.
structure Complaint where
  problem : Problem
  span : Span
deriving DecidableEq

-- A result with the complaints met on the way to it, in order.
structure Check (α : Type) where
  complaints : List Complaint
  result : α

namespace Check

instance : Monad Check where
  pure a := ⟨[], a⟩
  bind c f :=
    let d := f c.result
    ⟨c.complaints ++ d.complaints, d.result⟩

def complain (problem : Problem) (span : Span) : Check Unit := ⟨[⟨problem, span⟩], ()⟩

-- Complains and gives no result.
def reject {α : Type} (problem : Problem) (span : Span) : Check (Option α) :=
  ⟨[⟨problem, span⟩], none⟩

variable {α β : Type}

@[simp] theorem complaints_pure (a : α) : (pure a : Check α).complaints = [] := rfl

@[simp] theorem result_pure (a : α) : (pure a : Check α).result = a := rfl

@[simp] theorem complaints_bind (c : Check α) (f : α → Check β) :
    (c >>= f).complaints = c.complaints ++ (f c.result).complaints := rfl

@[simp] theorem result_bind (c : Check α) (f : α → Check β) :
    (c >>= f).result = (f c.result).result := rfl

end Check

end Stencil
