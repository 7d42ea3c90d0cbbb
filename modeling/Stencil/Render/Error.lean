import Stencil.Output.Mode
import Stencil.Value.Basic

/-!
What can go wrong while a template is rendered.
-/

namespace Stencil

-- Inclusions nest at most this deep.
def maxInclusionDepth : Nat := 64

inductive RenderError where
  | missingParameter (name : String)
  | missingField (name : String)
  | nullDereference (name : String)
  | unknownMethod (name : String)
  | typeMismatch (name expected : String) (found : Kind)
  | modeMismatch (expected found : Mode)
  | divisionByZero
  | overflow (op : String)
  | notRenderable (found : Kind)
  | notIterable (found : Kind)
  | unresolvedInclusion (template reason : String)
  | recursionLimit (template : String)
  -- an error in an included template
  | inside (template : String) (cause : RenderError)
  -- an error that the model reports
  | model (message : String)
deriving DecidableEq

def RenderError.message : RenderError → String
  | missingParameter name => s!"missing parameter '{name}'"
  | missingField name => s!"missing field '{name}'"
  | nullDereference name => s!"cannot access '{name}' on null"
  | unknownMethod name => s!"unknown method '{name}'"
  | typeMismatch name expected found =>
    s!"type mismatch for '{name}': expected {expected}, found {found.name}"
  | modeMismatch expected found =>
    s!"template compiled for {expected.name} output cannot render into {found.name} output"
  | divisionByZero => "division by zero"
  | overflow op => s!"integer overflow in '{op}'"
  | notRenderable found => s!"cannot render a {found.name} value"
  | notIterable found => s!"cannot iterate over a {found.name} value"
  | unresolvedInclusion template reason =>
    s!"cannot resolve included template '{template}': {reason}"
  | recursionLimit template =>
    s!"include nesting exceeds {maxInclusionDepth} levels at '{template}'"
  | inside template cause => s!"in included template '{template}': {cause.message}"
  | model message => message

-- The text form of a value, for showing it.
def Value.shown {ρ : Type} (v : Value ρ) : Except RenderError String :=
  match v.shown? with
  | some s => .ok s
  | none => .error (.notRenderable v.kind)

end Stencil
