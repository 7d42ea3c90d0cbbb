import Stencil.Program.Basic
import Stencil.Render.Error
import Stencil.Render.Operators

/-!
Models, where a render gets its data from, and evaluating code. The only effect is that requests are
made of the model, one after the other.
-/

namespace Stencil

-- Answers for the records of type `ρ`. A field may be absent, and a method may fail. The first
-- argument of an answer counts the requests made before it, so a method can make a new record at
-- each call.
structure Model (ρ : Type) where
  field : Nat → ρ → String → Option (Value ρ)
  call : Nat → ρ → String → List (Value ρ) → Except RenderError (Value ρ)

-- A model whose records have no methods.
def Model.ofFields {ρ : Type} (field : ρ → String → Option (Value ρ)) : Model ρ where
  field _ := field
  call _ _ name _ := .error (.unknownMethod name)

-- What a render asks of a model.
inductive Request (ρ : Type) where
  | field (ref : ρ) (name : String)
  | call (ref : ρ) (name : String) (args : List (Value ρ))

variable {ρ : Type}

-- Keeps the requests made so far, also where it fails.
abbrev Eval (ρ : Type) := ExceptT RenderError (StateM (Array (Request ρ)))

def Eval.given {α : Type} (r : Except RenderError α) : Eval ρ α := ExceptT.mk (pure r)

namespace Model

def askField (model : Model ρ) (ref : ρ) (name : String) : Eval ρ (Option (Value ρ)) := do
  let asked := (← get).size
  modify (·.push (.field ref name))
  return model.field asked ref name

def askCall (model : Model ρ) (ref : ρ) (name : String) (args : List (Value ρ)) :
    Eval ρ (Value ρ) := do
  let asked := (← get).size
  modify (·.push (.call ref name args))
  Eval.given (model.call asked ref name args)

end Model

-- The record of which a member is taken.
def Value.receiver (name : String) : Value ρ → Eval ρ ρ
  | .record ref => return ref
  | .null => throw (.nullDereference name)
  | v => throw (.typeMismatch name "record" v.kind)

variable [DecidableEq ρ]

-- The values in the slots of a program; a slot never filled holds `null`.
abbrev Frame (ρ : Type) := List (Value ρ)

mutual

def Formula.eval (model : Model ρ) (frame : Frame ρ) : Formula → Eval ρ (Value ρ)
  | .constant c => return c.value
  | .slot index => return frame[index]?.getD .null
  | .list items => return .list (← evalAll model frame items)
  | .field object name => do
    let ref ← Value.receiver name (← object.eval model frame)
    match ← model.askField ref name with
    | some v => return v
    | none => throw (.missingField name)
  | .method object name args => do
    let object ← object.eval model frame
    let args ← evalAll model frame args
    model.askCall (← Value.receiver name object) name args
  | .builtin object b => do Eval.given (b.apply (← object.eval model frame))
  | .contains object needle => do
    let object ← object.eval model frame
    let needle ← needle.eval model frame
    Eval.given (object.contains needle)
  | .not operand => do return .bool (!(← Eval.given ((← operand.eval model frame).truth "!")))
  | .negate operand => do Eval.given (← operand.eval model frame).negate
  | .and lhs rhs => do
    if ← Eval.given ((← lhs.eval model frame).truth "&&") then
      return .bool (← Eval.given ((← rhs.eval model frame).truth "&&"))
    else return .bool false
  | .or lhs rhs => do
    if ← Eval.given ((← lhs.eval model frame).truth "||") then return .bool true
    else return .bool (← Eval.given ((← rhs.eval model frame).truth "||"))
  | .equality op lhs rhs => do
    let lhs ← lhs.eval model frame
    let rhs ← rhs.eval model frame
    return op.apply lhs rhs
  | .order op lhs rhs => do
    let lhs ← lhs.eval model frame
    let rhs ← rhs.eval model frame
    Eval.given (op.apply lhs rhs)
  | .arithmetic op lhs rhs => do
    let lhs ← lhs.eval model frame
    let rhs ← rhs.eval model frame
    Eval.given (op.apply lhs rhs)

-- Values of several expressions, first to last.
def Formula.evalAll (model : Model ρ) (frame : Frame ρ) : List Formula → Eval ρ (List (Value ρ))
  | [] => return []
  | c :: cs => do
    let v ← c.eval model frame
    let vs ← evalAll model frame cs
    return v :: vs

end

-- Values of the arguments that are given.
def Formula.evalGiven (model : Model ρ) (frame : Frame ρ) :
    List (Option Formula) → Eval ρ (List (Option (Value ρ)))
  | [] => return []
  | none :: cs => do return none :: (← evalGiven model frame cs)
  | some c :: cs => do
    let v ← c.eval model frame
    let vs ← evalGiven model frame cs
    return some v :: vs

end Stencil
