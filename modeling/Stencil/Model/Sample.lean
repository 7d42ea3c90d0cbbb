import Stencil.Render.Eval

/-!
Sample data: models written out in full, for templates with no program behind them. A record is
its fields, and methods that give fixed answers; records may be labelled, to trace what is asked of
them.
-/

namespace Stencil

inductive Datum where
  | null
  | bool (b : Bool)
  | int (n : Int64)
  | float (x : Float)
  | text (s : String)
  | list (items : List Datum)
  | record (label : Option String) (fields : List (String × Datum))
      (constants : List (String × Datum)) (failures : List (String × String)) (echoes : List String)
deriving Inhabited

namespace Sample

-- What a method does: give a constant, fail, or name the arguments it was given.
inductive Answer where
  | constant (v : Value Nat)
  | failure (message : String)
  | echo

-- A record of a sample, in which other records are numbers of entries.
structure Entry where
  label : Option String
  fields : List (String × Value Nat)
  methods : List (String × Answer)

-- A record as a render meets it. Records made by a method differ by the time of the call.
structure Ref where
  entry : Nat
  birth : Nat
deriving DecidableEq

mutual

-- Numbers the records of a datum, after those already entered.
private def enter : Datum → StateM (Array Entry) (Value Nat)
  | .null => return .null
  | .bool b => return .bool b
  | .int n => return .int n
  | .float x => return .float x
  | .text s => return .text s
  | .list items => return .list (← enterAll items)
  | .record label fields constants failures echoes => do
    let fields ← enterFields fields
    let constants ← enterFields constants
    let methods := constants.map (fun (name, v) => (name, Answer.constant v))
      ++ failures.map (fun (name, message) => (name, Answer.failure message))
      ++ echoes.map (fun name => (name, Answer.echo))
    let number := (← get).size
    modify (·.push ⟨label, fields, methods⟩)
    return .record number

private def enterAll : List Datum → StateM (Array Entry) (List (Value Nat))
  | [] => return []
  | d :: ds => do
    let v ← enter d
    return v :: (← enterAll ds)

private def enterFields : List (String × Datum) → StateM (Array Entry) (List (String × Value Nat))
  | [] => return []
  | (name, d) :: fields => do
    let v ← enter d
    return (name, v) :: (← enterFields fields)

end

mutual

private def place (birth : Nat) : Value Nat → Value Ref
  | .null => .null
  | .bool b => .bool b
  | .int n => .int n
  | .float x => .float x
  | .text s => .text s
  | .list items => .list (placeAll birth items)
  | .record entry => .record ⟨entry, birth⟩

private def placeAll (birth : Nat) : List (Value Nat) → List (Value Ref)
  | [] => []
  | v :: vs => place birth v :: placeAll birth vs

end

-- The kind of an argument and its text form, if it has one.
private def argText (v : Value Ref) : String :=
  match v.shown? with
  | some s => s!"{v.kind.name}:{s}"
  | none => "NotRenderable"

def argsText (args : List (Value Ref)) : String := ",".intercalate (args.map argText)

private def entryModel (entries : Array Entry) : Model Ref where
  field _ ref name := do place ref.birth (← (← entries[ref.entry]?).fields.lookup name)
  call asked ref name args :=
    match entries[ref.entry]?.bind (·.methods.lookup name) with
    | some (.constant v) => .ok (place (asked + 1) v)
    | some (.failure message) => .error (.model message)
    | some .echo => .ok (.text (argsText args))
    | none => .error (.unknownMethod name)

end Sample

-- A model with its root, and the labels of its records.
structure Sample where
  model : Model Sample.Ref
  root : Sample.Ref
  label : Sample.Ref → Option String

namespace Sample

-- The values of a datum, and the model that answers for the records in them.
def values (ds : List Datum) : List (Value Ref) × Model Ref :=
  let (vs, entries) := (enterAll ds).run #[]
  (placeAll 0 vs, entryModel entries)

-- A model over a datum. One that is no record has no fields.
def ofDatum (d : Datum) : Sample :=
  let d := match d with
    | .record .. => d
    | _ => .record none [] [] [] []
  let (v, entries) := (enter d).run #[]
  let root : Nat := match v with
    | .record entry => entry
    | _ => 0
  ⟨entryModel entries, ⟨root, 0⟩, fun ref => entries[ref.entry]?.bind (·.label)⟩

-- What was asked of labelled records.
def trace (s : Sample) (requests : List (Request Ref)) : List String :=
  requests.filterMap fun
    | .field ref name => (s.label ref).map fun label => s!"{label}.{name}"
    | .call ref name args => (s.label ref).map fun label => s!"{label}.{name}({argsText args})"

end Sample

end Stencil
