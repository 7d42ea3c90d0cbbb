import Stencil.Config
import Stencil.Type.Oracle
import Stencil.Type.Parser
import Stencil.Yaml.Node

/-!
Record types from a YAML document. Each type that is mentioned is a primitive, a list, or a record
declared in the same document.
-/

namespace Stencil

-- A method as written: the texts of its types.
structure MethodText where
  params : List String
  returns : String
deriving DecidableEq

-- A record type as written.
structure RecordText where
  fields : List (String × String)
  methods : List (String × MethodText)
deriving DecidableEq

namespace RecordText

-- Of several entries of one name the last one counts. Names are in order.
def ordered {α : Type} (entries : List (String × α)) : List (String × α) :=
  let last := entries.foldr
    (fun e kept => if kept.any (·.1 == e.1) then kept else e :: kept) []
  last.mergeSort fun a b => a.1 ≤ b.1

def entriesOf {α : Type} (read : Yaml.Node → Option α) (node : Yaml.Node) :
    Option (List (String × α)) := do
  let entries ← node.entries?
  let entries ← entries.mapM fun (name, node) => (read node).map (name, ·)
  return ordered entries

def method? (node : Yaml.Node) : Option MethodText := do
  let fields ← node.fields? ["params", "returns"]
  let params ← match fields.lookup "params" with
    | some params => (← params.items?).mapM (·.text?)
    | none => some []
  return ⟨params, ← (← fields.lookup "returns").text?⟩

def ofNode? (node : Yaml.Node) : Option RecordText := do
  let fields ← node.fields? ["fields", "methods"]
  return ⟨← entriesOf (·.text?) ((fields.lookup "fields").getD .empty),
    ← entriesOf method? ((fields.lookup "methods").getD .empty)⟩

-- The record types that a document declares, by name.
def parse? (s : String) : Option (List (String × RecordText)) := do
  entriesOf ofNode? (← Yaml.Node.parse? s)

end RecordText

namespace Declarations

variable (isDeclared : String → Bool)

-- The type of a member, in which all records are declared.
def memberType (record member text : String) : Except ConfigError Ty :=
  match Ty.parse text with
  | .error _ => .error (.invalidType record member text)
  | .ok t =>
    match t.recordName? with
    | none => .ok t
    | some name =>
      if isDeclared name then .ok t else .error (.undeclaredType record member name)

def recordType (name : String) (r : RecordText) : Except ConfigError RecordType := do
  let fields ← r.fields.mapM fun (member, text) =>
    return (member, .field (← memberType isDeclared name member text))
  let methods ← r.methods.mapM fun (member, m) => do
    let params ← m.params.mapM (memberType isDeclared name member)
    return (member, .method params (← memberType isDeclared name member m.returns))
  return ⟨name, fields ++ methods⟩

-- Declares all the records. None is declared twice.
def ofTexts (records : List (String × RecordText)) : Except ConfigError Declarations := do
  let isDeclared name := records.any (·.1 == name)
  return ⟨← records.mapM fun (name, r) => recordType isDeclared name r⟩

def read (s : String) : Except ConfigError Declarations :=
  (RecordText.parse? s).elim (.error .malformed) ofTexts

end Declarations

end Stencil
