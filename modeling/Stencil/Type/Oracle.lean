import Stencil.Type.Basic

/-!
What is known of record types: their fields and methods.
-/

namespace Stencil

inductive Member where
  | field (type : Ty)
  | method (params : List Ty) (returns : Ty)
deriving DecidableEq

-- Answers questions about record types.
structure Oracle where
  hasType : String → Bool
  member : String → String → Option Member

structure RecordType where
  name : String
  members : List (String × Member)
deriving DecidableEq

namespace RecordType

def empty (name : String) : RecordType := ⟨name, []⟩

def withField (r : RecordType) (name : String) (type : Ty) : RecordType :=
  { r with members := r.members ++ [(name, .field type)] }

def withMethod (r : RecordType) (name : String) (params : List Ty) (returns : Ty) : RecordType :=
  { r with members := r.members ++ [(name, .method params returns)] }

-- The member of a name; of several the one declared first.
def get? (r : RecordType) (name : String) : Option Member := r.members.lookup name

end RecordType

-- Declared record types, one for each name.
structure Declarations where
  records : List RecordType

namespace Declarations

def empty : Declarations := ⟨[]⟩

-- Adds a record type. It takes the place of one declared before under its name.
def register (d : Declarations) (r : RecordType) : Declarations :=
  ⟨d.records.filter (·.name ≠ r.name) ++ [r]⟩

def get? (d : Declarations) (name : String) : Option RecordType :=
  d.records.find? (·.name = name)

def size (d : Declarations) : Nat := d.records.length

def oracle (d : Declarations) : Oracle where
  hasType name := (d.get? name).isSome
  member owner name := (d.get? owner).bind (·.get? name)

end Declarations

end Stencil
