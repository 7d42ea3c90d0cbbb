import Stencil.Schema

/-!
Checked templates. Every expression carries its type, and every name in it is resolved: a parameter
or a loop variable to its slot, an access to a field, a method or a builtin, and the arguments of an
inclusion to the parameters of its target.
-/

namespace Stencil

-- Methods of texts and lists that take no argument.
inductive Builtin where
  | len
  | isEmpty
  | upper
  | lower
  | trim
deriving DecidableEq

def Builtin.name : Builtin → String
  | len => "len"
  | isEmpty => "is_empty"
  | upper => "upper"
  | lower => "lower"
  | trim => "trim"

-- The number of an expression and its type.
structure Note where
  id : Nat
  type : Ty
deriving DecidableEq, Inhabited

inductive Term where
  | literal (note : Note) (value : Literal)
  | slot (note : Note) (index : Nat)
  | list (note : Note) (items : List Term)
  | field (note : Note) (object : Term) (name : String)
  | method (note : Note) (object : Term) (name : String) (args : List Term)
  | builtin (note : Note) (object : Term) (builtin : Builtin)
  | contains (note : Note) (object needle : Term)
  | unary (note : Note) (op : UnaryOp) (operand : Term)
  | binary (note : Note) (op : BinaryOp) (lhs rhs : Term)

namespace Term

def note : Term → Note
  | literal n _ | slot n _ | list n _ | field n _ _ | method n _ _ _ | builtin n _ _
  | contains n _ _ | unary n _ _ | binary n _ _ _ => n

def type (t : Term) : Ty := t.note.type

mutual

-- The notes of a term and of all terms in it.
def notes : Term → List Note
  | literal n _ | slot n _ => [n]
  | list n items => n :: notesOfAll items
  | field n object _ | builtin n object _ => n :: object.notes
  | method n object _ args => n :: object.notes ++ notesOfAll args
  | contains n object needle => n :: object.notes ++ needle.notes
  | unary n _ operand => n :: operand.notes
  | binary n _ lhs rhs => n :: lhs.notes ++ rhs.notes

def notesOfAll : List Term → List Note
  | [] => []
  | t :: ts => t.notes ++ notesOfAll ts

end

end Term

mutual

inductive Statement where
  | text (content : String)
  | interpolation (raw : Bool) (value : Term)
  | conditional (arms : List Branch) (otherwise : List Statement)
  | loop (iterable : Term) (element : Nat) (index : Option Nat) (body otherwise : List Statement)
  -- One argument for each parameter of the target; where there is none, its default is used.
  | inclusion (target : String) (args : List (Option Term))

inductive Branch where
  | mk (test : Term) (body : List Statement)

end

namespace Statement

mutual

def notes : Statement → List Note
  | text _ => []
  | interpolation _ value => value.notes
  | conditional arms otherwise => notesOfBranches arms ++ notesOfAll otherwise
  | loop iterable _ _ body otherwise => iterable.notes ++ notesOfAll body ++ notesOfAll otherwise
  | inclusion _ args => Term.notesOfAll (args.filterMap id)

def notesOfAll : List Statement → List Note
  | [] => []
  | s :: ss => s.notes ++ notesOfAll ss

def notesOfBranches : List Branch → List Note
  | [] => []
  | .mk test body :: bs => test.notes ++ notesOfAll body ++ notesOfBranches bs

end

mutual

-- How many slots are needed for the loop variables, given that `n` are needed otherwise.
def slots (n : Nat) : Statement → Nat
  | text _ | interpolation _ _ | inclusion _ _ => n
  | conditional arms otherwise => slotsOfAll (slotsOfBranches n arms) otherwise
  | loop _ element index body otherwise =>
    slotsOfAll (slotsOfAll (max n (index.getD element + 1)) body) otherwise

def slotsOfAll (n : Nat) : List Statement → Nat
  | [] => n
  | s :: ss => slotsOfAll (s.slots n) ss

def slotsOfBranches (n : Nat) : List Branch → Nat
  | [] => n
  | .mk _ body :: bs => slotsOfBranches (slotsOfAll n body) bs

end

end Statement

structure CheckedTemplate where
  schema : Schema
  body : List Statement

-- The number of slots a render needs: for the parameters, then for the loop variables.
def CheckedTemplate.frameSize (t : CheckedTemplate) : Nat :=
  Statement.slotsOfAll t.schema.size t.body

end Stencil
