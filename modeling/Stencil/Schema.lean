import Stencil.Type.Basic
import Stencil.Value.Constant

/-!
The parameters of a template. Their order counts: arguments are passed in it.
-/

namespace Stencil

structure Parameter where
  name : String
  type : Ty
  default : Option Constant

structure Schema where
  params : List Parameter

namespace Schema

def empty : Schema := ⟨[]⟩

-- Puts a parameter in the place of the one with its name, or else at the end.
def put (p : Parameter) : List Parameter → List Parameter
  | [] => [p]
  | q :: qs => if q.name = p.name then p :: qs else q :: put p qs

def insert (s : Schema) (p : Parameter) : Schema := ⟨put p s.params⟩

-- Puts in a parameter that has to be given.
def withRequired (s : Schema) (name : String) (type : Ty) : Schema := s.insert ⟨name, type, none⟩

-- Puts in a parameter that may be left out.
def withOptional (s : Schema) (name : String) (type : Ty) (default : Constant) : Schema :=
  s.insert ⟨name, type, some default⟩

-- The parameter of a name, with its position.
def get? (s : Schema) (name : String) : Option (Nat × Parameter) := do
  let index ← s.params.findIdx? (·.name == name)
  return (index, ← s.params[index]?)

def size (s : Schema) : Nat := s.params.length

end Schema

end Stencil
