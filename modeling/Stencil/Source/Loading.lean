/-!
Where the texts of templates come from.
-/

namespace Stencil

-- Why a name stands for no place. Places lie below a root, and a name says the way there.
inductive NameFault where
  | empty
  -- a segment leads back up
  | ascending
  | emptySegment
  -- a character that separates segments elsewhere
  | separator
deriving DecidableEq

def NameFault.message : NameFault → String
  | empty => "name is empty"
  | ascending => "must not contain '..'"
  | emptySegment => "empty path segment"
  | separator => "only '/' separates segments"

inductive LoadError where
  | notFound (name : String)
  | invalidName (name : String) (fault : NameFault)
  -- a place that holds no text
  | unreadable (name : String)
deriving DecidableEq

def LoadError.message : LoadError → String
  | notFound name => s!"template '{name}' not found"
  | invalidName name fault => s!"invalid template name '{name}': {fault.message}"
  | unreadable name => s!"failed to read template '{name}'"

-- Gives the text of a template by its name. Segments of a name are separated by `/`.
abbrev Loader := String → Except LoadError String

-- Templates held in memory, one for each name.
structure MemorySource where
  templates : List (String × String)

namespace MemorySource

def empty : MemorySource := ⟨[]⟩

def remove (s : MemorySource) (name : String) : MemorySource :=
  ⟨s.templates.filter (·.1 ≠ name)⟩

-- Puts in a template, in place of any other of its name.
def insert (s : MemorySource) (name text : String) : MemorySource :=
  ⟨(name, text) :: (s.remove name).templates⟩

def load (s : MemorySource) : Loader := fun name =>
  match s.templates.lookup name with
  | some text => .ok text
  | none => .error (.notFound name)

end MemorySource

end Stencil
