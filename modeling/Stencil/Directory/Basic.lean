import Stencil.Config
import Stencil.Directory.Path
import Stencil.Source.Loading
import Stencil.Text.Utf8

/-!
Templates in the files of a directory. The segments of a name are the way to its file below the
root, and the file has the extension besides.
-/

namespace Stencil

-- What is found at a path.
inductive FileContent where
  | bytes (content : List UInt8)
  | missing
  -- a directory, or nothing that can be read
  | unreadable
deriving DecidableEq

structure Directory where
  root : Path
  extension : String

namespace Directory

def ofRoot (root : Path) : Directory := ⟨root, Config.default.extension⟩

-- An extension starts with a dot, written or not. It may be empty.
def withExtension (d : Directory) (extension : String) : Directory :=
  { d with extension :=
      if extension.isEmpty || extension.toList.head? == some '.' then extension
      else "." ++ extension }

def ofConfig (root : Path) (config : Config) : Directory :=
  (ofRoot root).withExtension config.extension

def nameFault? (name : String) : Option NameFault :=
  let segments := slashParts name.toList
  if name.isEmpty then some .empty
  else if segments.contains ['.', '.'] then some .ascending
  else if segments.contains [] then some .emptySegment
  else if name.toList.any fun c => c == '\\' || c == ':' then some .separator
  else none

-- The path of the file for a name.
def path (d : Directory) (name : String) : Except LoadError Path :=
  match nameFault? name with
  | some fault => .error (.invalidName name fault)
  | none => .ok (((slashParts name.toList).foldl Path.push d.root).extend d.extension.toList)

-- Loads templates from files, given what is at each path.
def loader (d : Directory) (read : Path → FileContent) : Loader := fun name => do
  let path ← d.path name
  match read path with
  | .missing => throw (.notFound name)
  | .unreadable => throw (.unreadable name)
  | .bytes content =>
    match Text.decode? content with
    | some text => return text
    | none => throw (.unreadable name)

end Directory

end Stencil
