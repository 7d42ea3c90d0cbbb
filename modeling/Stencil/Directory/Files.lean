import Stencil.Directory.Basic

/-!
Files in memory. There is a directory wherever a file lies further down.
-/

namespace Stencil

-- Files by the parts of their paths.
structure Files where
  files : List (List (List Char) × List UInt8)

namespace Files

-- The most bytes of one part of a path.
def partLimit : Nat := 255

def isPart (part : List Char) : Bool :=
  (Text.encode (String.ofList part)).length ≤ partLimit

-- The files below an entry of the directory.
def below (fs : Files) (part : List Char) : Files :=
  ⟨fs.files.filterMap fun (way, content) =>
    match way with
    | [] => none
    | first :: rest => if first == part then some (rest, content) else none⟩

def find (fs : Files) : List (List Char) → FileContent
  | [] =>
    match fs.files.lookup [] with
    | some content => .bytes content
    | none => .unreadable
  | part :: way =>
    let inner := fs.below part
    if (fs.files.lookup []).isSome || !isPart part then .unreadable
    else if inner.files.isEmpty then .missing
    else inner.find way

def ofList (files : List (Path × List UInt8)) : Files :=
  ⟨files.map fun (path, content) => (path.parts.filter (!Path.isIdle ·), content)⟩

-- A path with a null character in it is none, wherever it leads.
def read (fs : Files) (path : Path) : FileContent :=
  if path.chars.contains '\x00' then .unreadable
  else fs.find (path.parts.filter (!Path.isIdle ·))

end Files

end Stencil
