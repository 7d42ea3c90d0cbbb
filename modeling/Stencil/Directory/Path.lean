/-!
Paths in a file system, as text. Slashes divide a path into parts. An empty part and the part `.`
lead nowhere, and so does not count as the last one.
-/

namespace Stencil

-- The parts between slashes. There is always one, if an empty one.
def slashParts : List Char → List (List Char)
  | [] => [[]]
  | c :: cs =>
    if c == '/' then [] :: slashParts cs
    else match slashParts cs with
      | [] => [[c]]
      | part :: parts => (c :: part) :: parts

def joinSlash : List (List Char) → List Char
  | [] => []
  | [part] => part
  | part :: parts => part ++ '/' :: joinSlash parts

structure Path where
  chars : List Char
deriving DecidableEq

namespace Path

def ofString (s : String) : Path := ⟨s.toList⟩

def text (p : Path) : String := String.ofList p.chars

def parts (p : Path) : List (List Char) := slashParts p.chars

-- A part that stays where it is.
def isIdle (part : List Char) : Bool := part.isEmpty || part == ['.']

-- Goes on with one more part, which does not start with a slash.
def push (p : Path) (part : List Char) : Path :=
  if p.chars.isEmpty || p.chars.getLast? == some '/' then ⟨p.chars ++ part⟩
  else ⟨p.chars ++ '/' :: part⟩

-- Where the path starts: at the root, here as it says, or here without saying so.
def anchor (p : Path) : List Char :=
  if p.chars.head? == some '/' then ['/']
  else if p.parts.head? == some ['.'] then ['.']
  else []

-- The last part that counts and the path up to it, unless the last part leads up.
def splitName? (p : Path) : Option (Path × List Char) :=
  match p.parts.reverse.dropWhile isIdle with
  | [] => none
  | name :: before =>
    if name == ['.', '.'] then none
    else match before.dropWhile isIdle with
      | [] => some (⟨p.anchor⟩, name)
      | before => some (⟨joinSlash before.reverse⟩, name)

-- Adds an extension to the last part that counts.
def extend (p : Path) (extension : List Char) : Path :=
  match p.splitName? with
  | some (parent, name) => parent.push (name ++ extension)
  | none => p.push extension

end Path

end Stencil
