import Stencil.Text.Classes
import Stencil.Text.Word
import Stencil.Type.Basic

/-!
Types from text. Blanks may stand around each part.
-/

namespace Stencil

-- A text that is no type: the innermost part that was refused.
structure MalformedType where
  text : String
deriving DecidableEq

def MalformedType.message (e : MalformedType) : String := s!"invalid type '{e.text}'"

namespace Ty

-- Words that are not names of records.
def isReserved (name : String) : Bool := name == "list" || name == "null"

def isIdentifier (cs : List Char) : Bool :=
  cs.head?.any isIdentStart && cs.all isIdentChar

-- The element type of a list, as text.
def element? (cs : List Char) : Option (List Char) :=
  match dropWord? "list<".toList cs with
  | none => none
  | some rest => if rest.getLast? = some '>' then some rest.dropLast else none

private theorem element?_length {cs inner : List Char} (h : element? cs = some inner) :
    inner.length < cs.length := by
  unfold element? at h
  split at h
  · cases h
  · next rest hw =>
    split at h
    · obtain rfl : rest.dropLast = inner := by simpa using h
      rw [dropWord?_eq_some_iff.1 hw]
      simp
      omega
    · cases h

private theorem trimChars_length (cs : List Char) : (Text.trimChars cs).length ≤ cs.length := by
  have h1 := (List.dropWhile_sublist Text.isBlank (l := cs)).length_le
  have h2 := (List.dropWhile_sublist Text.isBlank
    (l := (cs.dropWhile Text.isBlank).reverse)).length_le
  simp only [Text.trimChars, List.length_reverse] at h2 ⊢
  omega

def ofChars (cs : List Char) : Except MalformedType Ty :=
  let core := Text.trimChars cs
  match h : element? core with
  | some inner =>
    have : inner.length < cs.length := Nat.lt_of_lt_of_le (element?_length h) (trimChars_length cs)
    (ofChars inner).map list
  | none =>
    let name := String.ofList core
    match primitive? name with
    | some t => .ok t
    | none =>
      if isIdentifier core && !isReserved name then .ok (record name)
      else .error ⟨String.ofList cs⟩
termination_by cs.length

-- Reads a type. Whether its record is declared is not asked here.
def parse (s : String) : Except MalformedType Ty := ofChars s.toList

end Ty

end Stencil
