/-!
Places in a template source: spans, counted in bytes of its UTF-8 form, and lines and columns. Both of
these count from one, and columns count characters.
-/

namespace Stencil

-- The number of bytes that a run of characters takes in UTF-8.
def byteLength : List Char → Nat
  | [] => 0
  | c :: cs => c.utf8Size + byteLength cs

@[simp] theorem byteLength_nil : byteLength [] = 0 := rfl

@[simp] theorem byteLength_cons (c : Char) (cs : List Char) :
    byteLength (c :: cs) = c.utf8Size + byteLength cs := rfl

@[simp] theorem byteLength_append (cs ds : List Char) :
    byteLength (cs ++ ds) = byteLength cs + byteLength ds := by
  induction cs with
  | nil => simp
  | cons c cs ih => simp [ih, Nat.add_assoc]

-- A half-open range of bytes.
structure Span where
  start : Nat
  stop : Nat
deriving DecidableEq, Inhabited

-- The least span that covers both.
def Span.cover (a b : Span) : Span := ⟨min a.start b.start, max a.stop b.stop⟩

-- A stretch of the source: its characters and the byte where the first one begins.
structure Slice where
  start : Nat
  chars : List Char
deriving DecidableEq, Inhabited

namespace Slice

def stop (s : Slice) : Nat := s.start + byteLength s.chars

def span (s : Slice) : Span := ⟨s.start, s.stop⟩

def text (s : Slice) : String := String.ofList s.chars

end Slice

structure Location where
  line : Nat
  column : Nat
deriving DecidableEq, Inhabited

-- The longest run of leading characters that ends at or before byte `offset`. An offset inside a
-- character is thereby moved back to its start, one past the end to the end.
def charsBefore (offset : Nat) : List Char → List Char
  | [] => []
  | c :: cs => if c.utf8Size ≤ offset then c :: charsBefore (offset - c.utf8Size) cs else []

namespace Location

-- The location just after the given characters.
def after (cs : List Char) : Location where
  line := cs.count '\n' + 1
  column := (cs.reverse.takeWhile (· ≠ '\n')).length + 1

-- The location of byte `offset` in `source`.
def locate (source : String) (offset : Nat) : Location := after (charsBefore offset source.toList)

def text (l : Location) : String := s!"{l.line}:{l.column}"

end Location

end Stencil
