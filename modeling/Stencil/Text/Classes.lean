/-!
Character classes: of identifiers, of blanks in code, and of white space in text. The first two hold
ASCII characters only: in code, any other character is an error, and in text it belongs to the text.
White space is the Unicode property `White_Space`.
-/

namespace Stencil

def isIdentStart (c : Char) : Bool := c.isAlpha || c == '_'

def isIdentChar (c : Char) : Bool := c.isAlphanum || c == '_'

-- Space, tab, line feed, form feed and carriage return.
def isCodeBlank (c : Char) : Bool :=
  c == ' ' || c == '\t' || c == '\n' || c == '\x0c' || c == '\r'

-- What may stand beside a tag that is alone on its line.
def isLineBlank (c : Char) : Bool := c == ' ' || c == '\t' || c == '\r'

end Stencil

namespace Stencil.Text

-- The code points of the class, as ranges with both ends included.
def blankRanges : List (Nat × Nat) :=
  [(0x9, 0xd), (0x20, 0x20), (0x85, 0x85), (0xa0, 0xa0), (0x1680, 0x1680), (0x2000, 0x200a),
    (0x2028, 0x2029), (0x202f, 0x202f), (0x205f, 0x205f), (0x3000, 0x3000)]

def isBlank (c : Char) : Bool := blankRanges.any fun (lo, hi) => lo ≤ c.toNat && c.toNat ≤ hi

-- Drops blanks at both ends.
def trimChars (cs : List Char) : List Char :=
  ((cs.dropWhile isBlank).reverse.dropWhile isBlank).reverse

def trim (s : String) : String := String.ofList (trimChars s.toList)

end Stencil.Text
