import Stencil.Markup.Token
import Stencil.Text.Classes

/-!
Dropping the lines that hold nothing but a control tag: the indentation before the tag and the
rest of its line, with the line break.
-/

namespace Stencil.Markup

-- Is there nothing but blanks between the last line break before a tag and the tag? `before` holds
-- the earlier tokens, nearest first; text without a line break only counts at the start of all.
def startsLine : List Token → Bool
  | [] => true
  | .text s :: earlier =>
    (s.chars.reverse.takeWhile (· != '\n')).all isLineBlank &&
      (s.chars.contains '\n' || earlier.isEmpty)
  | _ => false

-- Is there nothing but blanks between a tag and the next line break? `after` holds the later
-- tokens.
def endsLine : List Token → Bool
  | [] => true
  | .text s :: later =>
    (s.chars.takeWhile (· != '\n')).all isLineBlank && (s.chars.contains '\n' || later.isEmpty)
  | _ => false

def Token.isControl : Token → Bool
  | .tag t _ => t.isControl
  | _ => false

-- For each token, whether it is a control tag alone on its line. All are judged on the tokens as
-- they were cut, so text between two such tags counts for both.
def aloneOnLine : List Token → List Token → List Bool
  | _, [] => []
  | before, t :: after =>
    (t.isControl && startsLine before && endsLine after) :: aloneOnLine (t :: before) after

-- Drops the end of the line that a text run begins with.
def dropLine (s : Slice) : Slice :=
  match s.chars.dropWhile (· != '\n') with
  | [] => ⟨s.stop, []⟩
  | _ :: rest => ⟨s.stop - byteLength rest, rest⟩

-- Drops the start of the line that a text run ends in.
def dropIndent (s : Slice) : Slice :=
  ⟨s.start, (s.chars.reverse.dropWhile (· != '\n')).reverse⟩

def trimToken (tagBefore tagAfter : Bool) : Token → Token
  | .text s =>
    let s := if tagBefore then dropLine s else s
    .text (if tagAfter then dropIndent s else s)
  | t => t

def trimEach : Bool → List (Token × Bool) → List Token
  | _, [] => []
  | before, (t, alone) :: rest =>
    trimToken before (rest.head?.any (·.2)) t :: trimEach alone rest

def isEmptyText : Token → Bool
  | .text s => s.chars.isEmpty
  | _ => false

-- Drops the lines of lone control tags, and then all text that is empty.
def trim (tokens : List Token) : List Token :=
  (trimEach false (tokens.zip (aloneOnLine [] tokens))).filter (!isEmptyText ·)

end Stencil.Markup
