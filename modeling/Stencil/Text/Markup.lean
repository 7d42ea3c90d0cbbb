import Stencil.Text.Utf8

/-!
Text that is put into markup. Five characters are written as entities, so that none of them is taken
for markup.
-/

namespace Stencil.Text

def entity? : Char → Option String
  | '&' => some "&amp;"
  | '<' => some "&lt;"
  | '>' => some "&gt;"
  | '"' => some "&quot;"
  | '\'' => some "&#39;"
  | _ => none

-- The bytes of a text from `start` to `stop` as a piece of their own, if there are any.
def runPiece (s : String) (start stop : Nat) : List String :=
  if start < stop then [String.Pos.Raw.extract s ⟨start⟩ ⟨stop⟩] else []

-- Cuts a text into runs that stay as they are and entities. The given bytes are those from `pos` on,
-- and the run in progress began at `start`. Characters with an entity are bytes by themselves, so
-- none of them is met inside another character.
def escapeFrom (s : String) (start pos : Nat) : List UInt8 → List String
  | [] => runPiece s start pos
  | b :: bs =>
    match entity? (Char.ofUInt8 b) with
    | some entity => runPiece s start pos ++ entity :: escapeFrom s (pos + 1) (pos + 1) bs
    | none => escapeFrom s start (pos + 1) bs

def escapePieces (s : String) : List String := escapeFrom s 0 0 (encode s)

def escapeMarkup (s : String) : String := String.join (escapePieces s)

end Stencil.Text
