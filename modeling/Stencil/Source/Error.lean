import Stencil.Source.Span

/-!
What can be wrong with the text of a template.
-/

namespace Stencil

-- Expressions, types and blocks nest at most this deep.
def maxNesting : Nat := 64

-- Tags that are only allowed inside a block or after an opener.
inductive BranchTag where
  | elseIf
  | otherwise
  | close
  | endRaw
deriving DecidableEq

def BranchTag.word : BranchTag → String
  | elseIf => "elseif"
  | otherwise => "else"
  | close => "end"
  | endRaw => "endraw"

inductive BlockKind where
  | conditional
  | loop
deriving DecidableEq

def BlockKind.word : BlockKind → String
  | conditional => "if"
  | loop => "for"

inductive Defect where
  | unterminatedInterpolation
  | unterminatedTag
  | unterminatedComment
  | unterminatedRaw
  | unterminatedString
  | invalidEscape (c : Char)
  | unexpectedCharacter (c : Char)
  | invalidNumber (text : String)
  | unexpectedToken (expected found : String)
  | emptyExpression
  | unexpectedTag (tag : BranchTag)
  | unclosedBlock (block : BlockKind)
  | invalidForHeader
  | invalidParam
  | misplacedParam
  | invalidTemplateName
  | nestingTooDeep
deriving DecidableEq

def Defect.message : Defect → String
  | unterminatedInterpolation => "unterminated interpolation, expected '\x7d'"
  | unterminatedTag => "unterminated tag, expected ')'"
  | unterminatedComment => "unterminated comment, expected '--%>'"
  | unterminatedRaw => "unterminated @raw block, expected '@endraw'"
  | unterminatedString => "unterminated string literal"
  | invalidEscape c => s!"invalid escape sequence '\\{c}'"
  | unexpectedCharacter c => s!"unexpected character '{c}'"
  | invalidNumber text => s!"invalid number literal '{text}'"
  | unexpectedToken expected found => s!"expected {expected}, found {found}"
  | emptyExpression => "empty expression"
  | unexpectedTag tag => s!"'@{tag.word}' without a matching opening tag"
  | unclosedBlock block => s!"@{block.word} block is never closed, expected '@end'"
  | invalidForHeader =>
    "invalid @for header, expected '@for(item in items)' or '@for(item, index in items)'"
  | invalidParam => "invalid @param declaration, expected '@param <type> <name> [= <value>]'"
  | misplacedParam => "@param must appear before any template content"
  | invalidTemplateName => "invalid template name in include"
  | nestingTooDeep => s!"nesting exceeds {maxNesting} levels"

-- A defect and the byte where it was met.
structure Fault where
  defect : Defect
  offset : Nat
deriving DecidableEq

-- A mapped reading that gives something has read what that is made of.
theorem exists_of_map_eq_ok {ε α β : Type} {f : α → β} {r : Except ε α} {b : β}
    (h : r.map f = .ok b) : ∃ a, r = .ok a ∧ f a = b := by
  cases r with
  | error e => cases h
  | ok a => exact ⟨a, rfl, Except.ok.inj h⟩

-- A fault together with its location in the source.
structure SyntaxError where
  defect : Defect
  offset : Nat
  location : Location
deriving DecidableEq

namespace SyntaxError

def ofFault (source : String) (fault : Fault) : SyntaxError :=
  ⟨fault.defect, fault.offset, Location.locate source fault.offset⟩

def message (e : SyntaxError) : String :=
  s!"{e.defect.message} at line {e.location.line}, column {e.location.column}"

end SyntaxError

end Stencil
