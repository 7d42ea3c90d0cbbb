import Stencil.Text.Word

/-!
Reading scalars. A scalar may go on over several lines. Between two words of it, a newline counts as
one space, and of several line breaks in a row each counts as itself, save a newline in front. The
line and paragraph separators of Unicode are line breaks too, and always count as themselves.
-/

namespace Stencil.Yaml

def isSpace (c : Char) : Bool := c == ' ' || c == '\t'

def isBreak (c : Char) : Bool := c == '\n' || c == '\u2028' || c == '\u2029'

-- Is this the end of a word: white space or the end of the text?
def startsBlank : List Char → Bool
  | [] => true
  | c :: _ => isSpace c || isBreak c

-- Does the text start with the word, alone?
def startsMark (word cs : List Char) : Bool := (dropWord? word cs).any startsBlank

-- A document ends where one of these starts a line.
def startsDocumentMark (cs : List Char) : Bool :=
  startsMark "---".toList cs || startsMark "...".toList cs

-- Characters that have a meaning inside square and curly brackets.
def isFlowIndicator (c : Char) : Bool :=
  c == ',' || c == '[' || c == ']' || c == '\x7b' || c == '\x7d'

-- White space met since the last word of a scalar.
structure Gap where
  -- Blanks, the last one first. They do not count beside a line break.
  spaces : List Char
  -- the last one first
  breaks : List Char
  -- Did it start with a line break that a backslash takes away?
  joined : Bool

namespace Gap

def none : Gap := ⟨[], [], false⟩

def isBroken (g : Gap) : Bool := !g.breaks.isEmpty

def isNone (g : Gap) : Bool := g.spaces.isEmpty && g.breaks.isEmpty

def addSpace (g : Gap) (c : Char) : Gap :=
  if g.isBroken || g.joined then g else { g with spaces := c :: g.spaces }

def addBreak (g : Gap) (c : Char) : Gap := ⟨[], c :: g.breaks, g.joined⟩

-- The text that a gap stands for, when a word follows.
def text (g : Gap) : List Char :=
  if g.joined then g.breaks.reverse
  else match g.breaks.reverse with
    | [] => g.spaces.reverse
    | ['\n'] => [' ']
    | '\n' :: more => more
    | breaks => breaks

end Gap

-- Reads a scalar without quotes, in brackets or not. Its lines but the first are indented by at
-- least `limit`. Gives the text, whether line breaks follow it, and the rest.
def plainScalar? (inBrackets : Bool) (limit : Nat) :
    Nat → Gap → List Char → Option (List Char × Bool × List Char)
  | _, gap, [] => some ([], gap.isBroken, [])
  | column, gap, c :: cs =>
    if isBreak c then plainScalar? inBrackets limit 0 (gap.addBreak c) cs
    else if isSpace c then
      if gap.isBroken && c == '\t' && column < limit then none
      else plainScalar? inBrackets limit (column + 1) (gap.addSpace c) cs
    else
      let starts := !gap.isNone && (c == '#' || column == 0 && startsDocumentMark (c :: cs)
        || gap.isBroken && !inBrackets && column < limit)
      if starts || c == ':' && startsBlank cs || inBrackets && isFlowIndicator c then
        some ([], gap.isBroken, c :: cs)
      else if inBrackets && c == ':' && cs.head?.any (fun d => isFlowIndicator d || d == '?') then
        none
      else
        (plainScalar? inBrackets limit (column + 1) .none cs).map fun (text, broken, rest) =>
          (gap.text ++ c :: text, broken, rest)

-- Reads a scalar in single quotes, from after the first. Two quotes in it stand for one.
def singleQuoted? : Nat → Gap → List Char → Option (List Char × List Char)
  | _, _, [] => none
  | column, gap, c :: cs =>
    let onward (text : List Char) (result : Option (List Char × List Char)) :=
      result.map fun (tail, rest) => (gap.text ++ text ++ tail, rest)
    if isBreak c then singleQuoted? 0 (gap.addBreak c) cs
    else if isSpace c then singleQuoted? (column + 1) (gap.addSpace c) cs
    else if column == 0 && startsDocumentMark (c :: cs) then none
    else if c == '\'' then
      match cs with
      | '\'' :: cs => onward ['\''] (singleQuoted? (column + 2) .none cs)
      | _ => onward [] (some ([], cs))
    else onward [c] (singleQuoted? (column + 1) .none cs)

private def hexDigit? (c : Char) : Option Nat :=
  if c.isDigit then some (c.toNat - 48)
  else if 'a' ≤ c && c ≤ 'f' then some (c.toNat - 87)
  else if 'A' ≤ c && c ≤ 'F' then some (c.toNat - 55)
  else none

-- The character of a code point in hexadecimal.
private def hexChar? (digits : List Char) : Option Char := do
  let values ← digits.mapM hexDigit?
  let n := values.foldl (fun n d => 16 * n + d) 0
  if h : n.isValidChar then some (Char.ofNatAux n h) else none

-- The number of digits after a backslash and this letter.
private def escapeDigits? : Char → Option Nat
  | 'x' => some 2
  | 'u' => some 4
  | 'U' => some 8
  | _ => none

-- The character for a backslash and this one.
private def escaped? : Char → Option Char
  | '0' => some '\x00'
  | 'a' => some '\x07'
  | 'b' => some '\x08'
  | 't' | '\t' => some '\t'
  | 'n' => some '\n'
  | 'v' => some '\x0b'
  | 'f' => some '\x0c'
  | 'r' => some '\r'
  | 'e' => some '\x1b'
  | ' ' => some ' '
  | '"' => some '"'
  | '/' => some '/'
  | '\\' => some '\\'
  | 'N' => some '\u0085'
  | '_' => some '\u00a0'
  | 'L' => some '\u2028'
  | 'P' => some '\u2029'
  | _ => none

-- Reads a scalar in double quotes, from after the first.
def doubleQuoted? (column : Nat) (gap : Gap) (cs : List Char) : Option (List Char × List Char) :=
  let onward (text : List Char) (result : Option (List Char × List Char)) :=
    result.map fun (tail, rest) => (gap.text ++ text ++ tail, rest)
  match cs with
  | [] => none
  | '"' :: cs => onward [] (some ([], cs))
  | '\\' :: letter :: cs =>
    if isBreak letter then onward [] (doubleQuoted? 0 ⟨[], [], true⟩ cs)
    else match escapeDigits? letter with
      | some size => do
        onward [← hexChar? (cs.take size)] (doubleQuoted? (column + 2 + size) .none (cs.drop size))
      | none => do onward [← escaped? letter] (doubleQuoted? (column + 2) .none cs)
  | c :: cs =>
    if isBreak c then doubleQuoted? 0 (gap.addBreak c) cs
    else if isSpace c then doubleQuoted? (column + 1) (gap.addSpace c) cs
    else if column == 0 && startsDocumentMark (c :: cs) then none
    else onward [c] (doubleQuoted? (column + 1) .none cs)
termination_by cs.length
decreasing_by all_goals simp +arith

end Stencil.Yaml
