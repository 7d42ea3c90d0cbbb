import Stencil.Number.Format
import Stencil.Source.Error
import Stencil.Text.Classes

/-!
The tokens of code, and how a slice of code is cut into them.
-/

namespace Stencil

inductive Symbol where
  | equal
  | notEqual
  | lessEqual
  | greaterEqual
  | and
  | or
  | openParen
  | closeParen
  | openBracket
  | closeBracket
  | comma
  | dot
  | bang
  | less
  | greater
  | plus
  | minus
  | star
  | slash
  | percent
  | assign
deriving DecidableEq

namespace Symbol

def text : Symbol → String
  | equal => "=="
  | notEqual => "!="
  | lessEqual => "<="
  | greaterEqual => ">="
  | and => "&&"
  | or => "||"
  | openParen => "("
  | closeParen => ")"
  | openBracket => "["
  | closeBracket => "]"
  | comma => ","
  | dot => "."
  | bang => "!"
  | less => "<"
  | greater => ">"
  | plus => "+"
  | minus => "-"
  | star => "*"
  | slash => "/"
  | percent => "%"
  | assign => "="

-- The symbol at the front, the longer one where two fit.
def read? : List Char → Option (Symbol × List Char)
  | '=' :: '=' :: cs => some (equal, cs)
  | '!' :: '=' :: cs => some (notEqual, cs)
  | '<' :: '=' :: cs => some (lessEqual, cs)
  | '>' :: '=' :: cs => some (greaterEqual, cs)
  | '&' :: '&' :: cs => some (and, cs)
  | '|' :: '|' :: cs => some (or, cs)
  | '(' :: cs => some (openParen, cs)
  | ')' :: cs => some (closeParen, cs)
  | '[' :: cs => some (openBracket, cs)
  | ']' :: cs => some (closeBracket, cs)
  | ',' :: cs => some (comma, cs)
  | '.' :: cs => some (dot, cs)
  | '!' :: cs => some (bang, cs)
  | '<' :: cs => some (less, cs)
  | '>' :: cs => some (greater, cs)
  | '+' :: cs => some (plus, cs)
  | '-' :: cs => some (minus, cs)
  | '*' :: cs => some (star, cs)
  | '/' :: cs => some (slash, cs)
  | '%' :: cs => some (percent, cs)
  | '=' :: cs => some (assign, cs)
  | _ => none

end Symbol

namespace Code

inductive Token where
  | ident (name : String)
  -- The size, and the digits as written; a sign is a token of its own.
  | int (magnitude : Nat) (digits : String)
  | float (x : Float)
  | text (s : String)
  | symbol (s : Symbol)

def Token.describe : Token → String
  | ident name => s!"'{name}'"
  | int n _ => s!"'{n}'"
  | float x => s!"'{Number.floatText x}'"
  | text _ => "string literal"
  | symbol s => s!"'{s.text}'"

-- A token with the code that follows it.
structure Lexeme where
  token : Token
  stop : Nat
  rest : List Char

def unescape? : Char → Option Char
  | 'n' => some '\n'
  | 't' => some '\t'
  | 'r' => some '\r'
  | '\\' => some '\\'
  | '"' => some '"'
  | '\'' => some '\''
  | _ => none

-- Reads a string literal past its opening quote, which stands at byte `head`.
def textLiteral (quote : Char) (head : Nat) :
    Nat → List Char → Except Fault (List Char × Nat × List Char)
  | _, [] => .error ⟨.unterminatedString, head⟩
  | pos, c :: cs =>
    if c = quote then .ok ([], pos + 1, cs)
    else if c = '\\' then
      match cs with
      | [] => .error ⟨.unterminatedString, head⟩
      | e :: cs =>
        match unescape? e with
        | none => .error ⟨.invalidEscape e, pos⟩
        | some u =>
          (textLiteral quote head (pos + 1 + e.utf8Size) cs).map
            fun (value, stop, rest) => (u :: value, stop, rest)
    else
      (textLiteral quote head (pos + c.utf8Size) cs).map
        fun (value, stop, rest) => (c :: value, stop, rest)

def digitsValue (ds : List Char) : Nat :=
  ds.foldl (fun n d => 10 * n + (d.toNat - '0'.toNat)) 0

-- Literals of integers are 64-bit words without a sign.
def greatestMagnitude : Nat := UInt64.size - 1

-- The digits at the front of some code, those after a point, and the code that follows.
structure Numeral where
  whole : List Char
  fraction : List Char
  rest : List Char

def Numeral.text (n : Numeral) : List Char :=
  if n.fraction.isEmpty then n.whole else n.whole ++ '.' :: n.fraction

-- A point counts only with a digit on its right.
def numeral (cs : List Char) : Numeral :=
  let whole := cs.takeWhile Char.isDigit
  match cs.dropWhile Char.isDigit with
  | '.' :: d :: tail =>
    if d.isDigit then ⟨whole, d :: tail.takeWhile Char.isDigit, tail.dropWhile Char.isDigit⟩
    else ⟨whole, [], '.' :: d :: tail⟩
  | rest => ⟨whole, [], rest⟩

-- A number may not run on into a name, and an integer has to fit.
def numberLiteral (pos : Nat) (cs : List Char) : Except Fault Lexeme :=
  let n := numeral cs
  let stop := pos + byteLength n.text
  let invalid : Fault :=
    ⟨.invalidNumber (String.ofList (n.text ++ n.rest.takeWhile Char.isAlphanum)), pos⟩
  if n.rest.head?.any isIdentStart then .error invalid
  else if n.fraction.isEmpty then
    let magnitude := digitsValue n.whole
    if magnitude ≤ greatestMagnitude then
      .ok ⟨.int magnitude (String.ofList n.whole), stop, n.rest⟩
    else .error invalid
  else
    let digits := digitsValue (n.whole ++ n.fraction)
    .ok ⟨.float (Float.ofScientific digits true n.fraction.length), stop, n.rest⟩

-- Reads the token at byte `pos`, where no blank stands.
def lexeme (pos : Nat) (c : Char) (cs : List Char) : Except Fault Lexeme :=
  if isIdentStart c then
    let name := c :: cs.takeWhile isIdentChar
    .ok ⟨.ident (String.ofList name), pos + byteLength name, cs.dropWhile isIdentChar⟩
  else if c.isDigit then numberLiteral pos (c :: cs)
  else if c = '"' ∨ c = '\'' then
    (textLiteral c pos (pos + 1) cs).map
      fun (value, stop, rest) => ⟨.text (String.ofList value), stop, rest⟩
  else
    match Symbol.read? (c :: cs) with
    | some (s, rest) => .ok ⟨.symbol s, pos + byteLength s.text.toList, rest⟩
    | none => .error ⟨.unexpectedCharacter c, pos⟩

-- Every token takes at least one character.

private theorem textLiteral_length {quote : Char} {head pos : Nat} {cs : List Char}
    {p : List Char × Nat × List Char} (h : textLiteral quote head pos cs = .ok p) :
    p.2.2.length ≤ cs.length := by
  fun_induction textLiteral quote head pos cs generalizing p with
  | case1 => cases h
  | case2 pos cs =>
    obtain rfl : _ = p := by simpa using h
    simp
  | case3 => cases h
  | case4 => cases h
  | case5 pos _ e cs u _ ih =>
    obtain ⟨q, hq, rfl⟩ := exists_of_map_eq_ok h
    have := ih hq
    exact Nat.le_trans this (by simp only [List.length_cons]; omega)
  | case6 pos c cs _ _ ih =>
    obtain ⟨q, hq, rfl⟩ := exists_of_map_eq_ok h
    have := ih hq
    exact Nat.le_trans this (by simp)

private theorem numeral_length {c : Char} {cs : List Char} (hc : c.isDigit = true) :
    (numeral (c :: cs)).rest.length ≤ cs.length := by
  have hw : ((c :: cs).dropWhile Char.isDigit).length ≤ cs.length := by
    simpa [List.dropWhile, hc] using (List.dropWhile_sublist Char.isDigit).length_le
  unfold numeral
  simp only
  split
  · next d tail ht =>
    rw [ht, List.length_cons, List.length_cons] at hw
    have : (tail.dropWhile Char.isDigit).length ≤ tail.length :=
      (List.dropWhile_sublist _).length_le
    split
    · simp only
      omega
    · simpa using hw
  · exact hw

private theorem numberLiteral_length {pos : Nat} {c : Char} {cs : List Char} {l : Lexeme}
    (hc : c.isDigit = true) (h : numberLiteral pos (c :: cs) = .ok l) :
    l.rest.length ≤ cs.length := by
  simp only [numberLiteral] at h
  split at h
  · cases h
  split at h
  · split at h
    · obtain rfl : _ = l := by simpa using h
      exact numeral_length hc
    · cases h
  · obtain rfl : _ = l := by simpa using h
    exact numeral_length hc

private theorem symbol_length {cs rest : List Char} {s : Symbol}
    (h : Symbol.read? cs = some (s, rest)) : rest.length < cs.length := by
  unfold Symbol.read? at h
  split at h
  all_goals
    cases h <;> simp only [List.length_cons] <;> omega

private theorem lexeme_length {pos : Nat} {c : Char} {cs : List Char} {l : Lexeme}
    (h : lexeme pos c cs = .ok l) : l.rest.length ≤ cs.length := by
  unfold lexeme at h
  split at h
  · obtain rfl : _ = l := by simpa using h
    exact (List.dropWhile_sublist isIdentChar).length_le
  split at h
  · next hd => exact numberLiteral_length hd h
  split at h
  · obtain ⟨p, hp, rfl⟩ := exists_of_map_eq_ok h
    exact textLiteral_length hp
  split at h
  · next hs =>
    obtain rfl : _ = l := by simpa using h
    exact Nat.le_of_lt_succ (symbol_length hs)
  · cases h

structure Placed where
  token : Token
  span : Span

-- The tokens of code that begins at byte `pos`.
def tokens (pos : Nat) (cs : List Char) : Except Fault (List Placed) :=
  match cs with
  | [] => .ok []
  | c :: rest =>
    if isCodeBlank c then tokens (pos + 1) rest
    else
      match h : lexeme pos c rest with
      | .error fault => .error fault
      | .ok l =>
        have := lexeme_length h
        (tokens l.stop l.rest).map (⟨l.token, pos, l.stop⟩ :: ·)
termination_by cs.length

end Code

end Stencil
