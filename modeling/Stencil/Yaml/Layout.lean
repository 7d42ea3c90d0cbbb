import Stencil.Yaml.Scalar

/-!
Cutting a YAML text into tokens. A block opens where a token stands further right than the block
around it, and closes where one stands further left. A token turns out to be a key only by the `:`
after it, so it is remembered where one may start until the next token is known.
-/

namespace Stencil.Yaml

-- Was a scalar written with quotes? Only one without them can be something other than text.
inductive Style where
  | plain
  | quoted
deriving DecidableEq

-- Indentation is told by tokens that open and close blocks.
inductive Token where
  | scalar (style : Style) (text : String)
  | openBlockSequence
  | openBlockMapping
  | closeBlock
  -- `[` and `]`
  | openSequence
  | closeSequence
  -- the curly brackets
  | openMapping
  | closeMapping
  | comma
  -- `-` before an item of a block sequence
  | item
  -- what comes next is a key of a mapping
  | key
  -- `:` before the value of a key
  | value
  -- `---` and `...`
  | documentStart
  | documentEnd
deriving DecidableEq

-- A token that may be a key: how many tokens came before it, and where it starts.
private structure Candidate where
  before : Nat
  offset : Nat
  line : Nat
  column : Nat
  -- Nothing but a key can stand here.
  required : Bool

private structure Layout where
  rest : List Char
  offset : Nat
  line : Nat
  column : Nat
  -- the tokens so far, the last one first
  tokens : List Token
  -- the columns of the open blocks, the innermost first
  indents : List Nat
  mayStartKey : Bool
  candidate : Option Candidate
  -- the candidates outside each open bracket
  outer : List (Option Candidate)

private abbrev Scanner := StateT Layout Option

namespace Layout

private def inBrackets (l : Layout) : Bool := !l.outer.isEmpty

-- The place after one more character.
private def next (l : Layout) (c : Char) : Layout :=
  if isBreak c then { l with offset := l.offset + 1, line := l.line + 1, column := 0 }
  else { l with offset := l.offset + 1, column := l.column + 1 }

-- Moves to where `rest` is left.
private def leave (l : Layout) (rest : List Char) : Layout :=
  { (l.rest.take (l.rest.length - rest.length)).foldl next l with rest := rest }

-- Moves past blanks, line breaks and comments. Outside brackets a key may start on a new line, and
-- where one may start there are no tabs. A line may start with a byte order mark, which takes up a
-- column.
private def skipBlank (l : Layout) (inComment : Bool) : List Char → Layout
  | [] => { l with rest := [] }
  | c :: cs =>
    if isBreak c then
      skipBlank { l.next c with mayStartKey := l.mayStartKey || !l.inBrackets } false cs
    else if inComment || c == '#' then skipBlank (l.next c) true cs
    else if c == ' ' || c == '\t' && (l.inBrackets || !l.mayStartKey)
        || c == '\ufeff' && l.column == 0 then
      skipBlank (l.next c) false cs
    else { l with rest := c :: cs }

end Layout

private def emit (t : Token) : Scanner Unit :=
  modify fun l => { l with tokens := t :: l.tokens }

private def skip (n : Nat) : Scanner Unit := modify fun l => l.leave (l.rest.drop n)

private def allowKey (allowed : Bool) : Scanner Unit :=
  modify fun l => { l with mayStartKey := allowed }

-- Puts a token behind the first `before` ones.
private def insert (before : Nat) (t : Token) : Scanner Unit :=
  modify fun l => { l with tokens := l.tokens.insertIdx (l.tokens.length - before) t }

private def forgetCandidate : Scanner Unit := do
  guard (!(← get).candidate.any (·.required))
  modify fun l => { l with candidate := none }

private def rememberCandidate : Scanner Unit := do
  if (← get).mayStartKey then
    forgetCandidate
    modify fun l =>
      let required := !l.inBrackets && l.indents.head? == some l.column
      { l with candidate := some ⟨l.tokens.length, l.offset, l.line, l.column, required⟩ }

-- The candidate, if a `:` here makes it a key. Both are on one line, not far apart.
private def takeCandidate : Scanner (Option Candidate) := do
  let l ← get
  match l.candidate with
  | none => return none
  | some k =>
    if k.line == l.line && l.offset ≤ k.offset + 1024 then
      set { l with candidate := none }
      return some k
    else
      forgetCandidate
      return none

-- Opens a block if this column is further right than the block around it.
private def openBlock (column before : Nat) (t : Token) : Scanner Unit := do
  let l ← get
  if !l.inBrackets && l.indents.head?.all (· < column) then
    set { l with indents := column :: l.indents }
    insert before t

private def openBlockHere (t : Token) : Scanner Unit := do
  let l ← get
  openBlock l.column l.tokens.length t

-- Closes the innermost blocks as long as their columns are so.
private def closeBlocks (isInner : Nat → Bool) : Scanner Unit :=
  modify fun l =>
    if l.inBrackets then l else
      { l with
        tokens := List.replicate (l.indents.takeWhile isInner).length .closeBlock ++ l.tokens
        indents := l.indents.dropWhile isInner }

private def openBracket (t : Token) : Scanner Unit := do
  rememberCandidate
  modify fun l => { l with outer := l.candidate :: l.outer, candidate := none }
  allowKey true
  skip 1
  emit t

private def closeBracket (t : Token) : Scanner Unit := do
  forgetCandidate
  modify fun l => { l with candidate := l.outer.head?.join, outer := l.outer.tail }
  allowKey false
  skip 1
  emit t

private def comma : Scanner Unit := do
  forgetCandidate
  allowKey true
  skip 1
  emit .comma

private def documentMark (t : Token) : Scanner Unit := do
  closeBlocks fun _ => true
  forgetCandidate
  allowKey false
  skip 3
  emit t

private def item : Scanner Unit := do
  let l ← get
  guard (l.inBrackets || l.mayStartKey)
  openBlockHere .openBlockSequence
  forgetCandidate
  allowKey true
  skip 1
  emit .item

-- A key announced by `?`.
private def explicitKey : Scanner Unit := do
  let l ← get
  guard (l.inBrackets || l.mayStartKey)
  openBlockHere .openBlockMapping
  forgetCandidate
  allowKey !l.inBrackets
  skip 1
  emit .key

private def value : Scanner Unit := do
  match ← takeCandidate with
  | some k =>
    insert k.before .key
    openBlock k.column k.before .openBlockMapping
    allowKey false
  | none =>
    let l ← get
    guard (l.inBrackets || l.mayStartKey)
    openBlockHere .openBlockMapping
    allowKey !l.inBrackets
  skip 1
  emit .value

private def quoted (read : Nat → Gap → List Char → Option (List Char × List Char)) :
    Scanner Unit := do
  rememberCandidate
  let l ← get
  let (text, rest) ← read (l.column + 1) .none (l.rest.drop 1)
  set (l.leave rest)
  allowKey false
  emit (.scalar .quoted (String.ofList text))

private def plain : Scanner Unit := do
  rememberCandidate
  let l ← get
  let limit := l.indents.head?.elim 0 (· + 1)
  let (text, broken, rest) ← plainScalar? l.inBrackets limit l.column .none l.rest
  set (l.leave rest)
  allowKey broken
  emit (.scalar .plain (String.ofList text))

-- Characters that start no plain scalar, wherever they stand.
private def isReserved (c : Char) : Bool :=
  isFlowIndicator c || "#&*!|>'\"%@\x60".toList.contains c

-- Reads the token that starts here.
private def token : Scanner Unit := do
  let l ← get
  match l.rest with
  | [] => failure
  | c :: cs =>
    let inBrackets := l.inBrackets
    let alone := startsBlank cs
    if l.column == 0 && startsMark "---".toList l.rest then documentMark .documentStart
    else if l.column == 0 && startsMark "...".toList l.rest then documentMark .documentEnd
    else if c == '[' then openBracket .openSequence
    else if c == '\x7b' then openBracket .openMapping
    else if c == ']' then closeBracket .closeSequence
    else if c == '\x7d' then closeBracket .closeMapping
    else if c == ',' then comma
    else if c == '-' && alone then item
    else if c == '?' && (inBrackets || alone) then explicitKey
    else if c == ':' && (inBrackets || alone) then value
    else if c == '\'' then quoted singleQuoted?
    else if c == '"' then quoted doubleQuoted?
    else if isSpace c || isReserved c then failure
    else plain

-- Every token takes up some of the text.
private def scan (l : Layout) : Option (List Token) := do
  let start := l.skipBlank false l.rest
  let ((), here) ← (closeBlocks (start.column < ·)).run start
  if here.rest.isEmpty then
    let ((), done) ← (do closeBlocks fun _ => true; forgetCandidate : Scanner Unit).run here
    return done.tokens.reverse
  else
    let ((), next) ← token.run here
    if _ : next.rest.length < l.rest.length then scan next else none
termination_by l.rest.length

-- Line breaks made of control characters are all the same.
private def plainBreaks : List Char → List Char
  | '\r' :: '\n' :: cs => '\n' :: plainBreaks cs
  | c :: cs => (if c == '\r' || c == '\u0085' then '\n' else c) :: plainBreaks cs
  | [] => []

-- The code points of the characters that a text may hold, as ranges with both ends included.
private def allowedRanges : List (Nat × Nat) :=
  [(0x9, 0xa), (0xd, 0xd), (0x20, 0x7e), (0x85, 0x85), (0xa0, 0xfffd), (0x10000, 0x10ffff)]

private def isAllowed (c : Char) : Bool :=
  allowedRanges.any fun (lo, hi) => lo ≤ c.toNat && c.toNat ≤ hi

-- The tokens of a text, unless it is malformed.
def tokens? (s : String) : Option (List Token) := do
  guard (s.toList.all isAllowed)
  scan ⟨plainBreaks s.toList, 0, 0, 0, [], [], true, none, []⟩

end Stencil.Yaml
