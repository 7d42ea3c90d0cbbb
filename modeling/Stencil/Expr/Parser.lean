import Stencil.Expr.Basic
import Stencil.Expr.Token
import Stencil.Number.Word

/-!
Reading expressions. How deep the reader may still descend is an argument that shrinks with each
operand, so no input makes it descend further than `maxNesting`.
-/

namespace Stencil.Code

-- The tokens still to be read, the byte where the code ends, and the next free node number.
structure Cursor where
  tokens : List Placed
  stop : Nat
  nextId : Nat

abbrev Reader := StateT Cursor (Except Fault)

namespace Reader

def next? : Reader (Option Token) := return (← get).tokens.head?.map (·.token)

-- The place of the next token, or of the end.
def here : Reader Span := do
  let c ← get
  return c.tokens.head?.elim ⟨c.stop, c.stop⟩ (·.span)

def skip : Reader Unit := modify fun c => { c with tokens := c.tokens.tail }

def fail {α : Type} (defect : Defect) : Reader α := do
  throw ⟨defect, (← here).start⟩

def unexpected {α : Type} (expected : String) : Reader α := do
  let found := (← next?).elim "end of expression" Token.describe
  fail (.unexpectedToken expected found)

def atSymbol (s : Symbol) : Reader Bool := do
  match ← next? with
  | some (.symbol t) => return s == t
  | _ => return false

-- Passes the symbol if it is the next token.
def accept (s : Symbol) : Reader Bool := do
  if ← atSymbol s then
    skip
    return true
  else return false

-- Passes the symbol and gives its place.
def expect (s : Symbol) : Reader Span := do
  if ← atSymbol s then
    let span ← here
    skip
    return span
  else unexpected s!"'{s.text}'"

def expectIdent (what : String) : Reader (String × Span) := do
  match ← next? with
  | some (.ident name) =>
    let span ← here
    skip
    return (name, span)
  | _ => unexpected what

def expectEnd : Reader Unit := do
  if (← next?).isSome then unexpected "end of expression"

def ensureNotEmpty : Reader Unit := do
  if (← next?).isNone then fail .emptyExpression

def freshId : Reader Nat := do
  let c ← get
  set { c with nextId := c.nextId + 1 }
  return c.nextId

-- Runs a reader on the code of a slice, with node numbers from `nextId` on.
def runOn {α : Type} (reader : Reader α) (code : Slice) (nextId : Nat) :
    Except Fault (α × Nat) := do
  let tokens ← tokens code.start code.chars
  let (a, c) ← reader.run ⟨tokens, code.stop, nextId⟩
  return (a, c.nextId)

end Reader

open Reader

-- An expression with its height; a leaf has height one.
structure Measured where
  expr : Expr
  height : Nat

def tallest (es : List Measured) : Nat := es.foldl (fun n e => max n e.height) 0

-- Makes a node over the given children and numbers it, unless it would be too tall.
def node (span : Span) (children : List Measured) (make : Mark → Expr) : Reader Measured := do
  let height := tallest children + 1
  if maxNesting < height then throw ⟨.nestingTooDeep, span.start⟩
  else
    let id ← freshId
    return ⟨make ⟨id, span⟩, height⟩

def Measured.span (e : Measured) : Span := e.expr.span

def Symbol.binary? : Symbol → Option BinaryOp
  | .or => some .or
  | .and => some .and
  | .equal => some (.equality .equal)
  | .notEqual => some (.equality .notEqual)
  | .less => some (.order .less)
  | .lessEqual => some (.order .lessEqual)
  | .greater => some (.order .greater)
  | .greaterEqual => some (.order .greaterEqual)
  | .plus => some (.arithmetic .add)
  | .minus => some (.arithmetic .subtract)
  | .star => some (.arithmetic .multiply)
  | .slash => some (.arithmetic .divide)
  | .percent => some (.arithmetic .remainder)
  | _ => none

-- The operator that comes next, if it binds exactly this loosely.
def nextOperator? (looseness : Nat) : Reader (Option BinaryOp) := do
  match ← next? with
  | some (.symbol s) => return (Symbol.binary? s).filter (·.looseness == looseness)
  | _ => return none

def tokenCount : Reader Nat := return (← get).tokens.length

-- Extends `lhs` by operators of one looseness as long as they follow. Each takes a token, so there
-- are no more of them than tokens.
def chain (operand : Reader Measured) (looseness : Nat) : Nat → Measured → Reader Measured
  | 0, lhs => return lhs
  | fuel + 1, lhs => do
    match ← nextOperator? looseness with
    | none => return lhs
    | some op =>
      skip
      let rhs ← operand
      let whole ← node (lhs.span.cover rhs.span) [lhs, rhs] (.binary · op lhs.expr rhs.expr)
      chain operand looseness fuel whole

-- Operators up to the given looseness, over operands that hold none.
def binary (operand : Reader Measured) : Nat → Reader Measured
  | 0 => operand
  | looseness + 1 => do
    let lhs ← binary operand looseness
    chain (binary operand looseness) (looseness + 1) (← tokenCount) lhs

-- Expressions with commas between them, at least one.
def commaSeparated (item : Reader Measured) : Nat → Reader (List Measured)
  | 0 => return [← item]
  | fuel + 1 => do
    let first ← item
    if ← accept .comma then return first :: (← commaSeparated item fuel) else return [first]

def items (item : Reader Measured) (close : Symbol) : Reader (List Measured) := do
  if ← atSymbol close then return [] else commaSeparated item (← tokenCount)

def literal (span : Span) (value : Literal) : Reader Measured := do
  skip
  node span [] (.literal · value)

def primary (expr : Reader Measured) : Reader Measured := do
  let span ← here
  match ← next? with
  | some (.int n digits) =>
    match Number.word? n with
    | some w => literal span (.int w)
    | none => fail (.invalidNumber digits)
  | some (.float x) => literal span (.float x)
  | some (.text s) => literal span (.text s)
  | some (.ident "true") => literal span (.bool true)
  | some (.ident "false") => literal span (.bool false)
  | some (.ident "null") => literal span .null
  | some (.ident name) =>
    skip
    node span [] (.name · name)
  | some (.symbol .openParen) =>
    skip
    let inner ← expr
    let _ ← expect .closeParen
    return inner
  | some (.symbol .openBracket) =>
    skip
    let es ← items expr .closeBracket
    let close ← expect .closeBracket
    node (span.cover close) es (.list · (es.map (·.expr)))
  | _ => unexpected "expression"

-- Extends `object` by members and calls as long as a dot follows.
def memberChain (expr : Reader Measured) : Nat → Measured → Reader Measured
  | 0, object => return object
  | fuel + 1, object => do
    if ← accept .dot then
      let (name, nameSpan) ← expectIdent "member name after '.'"
      if ← accept .openParen then
        let args ← items expr .closeParen
        let close ← expect .closeParen
        let whole ← node (object.span.cover close) (object :: args)
          (.call · object.expr name (args.map (·.expr)))
        memberChain expr fuel whole
      else
        let whole ← node (object.span.cover nameSpan) [object] (.member · object.expr name)
        memberChain expr fuel whole
    else return object

def postfixed (expr : Reader Measured) : Reader Measured := do
  let object ← primary expr
  memberChain expr (← tokenCount) object

-- The least integer has no positive counterpart, so a minus sign and its digits are one literal,
-- unless a member of the number is taken.
def leastIntLiteral? : Reader (Option Span) := do
  match (← get).tokens with
  | ⟨.int n _, span⟩ :: following =>
    match following with
    | ⟨.symbol .dot, _⟩ :: _ => return none
    | _ => return if -(n : Int) = Int64.minValue.toInt then some span else none
  | _ => return none

-- An operand with any number of signs before it, given the reader one level further down.
def signed (deeper : Reader Measured) : Reader Measured := do
  let sign ← here
  if ← accept .bang then
    let operand ← deeper
    node (sign.cover operand.span) [operand] (.unary · .not operand.expr)
  else if ← accept .minus then
    match ← leastIntLiteral? with
    | some digits => literal (sign.cover digits) (.int Int64.minValue)
    | none =>
      let operand ← deeper
      node (sign.cover operand.span) [operand] (.unary · .negate operand.expr)
  else postfixed (binary deeper loosest)

def operand : Nat → Reader Measured
  | 0 => fail .nestingTooDeep
  | depth + 1 => signed (operand depth)

-- An expression with everything in it, and its height.
def measured : Reader Measured := binary (operand maxNesting) loosest

def expression : Reader Expr := return (← measured).expr

-- An expression that is all there is.
def completeExpression : Reader Expr := do
  ensureNotEmpty
  let e ← expression
  expectEnd
  return e

def typeOver (deeper : Reader TypeExpr) : Reader TypeExpr := do
  let (name, _) ← expectIdent "type name"
  if name = "list" then
    if ← accept .less then
      let element ← deeper
      let _ ← expect .greater
      return .list element
    else return .named name
  else return .named name

def typeAt : Nat → Reader TypeExpr
  | 0 => typeOver (fail .nestingTooDeep)
  | depth + 1 => typeOver (typeAt depth)

def typeExpression : Reader TypeExpr := typeAt maxNesting

end Stencil.Code
