import Stencil.Proofs.Bytewise.Code
import Stencil.Template.Header

/-!
The reader of code as a recursive descent over a table of tokens: it goes by the index of the next
entry, counts the operands and types that it is inside of, and its procedures call one another and
themselves without any bound. Where the calls are unrolled only so often, what would be called
beyond that gives nothing.
-/

namespace Stencil.Code

-- Entries as they are cut from code, the last of which is an end. There may be other ends.
structure Table where
  entries : List (Option Token × Span)
  closed : entries.getLast?.map Prod.fst = some none

-- The index of the next entry, how many operands and types are open, and the next free node number.
structure Place where
  index : Nat
  depth : Nat
  nextId : Nat

-- A reader that goes by the index. It keeps its place also when it fails, and it gives nothing at
-- all if it looks outside of the table or does not come to an end.
abbrev Descent := ReaderT Table (ExceptT Fault (StateT Place Option))

namespace Descent

variable {α : Type}

def runAt (x : Descent α) (table : Table) (p : Place) : Option (Except Fault α × Place) :=
  (x.run table).run p

def entry : Descent (Option Token × Span) := do
  let p ← get
  liftM (← read).entries[p.index]?

def next? : Descent (Option Token) := return (← entry).1

def here : Descent Span := return (← entry).2

-- What comes some entries further on, but not beyond the last one.
def ahead? (steps : Nat) : Descent (Option Token) := do
  let p ← get
  let entries := (← read).entries
  let (token, _) ← liftM entries[Bytewise.ahead entries p.index steps]?
  return token

def skip : Descent Unit := do
  let _ ← entry
  let entries := (← read).entries
  modify fun p => { p with index := Bytewise.advance entries p.index }

def fail (defect : Defect) : Descent α := do
  throw ⟨defect, (← here).start⟩

def unexpected (expected : String) : Descent α := do
  let found := (← next?).elim "end of expression" Token.describe
  fail (.unexpectedToken expected found)

def atSymbol (s : Symbol) : Descent Bool := do
  match ← next? with
  | some (.symbol t) => return s == t
  | _ => return false

def accept (s : Symbol) : Descent Bool := do
  if ← atSymbol s then
    skip
    return true
  else return false

def expect (s : Symbol) : Descent Span := do
  if ← atSymbol s then
    let span ← here
    skip
    return span
  else unexpected s!"'{s.text}'"

def expectIdent (what : String) : Descent (String × Span) := do
  match ← next? with
  | some (.ident name) =>
    let span ← here
    skip
    return (name, span)
  | _ => unexpected what

def expectEnd : Descent Unit := do
  if (← next?).isSome then unexpected "end of expression"

def ensureNotEmpty : Descent Unit := do
  if (← next?).isNone then fail .emptyExpression

def freshId : Descent Nat := do
  let p ← get
  set { p with nextId := p.nextId + 1 }
  return p.nextId

-- Goes inside of an operand or a type, and comes out again whether that can be read or not.
def nested (x : Descent α) : Descent α := fun table => ExceptT.mk do
  if (← get).depth < maxNesting then
    modify fun p => { p with depth := p.depth + 1 }
    let result ← (x.run table).run
    modify fun p => { p with depth := p.depth - 1 }
    return result
  else (fail .nestingTooDeep : Descent α) table

def node (span : Span) (children : List Measured) (make : Mark → Expr) : Descent Measured := do
  let height := tallest children + 1
  if maxNesting < height then throw ⟨.nestingTooDeep, span.start⟩
  else
    let id ← freshId
    return ⟨make ⟨id, span⟩, height⟩

def literal (span : Span) (value : Literal) : Descent Measured := do
  skip
  node span [] (.literal · value)

def nextOperator? (looseness : Nat) : Descent (Option BinaryOp) := do
  match ← next? with
  | some (.symbol s) => return (Symbol.binary? s).filter (·.looseness == looseness)
  | _ => return none

def leastIntLiteral? : Descent (Option Span) := do
  match ← entry with
  | (some (.int n _), span) =>
    match ← ahead? 1 with
    | some (.symbol .dot) => return none
    | _ => return if -(n : Int) = Int64.minValue.toInt then some span else none
  | _ => return none

def nextIdent? : Descent (Option String) := do
  match ← next? with
  | some (.ident name) => return some name
  | _ => return none

def loopName : Descent Binding := do
  match ← nextIdent? with
  | some name =>
    if name = "in" then fail .invalidForHeader
    else
      let span ← here
      skip
      return ⟨⟨← freshId, span⟩, name⟩
  | none => fail .invalidForHeader

def argumentName? : Descent (Option String) := do
  match ← nextIdent? with
  | some name =>
    match ← ahead? 1 with
    | some (.symbol .assign) =>
      skip
      skip
      return some name
    | _ => return none
  | none => return none

-- The procedures that are called by others or by themselves, and the loops.
structure Procedures where
  binary : Nat → Descent Measured
  chain : Nat → Measured → Descent Measured
  operand : Descent Measured
  memberChain : Measured → Descent Measured
  commaSeparated : Descent (List Measured)
  type : Descent TypeExpr
  arguments : Descent (List Argument)

-- The body of each, with what it calls.

section Bodies

variable (calls : Procedures)

def measured : Descent Measured := calls.binary loosest

def expression : Descent Expr := return (← measured calls).expr

-- Operators up to the given looseness, over operands that hold none.
def binary : Nat → Descent Measured
  | 0 => calls.operand
  | looseness + 1 => do
    let lhs ← calls.binary looseness
    calls.chain looseness lhs

-- Extends `lhs` as long as an operator follows that is one step looser than its operands.
def chain (looseness : Nat) (lhs : Measured) : Descent Measured := do
  match ← nextOperator? (looseness + 1) with
  | none => return lhs
  | some op =>
    skip
    let rhs ← calls.binary looseness
    let whole ← node (lhs.span.cover rhs.span) [lhs, rhs] (.binary · op lhs.expr rhs.expr)
    calls.chain looseness whole

def commaSeparated : Descent (List Measured) := do
  let first ← measured calls
  if ← accept .comma then return first :: (← calls.commaSeparated) else return [first]

def items (close : Symbol) : Descent (List Measured) := do
  if ← atSymbol close then return [] else calls.commaSeparated

def primary : Descent Measured := do
  let span ← here
  match ← next? with
  | some (.int n digits) =>
    match Number.word? n with
    | some w => literal span (.int w)
    | none => fail (.invalidNumber digits)
  | some (.float x) => literal span (.float x)
  | some (.text s) => literal span (.text s)
  | some (.ident "true") => literal span (.bool true)
  | some (.ident "false") => literal span (.bool false)
  | some (.ident "null") => literal span .null
  | some (.ident name) =>
    skip
    node span [] (.name · name)
  | some (.symbol .openParen) =>
    skip
    let inner ← measured calls
    let _ ← expect .closeParen
    return inner
  | some (.symbol .openBracket) =>
    skip
    let es ← items calls .closeBracket
    let close ← expect .closeBracket
    node (span.cover close) es (.list · (es.map (·.expr)))
  | _ => unexpected "expression"

def memberChain (object : Measured) : Descent Measured := do
  if ← accept .dot then
    let (name, nameSpan) ← expectIdent "member name after '.'"
    if ← accept .openParen then
      let args ← items calls .closeParen
      let close ← expect .closeParen
      let whole ← node (object.span.cover close) (object :: args)
        (.call · object.expr name (args.map (·.expr)))
      calls.memberChain whole
    else
      let whole ← node (object.span.cover nameSpan) [object] (.member · object.expr name)
      calls.memberChain whole
  else return object

def postfixed : Descent Measured := do
  let object ← primary calls
  calls.memberChain object

def signed : Descent Measured := do
  let sign ← here
  if ← accept .bang then
    let operand ← calls.operand
    node (sign.cover operand.span) [operand] (.unary · .not operand.expr)
  else if ← accept .minus then
    match ← leastIntLiteral? with
    | some digits => literal (sign.cover digits) (.int Int64.minValue)
    | none =>
      let operand ← calls.operand
      node (sign.cover operand.span) [operand] (.unary · .negate operand.expr)
  else postfixed calls

def operand : Descent Measured := nested (signed calls)

def type : Descent TypeExpr := do
  let (name, _) ← expectIdent "type name"
  if name = "list" then
    if ← accept .less then
      let element ← nested calls.type
      let _ ← expect .greater
      return .list element
    else return .named name
  else return .named name

def arguments : Descent (List Argument) := do
  let name ← argumentName?
  ensureNotEmpty
  let value ← expression calls
  if ← accept .comma then return ⟨name, value⟩ :: (← calls.arguments) else return [⟨name, value⟩]

def inclusionArgs : Descent (List Argument) := do
  if (← next?).isNone then return []
  else
    let args ← calls.arguments
    expectEnd
    return args

def completeExpression : Descent Expr := do
  ensureNotEmpty
  let e ← expression calls
  expectEnd
  return e

def loopHeader : Descent (Binding × Option Binding × Expr) := do
  let element ← loopName
  let index ← if ← accept .comma then some <$> loopName else pure none
  if (← nextIdent?) = some "in" then
    skip
    let iterable ← completeExpression calls
    return (element, index, iterable)
  else fail .invalidForHeader

def paramDecl (span : Span) : Descent ParamDecl := do
  if (← nextIdent?).isNone then fail .invalidParam
  let type ← calls.type
  match ← nextIdent? with
  | none => fail .invalidParam
  | some name =>
    skip
    let default ←
      if ← accept .assign then
        ensureNotEmpty
        some <$> expression calls
      else pure none
    if (← next?).isSome then fail .invalidParam
    return ⟨name, type, default, span⟩

end Bodies

-- The calls unrolled so often. What is called beyond that gives nothing.
def unrolled : Nat → Procedures
  | 0 =>
    let beyond {α : Type} : Descent α := liftM (none : Option α)
    ⟨fun _ => beyond, fun _ _ => beyond, beyond, fun _ => beyond, beyond, beyond, beyond⟩
  | n + 1 =>
    let calls := unrolled n
    ⟨binary calls, chain calls, operand calls, memberChain calls, commaSeparated calls, type calls,
      arguments calls⟩

end Descent

end Stencil.Code
