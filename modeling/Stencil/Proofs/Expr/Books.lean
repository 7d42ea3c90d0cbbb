import Mathlib.Logic.Function.Basic
import Stencil.Proofs.Expr.Numbers

/-!
A reader of code that keeps books: how many operands and types it is inside of, how many that were
at most, and the height of each expression by its number. Two guards that look into the books stand
for all limits: no operand is begun inside too many others, and no expression is made too tall.
-/

namespace Stencil.Code

-- The cursor, with the operands and types that are open, the most that were open at once, and the
-- heights of the expressions that were made.
structure Books where
  cursor : Cursor
  opened : Nat
  deepest : Nat
  heights : Nat → Option Nat

-- Nothing is open and nothing was made.
def Books.new (c : Cursor) : Books := ⟨c, 0, 0, fun _ => none⟩

-- The height of an expression by its number, with one for a number that is not known.
def Books.heightOf (b : Books) (e : Expr) : Nat := (b.heights e.id).getD 1

-- Gives out the next number, for an expression of this height.
def Books.enter (b : Books) (height : Nat) : Books :=
  { b with
    cursor := { b.cursor with nextId := b.cursor.nextId + 1 }
    heights := Function.update b.heights b.cursor.nextId (some height) }

-- Readers that keep books, also when they fail.
abbrev Keeper := ExceptT Fault (StateM Books)

namespace Keeper

-- What a plain reader does leaves the books alone.
def lift {α : Type} (reader : Reader α) : Keeper α := ExceptT.mk fun b =>
  match reader.run b.cursor with
  | .ok (a, c) => (.ok a, { b with cursor := c })
  | .error fault => (.error fault, b)

instance : MonadLift Reader Keeper := ⟨lift⟩

-- Goes inside of an operand or a type, and comes out again whether that can be read or not.
def nested {α : Type} (keeper : Keeper α) : Keeper α := ExceptT.mk fun b =>
  if b.opened < maxNesting then
    let (result, b') := keeper.run
      { b with opened := b.opened + 1, deepest := max b.deepest (b.opened + 1) }
    (result, { b' with opened := b'.opened - 1 })
  else (Reader.fail .nestingTooDeep : Keeper α).run b

-- Makes an expression, numbers it and enters its height, unless that is too great.
def node (span : Span) (make : Mark → Expr) : Keeper Expr := ExceptT.mk fun b =>
  let made := make ⟨b.cursor.nextId, span⟩
  let height := (made.operands.map b.heightOf).foldr max 0 + 1
  if maxNesting < height then (.error ⟨.nestingTooDeep, span.start⟩, b)
  else (.ok made, b.enter height)

open Reader

-- The grammar.

def chain (operand : Keeper Expr) (looseness : Nat) : Nat → Expr → Keeper Expr
  | 0, lhs => return lhs
  | fuel + 1, lhs => do
    match ← nextOperator? looseness with
    | none => return lhs
    | some op =>
      skip
      let rhs ← operand
      let whole ← node (lhs.span.cover rhs.span) (.binary · op lhs rhs)
      chain operand looseness fuel whole

def binary (operand : Keeper Expr) : Nat → Keeper Expr
  | 0 => operand
  | looseness + 1 => do
    let lhs ← binary operand looseness
    chain (binary operand looseness) (looseness + 1) (← tokenCount) lhs

def commaSeparated (item : Keeper Expr) : Nat → Keeper (List Expr)
  | 0 => return [← item]
  | fuel + 1 => do
    let first ← item
    if ← accept .comma then return first :: (← commaSeparated item fuel) else return [first]

def items (item : Keeper Expr) (close : Symbol) : Keeper (List Expr) := do
  if ← atSymbol close then return [] else commaSeparated item (← tokenCount)

def literal (span : Span) (value : Literal) : Keeper Expr := do
  skip
  node span (.literal · value)

def primary (expr : Keeper Expr) : Keeper Expr := do
  let span ← here
  match ← next? with
  | some (.int n digits) =>
    match Number.word? n with
    | some w => literal span (.int w)
    | none => Reader.fail (.invalidNumber digits)
  | some (.float x) => literal span (.float x)
  | some (.text s) => literal span (.text s)
  | some (.ident "true") => literal span (.bool true)
  | some (.ident "false") => literal span (.bool false)
  | some (.ident "null") => literal span .null
  | some (.ident name) =>
    skip
    node span (.name · name)
  | some (.symbol .openParen) =>
    skip
    let inner ← expr
    let _ ← expect .closeParen
    return inner
  | some (.symbol .openBracket) =>
    skip
    let es ← items expr .closeBracket
    let close ← expect .closeBracket
    node (span.cover close) (.list · es)
  | _ => unexpected (α := Expr) "expression"

def memberChain (expr : Keeper Expr) : Nat → Expr → Keeper Expr
  | 0, object => return object
  | fuel + 1, object => do
    if ← accept .dot then
      let (name, nameSpan) ← expectIdent "member name after '.'"
      if ← accept .openParen then
        let args ← items expr .closeParen
        let close ← expect .closeParen
        let whole ← node (object.span.cover close) (.call · object name args)
        memberChain expr fuel whole
      else
        let whole ← node (object.span.cover nameSpan) (.member · object name)
        memberChain expr fuel whole
    else return object

def postfixed (expr : Keeper Expr) : Keeper Expr := do
  let object ← primary expr
  memberChain expr (← tokenCount) object

def signed (operand : Keeper Expr) : Keeper Expr := do
  let sign ← here
  if ← accept .bang then
    let e ← operand
    node (sign.cover e.span) (.unary · .not e)
  else if ← accept .minus then
    match ← leastIntLiteral? with
    | some digits => literal (sign.cover digits) (.int Int64.minValue)
    | none =>
      let e ← operand
      node (sign.cover e.span) (.unary · .negate e)
  else postfixed (binary operand loosest)

-- Operands inside of one another, down to where `beyond` would be read. Nothing here counts them
-- but the books.
def operand (beyond : Keeper Expr) : Nat → Keeper Expr
  | 0 => beyond
  | fuel + 1 => nested (signed (operand beyond fuel))

def expression (beyond : Keeper Expr) (fuel : Nat) : Keeper Expr :=
  binary (operand beyond fuel) loosest

def completeExpression (beyond : Keeper Expr) (fuel : Nat) : Keeper Expr := do
  ensureNotEmpty
  let e ← expression beyond fuel
  expectEnd
  return e

def type (beyond : Keeper TypeExpr) : Nat → Keeper TypeExpr
  | 0 => beyond
  | fuel + 1 => do
    let (name, _) ← expectIdent "type name"
    if name = "list" then
      if ← accept .less then
        let element ← nested (type beyond fuel)
        let _ ← expect .greater
        return .list element
      else return .named name
    else return .named name

-- The code inside tags.

section Tags

variable (beyond : Keeper Expr) (beyondType : Keeper TypeExpr) (fuel : Nat)

def paramDecl (span : Span) : Keeper ParamDecl := do
  if (← nextIdent?).isNone then Reader.fail .invalidParam
  let type ← type beyondType fuel
  match ← nextIdent? with
  | none => Reader.fail .invalidParam
  | some name =>
    skip
    let default ←
      if ← accept .assign then
        ensureNotEmpty
        some <$> expression beyond fuel
      else pure none
    if (← next?).isSome then Reader.fail .invalidParam
    return ⟨name, type, default, span⟩

def loopHeader : Keeper (Binding × Option Binding × Expr) := do
  let element ← loopName
  let index ← if ← accept .comma then some <$> (loopName : Keeper Binding) else pure none
  if (← nextIdent?) = some "in" then
    skip
    let iterable ← completeExpression beyond fuel
    return (element, index, iterable)
  else Reader.fail .invalidForHeader

def arguments : Nat → Keeper (List Argument)
  | 0 => return []
  | count + 1 => do
    let name ← argumentName?
    ensureNotEmpty
    let value ← expression beyond fuel
    if ← accept .comma then return ⟨name, value⟩ :: (← arguments count) else return [⟨name, value⟩]

def inclusionArgs : Keeper (List Argument) := do
  if (← next?).isNone then return []
  else
    let args ← arguments beyond fuel ((← (get : Reader Cursor)).tokens.length + 1)
    expectEnd
    return args

end Tags

end Keeper

end Stencil.Code
