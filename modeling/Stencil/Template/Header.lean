import Stencil.Expr.Parser
import Stencil.Template.Basic

/-!
The code inside tags: declarations of parameters, headers of loops, arguments of inclusions.
-/

namespace Stencil.Code

open Reader

def nextIdent? : Reader (Option String) := do
  match ← next? with
  | some (.ident name) => return some name
  | _ => return none

-- `type name`, or `type name = default`
def paramDecl (span : Span) : Reader ParamDecl := do
  if (← nextIdent?).isNone then fail .invalidParam
  let type ← typeExpression
  match ← nextIdent? with
  | none => fail .invalidParam
  | some name =>
    skip
    let default ←
      if ← accept .assign then
        ensureNotEmpty
        some <$> expression
      else pure none
    if (← next?).isSome then fail .invalidParam
    return ⟨name, type, default, span⟩

def loopName : Reader Binding := do
  match ← nextIdent? with
  | some name =>
    if name = "in" then fail .invalidForHeader
    else
      let span ← here
      skip
      return ⟨⟨← freshId, span⟩, name⟩
  | none => fail .invalidForHeader

-- `element in iterable`, or `element, index in iterable`
def loopHeader : Reader (Binding × Option Binding × Expr) := do
  let element ← loopName
  let index ← if ← accept .comma then some <$> loopName else pure none
  if (← nextIdent?) = some "in" then
    skip
    let iterable ← completeExpression
    return (element, index, iterable)
  else fail .invalidForHeader

def argumentName? : Reader (Option String) := do
  match (← get).tokens with
  | ⟨.ident name, _⟩ :: ⟨.symbol .assign, _⟩ :: _ =>
    skip
    skip
    return some name
  | _ => return none

def arguments : Nat → Reader (List Argument)
  | 0 => return []
  | fuel + 1 => do
    let name ← argumentName?
    ensureNotEmpty
    let value ← expression
    if ← accept .comma then return ⟨name, value⟩ :: (← arguments fuel) else return [⟨name, value⟩]

-- Arguments with commas between them; there may be none. Each takes a token, and one is tried after
-- the last token.
def inclusionArgs : Reader (List Argument) := do
  if (← next?).isNone then return []
  else
    let args ← arguments ((← get).tokens.length + 1)
    expectEnd
    return args

end Stencil.Code
