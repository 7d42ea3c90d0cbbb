import Mathlib.Data.List.DropRight
import Stencil.Template.Parser

/-!
The tags of a body, read from left to right by an automaton whose stack holds the blocks that are
open; and a body as the row of its tags and of what stands between them.
-/

namespace Stencil.Template

open Markup

-- What one token of a body says once its code is read. A block begins where its first tag does and
-- ends where its last tag does.
inductive Item where
  | text (content : String) (span : Span)
  | interpolation (raw : Bool) (value : Expr) (span : Span)
  | inclusion (id : Nat) (target : String) (args : List Argument) (span : Span)
  | condition (test : Expr) (start : Nat)
  | elseCondition (test : Expr)
  | loop (header : Binding × Option Binding × Expr) (start : Nat)
  | otherwise
  | close (stop : Nat)

-- What was read from the front: its items, and the next free node number.
abbrev Reading := Except Fault (List Item × Nat)

namespace Reading

-- One item, made of code that is read with node numbers from `n` on.
def code {α : Type} (reader : Code.Reader α) (slice : Slice) (n : Nat) (item : α → Item) :
    Reading :=
  (reader.runOn slice n).map fun (a, n) => ([item a], n)

-- What stands before is put in front.
def after (items : List Item) (reading : Reading) : Reading :=
  reading.map fun (rest, n) => (items ++ rest, n)

end Reading

-- Reads a token by itself. Comments say nothing, and neither do declarations.
def readToken (n : Nat) : Token → Reading
  | .text s => .ok ([.text s.text s.span], n)
  | .interpolation raw slice span =>
    .code Code.completeExpression slice n (.interpolation raw · span)
  | .tag t span =>
    match t with
    | .condition slice => .code Code.completeExpression slice n (.condition · span.start)
    | .elseCondition slice => .code Code.completeExpression slice n .elseCondition
    | .loop slice => .code Code.loopHeader slice n (.loop · span.start)
    | .inclusion target slice =>
      (Code.inclusionArgs.runOn slice n).map fun (args, n) =>
        ([.inclusion n target args span], n + 1)
    | .otherwise => .ok ([.otherwise], n)
    | .close => .ok ([.close span.stop], n)
    | .comment | .param _ => .ok ([], n)

-- Reads each token by itself, from left to right.
def readTokens : Nat → List Token → Reading
  | n, [] => .ok ([], n)
  | n, t :: ts => do
    let (items, n) ← readToken n t
    (readTokens n ts).after items

theorem readTokens_eq_bind (n : Nat) (t : Token) (ts : List Token) : readTokens n (t :: ts) =
    (readToken n t).bind fun (items, n) => (readTokens n ts).after items := rfl

-- The header: the leading run of declarations, comments and blank text, up to the last declaration
-- in it.
def isDeclaration : Token → Bool
  | .tag (.param _) _ => true
  | _ => false

def isLeading : Token → Bool
  | .tag (.param _) _ | .tag .comment _ => true
  | .text s => s.chars.all Text.isBlank
  | _ => false

def header (ts : List Token) : List Token :=
  (ts.takeWhile isLeading).rdropWhile (!isDeclaration ·)

def behindHeader (ts : List Token) : List Token := ts.drop (header ts).length

-- Reads the declarations of a header. What stands between them says nothing.
def readHeader : Nat → List Token → Except Fault (List ParamDecl × Nat)
  | n, [] => .ok ([], n)
  | n, t :: ts =>
    match t with
    | .tag (.param slice) span => do
      let (param, n) ← (Code.paramDecl span).runOn slice n
      let (params, n) ← readHeader n ts
      return (param :: params, n)
    | _ => readHeader n ts

theorem readHeader_eq_bind (n : Nat) (slice : Slice) (span : Span) (ts : List Token) :
    readHeader n (.tag (.param slice) span :: ts) =
      ((Code.paramDecl span).runOn slice n).bind fun (param, n) =>
        (readHeader n ts).bind fun (params, n) => .ok (param :: params, n) := rfl

-- A block that is open: where it begins, and whether its `@else` was met.
structure OpenBlock where
  kind : BlockKind
  start : Nat
  otherwise : Bool
deriving DecidableEq

namespace Blocks

-- Opens a block inside the others, the innermost first.
def enter (blocks : List OpenBlock) (kind : BlockKind) (start : Nat) :
    Except Fault (List OpenBlock) :=
  if blocks.length < maxNesting then .ok (⟨kind, start, false⟩ :: blocks)
  else .error ⟨.nestingTooDeep, start⟩

-- One step of the automaton. It looks at tags only, and not at their code.
def step (blocks : List OpenBlock) : Token → Except Fault (List OpenBlock)
  | .text _ | .interpolation _ _ _ => .ok blocks
  | .tag t span =>
    match t with
    | .comment | .inclusion _ _ => .ok blocks
    | .param _ => .error ⟨.misplacedParam, span.start⟩
    | .condition _ => enter blocks .conditional span.start
    | .loop _ => enter blocks .loop span.start
    | .elseCondition _ =>
      match blocks with
      | ⟨.conditional, _, false⟩ :: _ => .ok blocks
      | _ => .error ⟨.unexpectedTag .elseIf, span.start⟩
    | .otherwise =>
      match blocks with
      | ⟨kind, start, false⟩ :: outer => .ok (⟨kind, start, true⟩ :: outer)
      | _ => .error ⟨.unexpectedTag .otherwise, span.start⟩
    | .close =>
      match blocks with
      | _ :: outer => .ok outer
      | [] => .error ⟨.unexpectedTag .close, span.start⟩

-- At the end of the source no block may be open.
def finish : List OpenBlock → Except Fault Unit
  | [] => .ok ()
  | block :: _ => .error ⟨.unclosedBlock block.kind, block.start⟩

-- The run of the automaton over the tokens.
def accept : List OpenBlock → List Token → Except Fault Unit
  | blocks, [] => finish blocks
  | blocks, t :: ts => do accept (← step blocks t) ts

-- The run of the automaton, with each token read as soon as the automaton has let it pass.
def run : List OpenBlock → Nat → List Token → Reading
  | blocks, n, [] => (finish blocks).map fun _ => ([], n)
  | blocks, n, t :: ts => do
    let blocks ← step blocks t
    let (items, n) ← readToken n t
    (run blocks n ts).after items

theorem run_eq_bind (blocks : List OpenBlock) (n : Nat) (t : Token) (ts : List Token) :
    run blocks n (t :: ts) = (step blocks t).bind fun blocks =>
      (readToken n t).bind fun (items, n) => (run blocks n ts).after items := rfl

end Blocks

-- The header and what follows it: the declarations, the items, and how many numbers were given.
def readTemplate (ts : List Token) : Except Fault (List ParamDecl × List Item × Nat) := do
  let (params, n) ← readHeader 0 (header ts)
  let (items, n) ← Blocks.run [] n (behindHeader ts)
  return (params, items, n)

theorem readTemplate_eq_bind (ts : List Token) : readTemplate ts =
    (readHeader 0 (header ts)).bind fun (params, n) =>
      (Blocks.run [] n (behindHeader ts)).bind fun (items, n) => .ok (params, items, n) := rfl

-- Text right before text becomes one item with it.
def Item.before : Item → List Item → List Item
  | .text content span, .text content' span' :: rest =>
    .text (content ++ content') (span.cover span') :: rest
  | item, rest => item :: rest

def mergeTexts (items : List Item) : List Item := items.foldr Item.before []

end Stencil.Template

namespace Stencil

open Template

mutual

-- A node as a row of items.
def Node.items : Node → List Item
  | .text content span => [.text content span]
  | .interpolation raw value span => [.interpolation raw value span]
  | .conditional arms none span =>
    Node.itemsOfArms (.condition · span.start) arms ++ [.close span.stop]
  | .conditional arms (some otherwise) span =>
    Node.itemsOfArms (.condition · span.start) arms ++
      .otherwise :: Node.itemsOfAll otherwise ++ [.close span.stop]
  | .loop element index iterable body none span =>
    .loop (element, index, iterable) span.start :: Node.itemsOfAll body ++ [.close span.stop]
  | .loop element index iterable body (some otherwise) span =>
    .loop (element, index, iterable) span.start :: Node.itemsOfAll body ++
      .otherwise :: Node.itemsOfAll otherwise ++ [.close span.stop]
  | .inclusion id target args span => [.inclusion id target args span]

def Node.itemsOfAll : List Node → List Item
  | [] => []
  | node :: nodes => node.items ++ Node.itemsOfAll nodes

-- Every arm behind the first begins with an `@elseif`.
def Node.itemsOfArms (opener : Expr → Item) : List Arm → List Item
  | [] => []
  | .mk test body :: arms =>
    opener test :: Node.itemsOfAll body ++ Node.itemsOfArms .elseCondition arms

end

end Stencil
