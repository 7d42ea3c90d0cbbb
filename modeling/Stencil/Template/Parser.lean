import Stencil.Markup.Lexer
import Stencil.Markup.Trim
import Stencil.Template.Header
import Stencil.Text.Classes

/-!
Building templates from tokens. Bodies nest: one is read by a reader whose argument says how many
more blocks may be opened in it.
-/

namespace Stencil.Template

open Markup

-- The tokens still to be read and the next free node number.
structure Progress where
  tokens : List Token
  nextId : Nat

abbrev Builder := StateT Progress (Except Fault)

namespace Builder

-- Why a body ended.
inductive Stop where
  | endOfSource
  | elseCondition (test : Slice) (span : Span)
  | otherwise (span : Span)
  | close (span : Span)

def nextToken? : Builder (Option Token) := do
  let p ← get
  match p.tokens with
  | [] => return none
  | t :: rest =>
    set { p with tokens := rest }
    return some t

def code {α : Type} (reader : Code.Reader α) (slice : Slice) : Builder α := do
  let p ← get
  let (a, nextId) ← reader.runOn slice p.nextId
  set { p with nextId := nextId }
  return a

def freshId : Builder Nat := do
  let p ← get
  set { p with nextId := p.nextId + 1 }
  return p.nextId

def tokenCount : Builder Nat := return (← get).tokens.length

-- Text right before text becomes one node with it.
def consText (s : Slice) : List Node → List Node
  | .text content span :: rest => .text (s.text ++ content) (s.span.cover span) :: rest
  | rest => .text s.text s.span :: rest

-- The span of a block whose last body ended so. Only a closing tag may end it.
def closed (kind : BlockKind) (opener : Span) : Stop → Builder Span
  | .close span => return opener.cover span
  | .endOfSource => throw ⟨.unclosedBlock kind, opener.start⟩
  | .elseCondition _ span => throw ⟨.unexpectedTag .elseIf, span.start⟩
  | .otherwise span => throw ⟨.unexpectedTag .otherwise, span.start⟩

abbrev BodyReader := Builder (List Node × Stop)

-- The arms of a conditional from the given test on, the body for when none holds, and the span.
def arms (body : BodyReader) (opener : Span) :
    Nat → Slice → Builder (List Arm × Option (List Node) × Span)
  | 0, _ => throw ⟨.unclosedBlock .conditional, opener.start⟩
  | fuel + 1, test => do
    let test ← code Code.completeExpression test
    let (nodes, stop) ← body
    match stop with
    | .elseCondition next _ =>
      let (rest, otherwise, span) ← arms body opener fuel next
      return (⟨test, nodes⟩ :: rest, otherwise, span)
    | .otherwise _ =>
      let (otherwise, stop) ← body
      return ([⟨test, nodes⟩], some otherwise, ← closed .conditional opener stop)
    | stop => return ([⟨test, nodes⟩], none, ← closed .conditional opener stop)

def conditional (body : BodyReader) (opener : Span) (test : Slice) : Builder Node := do
  let (arms, otherwise, span) ← arms body opener ((← tokenCount) + 1) test
  return .conditional arms otherwise span

def loop (body : BodyReader) (opener : Span) (header : Slice) : Builder Node := do
  let (element, index, iterable) ← code Code.loopHeader header
  let (nodes, stop) ← body
  match stop with
  | .otherwise _ =>
    let (otherwise, stop) ← body
    return .loop element index iterable nodes (some otherwise) (← closed .loop opener stop)
  | stop => return .loop element index iterable nodes none (← closed .loop opener stop)

-- Reads nodes up to the tag that ends the body, or the end of the source. Blocks opened in it have
-- their bodies read by `inner`; there is none where the nesting limit is reached.
def nodes (inner : Option BodyReader) : Nat → BodyReader
  | 0 => return ([], .endOfSource)
  | fuel + 1 => do
    let followedBy (node : Node) : BodyReader := do
      let (rest, stop) ← nodes inner fuel
      return (node :: rest, stop)
    match ← nextToken? with
    | none => return ([], .endOfSource)
    | some (.text s) =>
      let (rest, stop) ← nodes inner fuel
      return (consText s rest, stop)
    | some (.interpolation raw slice span) =>
      followedBy (.interpolation raw (← code Code.completeExpression slice) span)
    | some (.tag tag span) =>
      match tag with
      | .comment => nodes inner fuel
      | .param _ => throw ⟨.misplacedParam, span.start⟩
      | .condition test =>
        match inner with
        | none => throw ⟨.nestingTooDeep, span.start⟩
        | some body => followedBy (← conditional body span test)
      | .loop header =>
        match inner with
        | none => throw ⟨.nestingTooDeep, span.start⟩
        | some body => followedBy (← loop body span header)
      | .inclusion target slice =>
        let args ← code Code.inclusionArgs slice
        followedBy (.inclusion (← freshId) target args span)
      | .elseCondition test => return ([], .elseCondition test span)
      | .otherwise => return ([], .otherwise span)
      | .close => return ([], .close span)

-- Reads a body in which `depth` more blocks may be opened, one inside the other.
def bodyAt : Nat → BodyReader
  | 0 => do nodes none ((← tokenCount) + 1)
  | depth + 1 => do nodes (some (bodyAt depth)) ((← tokenCount) + 1)

-- A body that is all there is: no tag is left to end it.
def wholeBody : Builder (List Node) := do
  let (nodes, stop) ← bodyAt maxNesting
  match stop with
  | .endOfSource => return nodes
  | .elseCondition _ span => throw ⟨.unexpectedTag .elseIf, span.start⟩
  | .otherwise span => throw ⟨.unexpectedTag .otherwise, span.start⟩
  | .close span => throw ⟨.unexpectedTag .close, span.start⟩

def wholeTemplate (params : List (Slice × Span)) : Builder Template := do
  let params ← params.mapM fun (slice, span) => code (Code.paramDecl span) slice
  let body ← wholeBody
  return ⟨params, body, (← get).nextId⟩

end Builder

-- Takes off the declarations at the front, with the comments and blank text before and between
-- them.
def splitHeader : List Token → List (Slice × Span) × List Token
  | .tag (.param slice) span :: rest =>
    let (params, body) := splitHeader rest
    ((slice, span) :: params, body)
  | .tag .comment span :: rest =>
    match splitHeader rest with
    | ([], _) => ([], .tag .comment span :: rest)
    | (params, body) => (params, body)
  | .text s :: rest =>
    if s.chars.all Text.isBlank then
      match splitHeader rest with
      | ([], _) => ([], .text s :: rest)
      | (params, body) => (params, body)
    else ([], .text s :: rest)
  | tokens => ([], tokens)

-- The template of a token list.
def ofTokens (tokens : List Token) : Except Fault Template := do
  let (params, rest) := splitHeader tokens
  let (template, _) ← (Builder.wholeTemplate params).run ⟨rest, 0⟩
  return template

-- Reads a template. With `trimLines`, lines that hold a lone control tag leave no text behind.
def parse (source : String) (trimLines : Bool) : Except SyntaxError Template :=
  (do
    let tokens ← Markup.tokens source.toList
    ofTokens (if trimLines then Markup.trim tokens else tokens)).mapError (SyntaxError.ofFault source)

end Stencil.Template
