import Stencil.Yaml.Layout

/-!
YAML documents: a scalar, or a sequence or mapping of such. What is left out is an empty scalar. A
node says something else where another kind of value is expected.
-/

namespace Stencil.Yaml

inductive Node where
  | scalar (style : Style) (text : String)
  | sequence (items : List Node)
  | mapping (entries : List (Node × Node))

namespace Node

def empty : Node := .scalar .plain ""

private abbrev Reader := StateT (List Token) Option

private def peek : Reader (Option Token) := return (← get).head?

-- Moves past the token if it comes next.
private def accept (t : Token) : Reader Bool := do
  if (← peek) == some t then
    modify List.tail
    return true
  else return false

-- The node that comes next, or the empty one where one of these tokens comes next.
private def orEmpty (stops : List Token) (node : Reader Node) : Reader Node := do
  if (← peek).any stops.contains then return empty else node

mutual

-- Reads a node. Every second step at least takes a token. Outside brackets a block may open. A
-- sequence that is the value of a key may stand no further right than the key, and then opens no
-- block.
private def read : Nat → (inBlock loose : Bool) → Reader Node
  | 0, _, _ => failure
  | fuel + 1, inBlock, loose => do
    match ← peek with
    | some (.scalar style text) =>
      modify List.tail
      return .scalar style text
    | some .item =>
      guard loose
      return .sequence (← looseItems fuel)
    | some t =>
      modify List.tail
      match t with
      | .openSequence => return .sequence (← listItems fuel true)
      | .openMapping => return .mapping (← listEntries fuel true)
      | .openBlockSequence => guard inBlock; return .sequence (← blockItems fuel)
      | .openBlockMapping => guard inBlock; return .mapping (← blockEntries fuel)
      | _ => failure
    | none => failure

private def blockItems : Nat → Reader (List Node)
  | 0 => failure
  | fuel + 1 => do
    if ← accept .closeBlock then return []
    guard (← accept .item)
    let first ← orEmpty [.item, .closeBlock] (read fuel true false)
    return first :: (← blockItems fuel)

private def looseItems : Nat → Reader (List Node)
  | 0 => failure
  | fuel + 1 => do
    if ← accept .item then
      let first ← orEmpty [.item, .key, .value, .closeBlock] (read fuel true false)
      return first :: (← looseItems fuel)
    else return []

private def blockEntries : Nat → Reader (List (Node × Node))
  | 0 => failure
  | fuel + 1 => do
    if ← accept .closeBlock then return []
    guard (← accept .key)
    let part := orEmpty [.key, .value, .closeBlock] (read fuel true true)
    let key ← part
    let value ← if ← accept .value then part else pure empty
    return (key, value) :: (← blockEntries fuel)

-- The items up to the closing bracket. A comma stands between them, and may stand after the last.
private def listItems : Nat → Bool → Reader (List Node)
  | 0, _ => failure
  | fuel + 1, first => do
    if ← accept .closeSequence then return []
    if !first then guard (← accept .comma)
    if ← accept .closeSequence then return []
    let item ←
      if ← accept .key then
        let key ← orEmpty [.value, .comma, .closeSequence] (read fuel false false)
        let value ←
          if ← accept .value then orEmpty [.comma, .closeSequence] (read fuel false false)
          else pure empty
        pure (mapping [(key, value)])
      else read fuel false false
    return item :: (← listItems fuel false)

private def listEntries : Nat → Bool → Reader (List (Node × Node))
  | 0, _ => failure
  | fuel + 1, first => do
    if ← accept .closeMapping then return []
    if !first then guard (← accept .comma)
    if ← accept .closeMapping then return []
    let entry ←
      if ← accept .key then
        let key ← orEmpty [.value, .comma, .closeMapping] (read fuel false false)
        let value ←
          if ← accept .value then orEmpty [.comma, .closeMapping] (read fuel false false)
          else pure empty
        pure (key, value)
      else
        pure (← read fuel false false, empty)
    return entry :: (← listEntries fuel false)

end

private def dropMarks : List Token → List Token
  | .documentEnd :: ts => dropMarks ts
  | ts => ts

-- The one document of a text, unless there are several or it is malformed.
def parse? (s : String) : Option Node := do
  let ts ← tokens? s
  let (body, isMarked) := match ts with
    | .documentStart :: ts => (ts, true)
    | ts => (ts, false)
  let isEmpty : Bool := match body with
    | [] => true
    | t :: _ => isMarked && (t == .documentStart || t == .documentEnd)
  let (node, rest) ←
    if isEmpty then some (empty, body) else (read (2 * body.length + 1) true false).run body
  guard (dropMarks rest).isEmpty
  return node

-- Any scalar is a text, whatever else it looks like.
def text? : Node → Option String
  | .scalar _ text => some text
  | _ => none

-- Nothing at all stands for an empty sequence or mapping.
def items? : Node → Option (List Node)
  | .sequence items => some items
  | .scalar .plain "" => some []
  | _ => none

def entries? : Node → Option (List (String × Node))
  | .mapping entries => entries.mapM fun (key, value) => key.text?.map (·, value)
  | .scalar .plain "" => some []
  | _ => none

-- The entries of a mapping whose keys are of these, each once at most.
def fields? (known : List String) (node : Node) : Option (List (String × Node)) := do
  let entries ← node.entries?
  let keys := entries.map (·.1)
  guard (keys.all known.contains && keys.eraseDups.length == keys.length)
  return entries

def bool? : Node → Option Bool
  | .scalar .plain text =>
    if ["true", "True", "TRUE"].contains text then some true
    else if ["false", "False", "FALSE"].contains text then some false
    else none
  | _ => none

private def digit? (c : Char) : Option Nat :=
  if c.isDigit then some (c.toNat - 48)
  else if 'a' ≤ c && c ≤ 'z' then some (c.toNat - 87)
  else if 'A' ≤ c && c ≤ 'Z' then some (c.toNat - 55)
  else none

-- A number of at least one digit, to a base.
private def digits? (base : Nat) (cs : List Char) : Option Nat := do
  guard !cs.isEmpty
  let values ← cs.mapM digit?
  guard (values.all (· < base))
  return values.foldl (fun n d => base * n + d) 0

-- A number that is not negative, below `bound`. It has no zeros in front, unless they announce
-- another base than ten.
def natural? (bound : Nat) : Node → Option Nat
  | .scalar .plain text => do
    let n ← match match text.toList with
        | '+' :: cs => cs
        | cs => cs with
      | '0' :: 'x' :: cs => digits? 16 cs
      | '0' :: 'o' :: cs => digits? 8 cs
      | '0' :: 'b' :: cs => digits? 2 cs
      | ['0'] => some 0
      | '0' :: _ => none
      | cs => digits? 10 cs
    guard (n < bound)
    return n
  | _ => none

end Node

end Stencil.Yaml
