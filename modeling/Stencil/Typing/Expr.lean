import Stencil.Type.Oracle
import Stencil.Typing.Error
import Stencil.Typing.Term

/-!
Checking expressions, by the types of literals, constants and operators, and the builtin methods. An
expression with a mistake in it has no type, and what is made of it is not checked further, so that a
mistake is reported once.
-/

namespace Stencil

def Literal.type : Literal → Ty
  | null => .null
  | bool _ => .bool
  | int _ => .int
  | float _ => .float
  | text _ => .text

mutual

-- The type of a constant, if the elements of its lists share types.
def Constant.type? : Constant → Option Ty
  | .literal l => some l.type
  | .list items => (Constant.elementType? .null items).map .list

-- The type that accepts all items, and the type `t` of those before them.
def Constant.elementType? (t : Ty) : List Constant → Option Ty
  | [] => some t
  | c :: cs => do Constant.elementType? (← t.unify (← c.type?)) cs

end

def UnaryOp.type? : UnaryOp → Ty → Option Ty
  | not, .bool => some .bool
  | negate, .int => some .int
  | negate, .float => some .float
  | _, _ => none

-- Numbers mix, and give a float unless both are integers.
def Ty.numericType? (a b : Ty) : Option Ty :=
  if a.isNumeric && b.isNumeric then some (if a = .int ∧ b = .int then .int else .float) else none

def BinaryOp.type? : BinaryOp → Ty → Ty → Option Ty
  | and, a, b | or, a, b => if a = .bool ∧ b = .bool then some .bool else none
  | equality _, a, b => (a.unify b).map fun _ => .bool
  | order _, a, b =>
    if a = .text ∧ b = .text then some .bool else (Ty.numericType? a b).map fun _ => .bool
  | arithmetic .add, .text, .text => some .text
  | arithmetic _, a, b => Ty.numericType? a b

-- What a method of a text or a list is.
inductive BuiltinMethod where
  | plain (builtin : Builtin) (returns : Ty)
  | contains (element : Ty)
deriving DecidableEq

def BuiltinMethod.find? : Ty → String → Option BuiltinMethod
  | .text, "len" | .list _, "len" => some (.plain .len .int)
  | .text, "is_empty" | .list _, "is_empty" => some (.plain .isEmpty .bool)
  | .text, "upper" => some (.plain .upper .text)
  | .text, "lower" => some (.plain .lower .text)
  | .text, "trim" => some (.plain .trim .text)
  | .text, "contains" => some (.contains .text)
  | .list element, "contains" => some (.contains element)
  | _, _ => none

open Check

-- A visible name. It has no type if its declaration was refused.
structure Local where
  name : String
  type : Option Ty

-- The visible names, innermost first. Each owns the slot whose number is that of the names outside
-- it.
abbrev Scope := List Local

-- The slot and the type of a name.
def Scope.find? : Scope → String → Option (Nat × Option Ty)
  | [], _ => none
  | l :: outer, name =>
    if l.name = name then some (outer.length, l.type) else Scope.find? outer name

-- The type that accepts all items of a list literal, and the type `t` of those before them.
def Expr.checkItems (t : Ty) : List (Span × Option Term) → Check (Option Ty)
  | [] => pure (some t)
  | (_, none) :: _ => pure none
  | (span, some item) :: rest =>
    match t.unify item.type with
    | some u => Expr.checkItems u rest
    | none => reject (.mixedList t item.type) span

-- Checks the types of arguments against parameters, one to one.
def Expr.checkEach (method : String) :
    Nat → List Ty → List (Span × Option Term) → Check (Option (List Term))
  | position, expected :: params, (span, arg) :: args => do
    let first ← match arg with
      | none => pure none
      | some t =>
        if expected.accepts t.type then pure (some t)
        else reject (.argumentType s!"{method} #{position}" expected t.type) span
    let rest ← Expr.checkEach method (position + 1) params args
    return do return (← first) :: (← rest)
  | _, _, _ => pure (some [])

-- Checks the arguments of a call: their number, then their types.
def Expr.checkArgs (method : String) (span : Span) (params : List Ty)
    (args : List (Span × Option Term)) : Check (Option (List Term)) :=
  if params.length = args.length then Expr.checkEach method 1 params args
  else reject (.argumentCount method params.length args.length) span

def Expr.checkMember (oracle : Oracle) (m : Mark) (object : Term) (name : String) :
    Check (Option Term) :=
  match object.type with
  | .record owner =>
    match oracle.member owner name with
    | some (.field type) => pure (some (.field ⟨m.id, type⟩ object name))
    | some (.method _ _) => reject (.notAField object.type name) m.span
    | none => reject (.unknownMember object.type name) m.span
  | type =>
    match BuiltinMethod.find? type name with
    | some _ => reject (.notAField type name) m.span
    | none => reject (.unknownMember type name) m.span

def Expr.checkCall (oracle : Oracle) (m : Mark) (object : Term) (name : String)
    (args : List (Span × Option Term)) : Check (Option Term) :=
  match object.type with
  | .record owner =>
    match oracle.member owner name with
    | some (.method params returns) => do
      let args ← Expr.checkArgs name m.span params args
      return args.map fun args => .method ⟨m.id, returns⟩ object name args
    | some (.field _) => reject (.notAMethod object.type name) m.span
    | none => reject (.unknownMember object.type name) m.span
  | type =>
    match BuiltinMethod.find? type name with
    | some (.plain builtin returns) => do
      let args ← Expr.checkArgs name m.span [] args
      return args.map fun _ => .builtin ⟨m.id, returns⟩ object builtin
    | some (.contains element) => do
      let args ← Expr.checkArgs name m.span [element] args
      return (args.bind List.head?).map fun needle => .contains ⟨m.id, .bool⟩ object needle
    | none => reject (.unknownMember type name) m.span

mutual

-- The checked form of an expression.
def Expr.check (oracle : Oracle) (scope : Scope) : Expr → Check (Option Term)
  | .literal m value => pure (some (.literal ⟨m.id, value.type⟩ value))
  | .name m ident =>
    match scope.find? ident with
    | none => reject (.unresolvedIdentifier ident) m.span
    | some (slot, type) => pure (type.map fun type => .slot ⟨m.id, type⟩ slot)
  | .list m items => do
    let items ← Expr.checkAll oracle scope items
    let element ← Expr.checkItems .null items
    return do return .list ⟨m.id, .list (← element)⟩ (← items.mapM (·.2))
  | .member m object field => do
    match ← object.check oracle scope with
    | none => return none
    | some object => Expr.checkMember oracle m object field
  | .call m object method args => do
    let object ← object.check oracle scope
    let args ← Expr.checkAll oracle scope args
    match object with
    | none => return none
    | some object => Expr.checkCall oracle m object method args
  | .unary m op operand => do
    match ← operand.check oracle scope with
    | none => return none
    | some t =>
      match op.type? t.type with
      | some type => return some (.unary ⟨m.id, type⟩ op t)
      | none => reject (.invalidOperands op.symbol [t.type]) m.span
  | .binary m op lhs rhs => do
    let lhs ← lhs.check oracle scope
    let rhs ← rhs.check oracle scope
    match lhs, rhs with
    | some a, some b =>
      match op.type? a.type b.type with
      | some type => return some (.binary ⟨m.id, type⟩ op a b)
      | none => reject (.invalidOperands op.symbol [a.type, b.type]) m.span
    | _, _ => return none

-- The checked forms of several expressions, each with its place.
def Expr.checkAll (oracle : Oracle) (scope : Scope) : List Expr → Check (List (Span × Option Term))
  | [] => pure []
  | e :: es => do
    let t ← e.check oracle scope
    let ts ← Expr.checkAll oracle scope es
    return (e.span, t) :: ts

end

end Stencil
