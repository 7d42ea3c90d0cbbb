import Stencil.Proofs.Typing.Order

/-!
The type system, as rules. Nothing in them follows the order in which a check goes about its work:
they say which types an expression has, and which bodies and headers are right.
-/

namespace Stencil

-- The visible names with their types, innermost first.
abbrev Context := List (String × Ty)

-- The names inside a loop over a list: its element, and inside that its index.
def Context.inLoop (Γ : Context) (element : Binding) (index : Option Binding) (τ : Ty) : Context :=
  (index.map fun index => (index.name, .int)).toList ++ (element.name, τ) :: Γ

inductive Literal.HasType : Literal → Ty → Prop
  | null : HasType .null .null
  | bool (b : Bool) : HasType (.bool b) .bool
  | int (n : Int64) : HasType (.int n) .int
  | float (x : Float) : HasType (.float x) .float
  | text (s : String) : HasType (.text s) .text

inductive Ty.Numeric : Ty → Prop
  | int : Numeric .int
  | float : Numeric .float

inductive Ty.Renderable : Ty → Prop
  | null : Renderable .null
  | bool : Renderable .bool
  | int : Renderable .int
  | float : Renderable .float
  | text : Renderable .text

-- An operator takes an operand of the first type to a result of the second.
inductive UnaryOp.Takes : UnaryOp → Ty → Ty → Prop
  | not : Takes .not .bool .bool
  | negate {σ : Ty} (numeric : σ.Numeric) : Takes .negate σ σ

inductive BinaryOp.Takes : BinaryOp → Ty → Ty → Ty → Prop
  | and : Takes .and .bool .bool .bool
  | or : Takes .or .bool .bool .bool
  | equality {op : EqualityOp} {σ τ : Ty} (comparable : σ ≤ τ ∨ τ ≤ σ) :
    Takes (.equality op) σ τ .bool
  | orderTexts {op : OrderOp} : Takes (.order op) .text .text .bool
  | orderNumbers {op : OrderOp} {σ τ : Ty} (lhs : σ.Numeric) (rhs : τ.Numeric) :
    Takes (.order op) σ τ .bool
  | concat : Takes (.arithmetic .add) .text .text .text
  | ints {op : ArithmeticOp} : Takes (.arithmetic op) .int .int .int
  | floats {op : ArithmeticOp} {σ τ : Ty} (lhs : σ.Numeric) (rhs : τ.Numeric)
      (inexact : σ = .float ∨ τ = .float) : Takes (.arithmetic op) σ τ .float

-- The methods that texts and lists have without a declaration, with their parameters and results.
inductive Ty.Offers : Ty → String → List Ty → Ty → Prop
  | textLen : Offers .text "len" [] .int
  | listLen {σ : Ty} : Offers (.list σ) "len" [] .int
  | textIsEmpty : Offers .text "is_empty" [] .bool
  | listIsEmpty {σ : Ty} : Offers (.list σ) "is_empty" [] .bool
  | upper : Offers .text "upper" [] .text
  | lower : Offers .text "lower" [] .text
  | trim : Offers .text "trim" [] .text
  | textContains : Offers .text "contains" [.text] .bool
  | listContains {σ : Ty} : Offers (.list σ) "contains" [σ] .bool

mutual

inductive Expr.HasType (oracle : Oracle) (Γ : Context) : Expr → Ty → Prop
  | literal {m : Mark} {value : Literal} {τ : Ty} (typed : value.HasType τ) :
    HasType oracle Γ (.literal m value) τ
  | name {m : Mark} {ident : String} {τ : Ty} (found : Γ.lookup ident = some τ) :
    HasType oracle Γ (.name m ident) τ
  -- The elements of a list share a type: the least that is above the types of the items.
  | list {m : Mark} {items : List Expr} {σs : List Ty} {τ : Ty}
      (items_typed : Expr.HaveTypes oracle Γ items σs) (least : IsLUB {σ | σ ∈ σs} τ) :
    HasType oracle Γ (.list m items) (.list τ)
  | field {m : Mark} {object : Expr} {owner name : String} {τ : Ty}
      (object_typed : Expr.HasType oracle Γ object (.record owner))
      (found : oracle.member owner name = some (.field τ)) :
    HasType oracle Γ (.member m object name) τ
  | method {m : Mark} {object : Expr} {owner name : String} {params : List Ty} {τ : Ty}
      {args : List Expr} {σs : List Ty}
      (object_typed : Expr.HasType oracle Γ object (.record owner))
      (found : oracle.member owner name = some (.method params τ))
      (args_typed : Expr.HaveTypes oracle Γ args σs)
      (accepted : List.Forall₂ (· ≤ ·) σs params) :
    HasType oracle Γ (.call m object name args) τ
  | builtin {m : Mark} {object : Expr} {ρ : Ty} {name : String} {params : List Ty} {τ : Ty}
      {args : List Expr} {σs : List Ty} (object_typed : Expr.HasType oracle Γ object ρ)
      (offered : ρ.Offers name params τ) (args_typed : Expr.HaveTypes oracle Γ args σs)
      (accepted : List.Forall₂ (· ≤ ·) σs params) :
    HasType oracle Γ (.call m object name args) τ
  | unary {m : Mark} {op : UnaryOp} {operand : Expr} {σ τ : Ty}
      (operand_typed : Expr.HasType oracle Γ operand σ) (takes : op.Takes σ τ) :
    HasType oracle Γ (.unary m op operand) τ
  | binary {m : Mark} {op : BinaryOp} {lhs rhs : Expr} {ρ σ τ : Ty}
      (lhs_typed : Expr.HasType oracle Γ lhs ρ) (rhs_typed : Expr.HasType oracle Γ rhs σ)
      (takes : op.Takes ρ σ τ) :
    HasType oracle Γ (.binary m op lhs rhs) τ

inductive Expr.HaveTypes (oracle : Oracle) (Γ : Context) : List Expr → List Ty → Prop
  | nil : HaveTypes oracle Γ [] []
  | cons {e : Expr} {es : List Expr} {τ : Ty} {τs : List Ty}
      (first : Expr.HasType oracle Γ e τ) (rest : Expr.HaveTypes oracle Γ es τs) :
    HaveTypes oracle Γ (e :: es) (τ :: τs)

end

-- What a written type stands for. A record may not take the name of a simple type.
inductive TypeExpr.Denotes (oracle : Oracle) : TypeExpr → Ty → Prop
  | bool : Denotes oracle (.named "bool") .bool
  | int : Denotes oracle (.named "int") .int
  | float : Denotes oracle (.named "float") .float
  | text : Denotes oracle (.named "string") .text
  | record {name : String} (other : name ∉ ["bool", "int", "float", "string"])
      (known : oracle.hasType name = true) : Denotes oracle (.named name) (.record name)
  | list {element : TypeExpr} {τ : Ty} (element_denotes : Denotes oracle element τ) :
    Denotes oracle (.list element) (.list τ)

-- The expressions that a default may be: literals, negated numbers, and lists of such. Of the
-- integers only the least has no negation.
inductive Expr.IsConstant : Expr → Prop
  | literal (m : Mark) (value : Literal) : IsConstant (.literal m value)
  | list {m : Mark} {items : List Expr} (items_constant : ∀ item ∈ items, IsConstant item) :
    IsConstant (.list m items)
  | negatedInt {m m' : Mark} {n : Int64} (word : Number.IsWord (-n.toInt)) :
    IsConstant (.unary m .negate (.literal m' (.int n)))
  | negatedFloat (m m' : Mark) (x : Float) : IsConstant (.unary m .negate (.literal m' (.float x)))

-- A default sees no names.
def Expr.IsDefault (oracle : Oracle) (e : Expr) (τ : Ty) : Prop :=
  e.IsConstant ∧ ∃ σ ≤ τ, e.HasType oracle [] σ

structure ParamDecl.HasType (oracle : Oracle) (decl : ParamDecl) (τ : Ty) : Prop where
  denotes : decl.type.Denotes oracle τ
  default : ∀ e, decl.default = some e → e.IsDefault oracle τ

-- What a header makes known to the body. The last parameter is innermost.
structure Template.Declares (oracle : Oracle) (t : Template) (Γ : Context) : Prop where
  distinct : (t.params.map ParamDecl.name).Nodup
  typed : List.Forall₂ (fun decl var => var.1 = decl.name ∧ decl.HasType oracle var.2)
    t.params Γ.reverse

-- The positions of the parameters that arguments are assigned to, where `index` arguments come
-- before them. One without a name goes to its own position, and none comes after one with a name.
inductive Argument.Assigned (oracle : Oracle) (Γ : Context) (schema : Schema) :
    Nat → List Argument → List Nat → Prop
  | nil {index : Nat} : Assigned oracle Γ schema index [] []
  | positional {index : Nat} {arg : Argument} {args : List Argument} {positions : List Nat}
      {param : Parameter} {σ : Ty} (unnamed : arg.name = none)
      (found : schema.params[index]? = some param) (typed : arg.value.HasType oracle Γ σ)
      (accepted : σ ≤ param.type)
      (rest : Assigned oracle Γ schema (index + 1) args positions) :
    Assigned oracle Γ schema index (arg :: args) (index :: positions)
  | named {index position : Nat} {name : String} {arg : Argument} {args : List Argument}
      {positions : List Nat} {param : Parameter} {σ : Ty} (named : arg.name = some name)
      (found : schema.get? name = some (position, param)) (typed : arg.value.HasType oracle Γ σ)
      (accepted : σ ≤ param.type) (named_after : ∀ later ∈ args, later.name ≠ none)
      (rest : Assigned oracle Γ schema (index + 1) args positions) :
    Assigned oracle Γ schema index (arg :: args) (position :: positions)

-- The arguments of an inclusion go with the parameters of its target: no parameter has two, and one
-- that has none has a default.
structure Argument.Match (oracle : Oracle) (Γ : Context) (schema : Schema) (args : List Argument)
    (positions : List Nat) : Prop where
  assigned : Argument.Assigned oracle Γ schema 0 args positions
  unambiguous : positions.Nodup
  complete : ∀ (i : Nat) param, schema.params[i]? = some param → param.default = none →
    i ∈ positions

inductive Node.WellTyped (context : CheckContext) : Context → Node → Prop
  | text {Γ : Context} (content : String) (span : Span) : WellTyped context Γ (.text content span)
  | interpolation {Γ : Context} {raw : Bool} {value : Expr} {span : Span} {τ : Ty}
      (typed : value.HasType context.oracle Γ τ) (renderable : τ.Renderable) :
    WellTyped context Γ (.interpolation raw value span)
  | conditional {Γ : Context} {arms : List Arm} {otherwise : Option (List Node)} {span : Span}
      (tests : ∀ arm ∈ arms, arm.test.HasType context.oracle Γ .bool)
      (bodies : ∀ arm ∈ arms, ∀ node ∈ arm.body, WellTyped context Γ node)
      (otherwise_typed : ∀ node ∈ otherwise.getD [], WellTyped context Γ node) :
    WellTyped context Γ (.conditional arms otherwise span)
  | loop {Γ : Context} {element : Binding} {index : Option Binding} {iterable : Expr}
      {body : List Node} {otherwise : Option (List Node)} {span : Span} {τ : Ty}
      (typed : iterable.HasType context.oracle Γ (.list τ))
      (body_typed : ∀ node ∈ body, WellTyped context (Γ.inLoop element index τ) node)
      (otherwise_typed : ∀ node ∈ otherwise.getD [], WellTyped context Γ node) :
    WellTyped context Γ (.loop element index iterable body otherwise span)
  | inclusion {Γ : Context} {id : Nat} {target : String} {args : List Argument} {span : Span}
      {schema : Schema} {positions : List Nat} (found : context.schemas target = some schema)
      (matched : Argument.Match context.oracle Γ schema args positions) :
    WellTyped context Γ (.inclusion id target args span)

def Template.WellTyped (context : CheckContext) (t : Template) : Prop :=
  ∃ Γ, t.Declares context.oracle Γ ∧ ∀ node ∈ t.body, node.WellTyped context Γ

end Stencil
