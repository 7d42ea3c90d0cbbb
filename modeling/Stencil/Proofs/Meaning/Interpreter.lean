import Stencil.Proofs.Typing.Header
import Stencil.Registry.Basic

/-!
The meaning of templates. An interpreter walks a template as it is written and looks names up in an
environment. It makes the requests and emits the pieces that a render does, and it keeps a log of
what it does to values.
-/

namespace Stencil

variable {ρ ω : Type} {α : Type}

def Member.fieldType? : Member → Option Ty
  | field type => some type
  | method _ _ => none

def Member.returnType? : Member → Option Ty
  | field _ => none
  | method _ returns => some returns

def BuiltinMethod.returnType : BuiltinMethod → Ty
  | plain _ returns => returns
  | contains _ => .bool

def Ty.item? : Ty → Option Ty
  | list element => some element
  | _ => none

mutual

-- The type of an expression, where it has one.
def Expr.typeIn (oracle : Oracle) (scope : Scope) : Expr → Option Ty
  | .literal _ value => some value.type
  | .name _ ident => (scope.find? ident).bind (·.2)
  | .list _ items => do return .list (← Ty.join (← Expr.typesIn oracle scope items))
  | .member _ object field => do
    match ← object.typeIn oracle scope with
    | .record owner => (← oracle.member owner field).fieldType?
    | _ => none
  | .call _ object method _ => do
    match ← object.typeIn oracle scope with
    | .record owner => (← oracle.member owner method).returnType?
    | type => return (← BuiltinMethod.find? type method).returnType
  | .unary _ op operand => do op.type? (← operand.typeIn oracle scope)
  | .binary _ op lhs rhs => do op.type? (← lhs.typeIn oracle scope) (← rhs.typeIn oracle scope)

def Expr.typesIn (oracle : Oracle) (scope : Scope) : List Expr → Option (List Ty)
  | [] => some []
  | e :: es => do return (← e.typeIn oracle scope) :: (← Expr.typesIn oracle scope es)

end

-- Only texts and lists have builtin methods.
theorem BuiltinMethod.find?_record (owner name : String) :
    BuiltinMethod.find? (.record owner) name = none := rfl

namespace Expr

variable {oracle : Oracle} {scope : Scope}

-- The type of a call of a builtin method.
theorem typeIn_call_of_builtin {m : Mark} {object : Expr} {type : Ty} {name : String}
    {args : List Expr} {method : BuiltinMethod} (hobject : object.typeIn oracle scope = some type)
    (hfound : BuiltinMethod.find? type name = some method) :
    (Expr.call m object name args).typeIn oracle scope = some method.returnType := by
  cases type with
  | record owner => simp [BuiltinMethod.find?_record] at hfound
  | _ => simp [typeIn, hobject, hfound]

mutual

-- It is the type that checking finds.
theorem typeIn_of_elaborates : ∀ {e : Expr} {t : Term}, e.Elaborates oracle scope t →
    e.typeIn oracle scope = some t.type
  | _, _, .literal _ _ => rfl
  | _, _, .name found => by
      simp only [typeIn, found]
      rfl
  | _, _, .list items joined => by
      simp only [typeIn, typesIn_of_elaborateAll items, Option.bind_eq_bind, Option.bind_some,
        joined]
      rfl
  | _, _, .field object typed found => by
      simp only [typeIn, typeIn_of_elaborates object, Option.bind_eq_bind, Option.bind_some, typed,
        found]
      rfl
  | _, _, .method object typed found _ _ => by
      simp only [typeIn, typeIn_of_elaborates object, Option.bind_eq_bind, Option.bind_some, typed,
        found]
      rfl
  | _, _, .builtin object found =>
      typeIn_call_of_builtin (typeIn_of_elaborates object) found
  | _, _, .contains object found _ _ =>
      typeIn_call_of_builtin (typeIn_of_elaborates object) found
  | _, _, .unary operand typed => by
      simp only [typeIn, typeIn_of_elaborates operand, Option.bind_eq_bind, Option.bind_some, typed]
      rfl
  | _, _, .binary lhs rhs typed => by
      simp only [typeIn, typeIn_of_elaborates lhs, typeIn_of_elaborates rhs, Option.bind_eq_bind,
        Option.bind_some, typed]
      rfl

theorem typesIn_of_elaborateAll : ∀ {es : List Expr} {ts : List Term},
    ElaborateAll oracle scope es ts → typesIn oracle scope es = some (ts.map Term.type)
  | _, _, .nil => rfl
  | _, _, .cons first rest => by
      simp [typesIn, typeIn_of_elaborates first, typesIn_of_elaborateAll rest]

end

end Expr

-- A visible name with its value.
structure Variable (ρ : Type) extends Local where
  value : Value ρ

-- The visible variables, innermost first.
abbrev Environment (ρ : Type) := List (Variable ρ)

namespace Environment

def scope (env : Environment ρ) : Scope := env.map Variable.toLocal

def get? (env : Environment ρ) (name : String) : Option (Variable ρ) := env.find? (·.name = name)

-- The environment inside a loop, for its `i`-th item.
def inLoop (env : Environment ρ) (element : Binding) (index : Option Binding) (type : Option Ty)
    (item : Value ρ) (i : Nat) : Environment ρ :=
  let env := ⟨⟨element.name, type⟩, item⟩ :: env
  index.elim env fun index => ⟨⟨index.name, some .int⟩, .int (.ofNat i)⟩ :: env

theorem scope_inLoop (env : Environment ρ) (element : Binding) (index : Option Binding)
    (type : Option Ty) (item : Value ρ) (i : Nat) :
    (env.inLoop element index type item i).scope = env.scope.inLoop element index type := by
  cases index <;> simp [inLoop, scope, Scope.inLoop]

end Environment

-- What is done to values that are there.
inductive Task where
  | access (name : String)
  | call (name : String)
  | builtin (builtin : Builtin)
  | contains
  -- the truth of a condition, or of an operand of the operator of that name
  | truth (name : String)
  | order (op : OrderOp)
  -- with the type that the expression was given
  | negation (type : Option Ty)
  | arithmetic (op : ArithmeticOp) (type : Option Ty)
  | iteration
  | display

-- A task that was done: the operands, receivers, conditions or iterables that it was done to, and
-- what came of it.
structure Operation (ρ : Type) where
  task : Task
  operands : List (Value ρ)
  result : Except RenderError (Value ρ)

-- `operations` has the latest first.
structure Ledger (ρ ω : Type) where
  links : ω
  operations : List (Operation ρ)

abbrev Interp (ρ ω : Type) := Run ρ (Ledger ρ ω)

namespace Interp

def log (op : Operation ρ) : Interp ρ ω Unit :=
  modify fun e => { e with links := { e.links with operations := op :: e.links.operations } }

-- Does a task, and logs it whether it fails or not. `asValue` is the form in which results are
-- logged.
def perform (task : Task) (operands : List (Value ρ)) (asValue : α → Value ρ) (x : Eval ρ α) :
    Interp ρ ω α := do
  let result ← Run.ofEval (ExceptT.lift x.run)
  log ⟨task, operands, result.map asValue⟩
  Run.given result

def compute (task : Task) (operands : List (Value ρ)) (x : Eval ρ (Value ρ)) :
    Interp ρ ω (Value ρ) :=
  perform task operands id x

def truth (name : String) (v : Value ρ) : Interp ρ ω Bool :=
  perform (.truth name) [v] .bool (Eval.given (v.truth name))

end Interp

-- The field of a record.
def Model.access (model : Model ρ) (name : String) (object : Value ρ) : Eval ρ (Value ρ) := do
  let ref ← object.receiver name
  match ← model.askField ref name with
  | some v => return v
  | none => throw (.missingField name)

-- What the method of a record gives.
def Model.invoke (model : Model ρ) (name : String) (object : Value ρ) (args : List (Value ρ)) :
    Eval ρ (Value ρ) := do
  model.askCall (← object.receiver name) name args

def Value.items : Value ρ → Except RenderError (List (Value ρ))
  | .list items => .ok items
  | v => .error (.notIterable v.kind)

variable [DecidableEq ρ]

mutual

-- The value of an expression. Which method a call means is a matter of the type of its receiver.
def Expr.interpret (oracle : Oracle) (model : Model ρ) (env : Environment ρ) :
    Expr → Interp ρ ω (Value ρ)
  | .literal _ value => return value.value
  | .name _ ident =>
    match env.get? ident with
    | some x => return x.value
    | none => throw (.missingParameter ident)
  | .list _ items => return .list (← Expr.interpretAll oracle model env items)
  | .member _ object field => do
    let o ← object.interpret oracle model env
    Interp.compute (.access field) [o] (model.access field o)
  | .call _ object method args => do
    let o ← object.interpret oracle model env
    let args ← Expr.interpretAll oracle model env args
    match object.typeIn oracle env.scope with
    | none => throw (.unknownMethod method)
    | some (.record _) => Interp.compute (.call method) [o] (model.invoke method o args)
    | some type =>
      match BuiltinMethod.find? type method, args with
      | some (.plain b _), [] => Interp.compute (.builtin b) [o] (Eval.given (b.apply o))
      | some (.contains _), [needle] =>
        Interp.compute .contains [o] (Eval.given (o.contains needle))
      | _, _ => throw (.unknownMethod method)
  | .unary _ .not operand => do
    let v ← operand.interpret oracle model env
    return .bool (!(← Interp.truth "!" v))
  | .unary m .negate operand => do
    let v ← operand.interpret oracle model env
    let type := (Expr.unary m .negate operand).typeIn oracle env.scope
    Interp.compute (.negation type) [v] (Eval.given v.negate)
  | .binary _ .and lhs rhs => do
    if ← Interp.truth "&&" (← lhs.interpret oracle model env) then
      return .bool (← Interp.truth "&&" (← rhs.interpret oracle model env))
    else return .bool false
  | .binary _ .or lhs rhs => do
    if ← Interp.truth "||" (← lhs.interpret oracle model env) then return .bool true
    else return .bool (← Interp.truth "||" (← rhs.interpret oracle model env))
  | .binary _ (.equality op) lhs rhs => do
    let a ← lhs.interpret oracle model env
    let b ← rhs.interpret oracle model env
    return op.apply a b
  | .binary _ (.order op) lhs rhs => do
    let a ← lhs.interpret oracle model env
    let b ← rhs.interpret oracle model env
    Interp.compute (.order op) [a, b] (Eval.given (op.apply a b))
  | .binary m (.arithmetic op) lhs rhs => do
    let a ← lhs.interpret oracle model env
    let b ← rhs.interpret oracle model env
    let type := (Expr.binary m (.arithmetic op) lhs rhs).typeIn oracle env.scope
    Interp.compute (.arithmetic op type) [a, b] (Eval.given (op.apply a b))

def Expr.interpretAll (oracle : Oracle) (model : Model ρ) (env : Environment ρ) :
    List Expr → Interp ρ ω (List (Value ρ))
  | [] => return []
  | e :: es => do
    let v ← e.interpret oracle model env
    let vs ← Expr.interpretAll oracle model env es
    return v :: vs

end

-- The arguments of an inclusion, in the order of the parameters from position `i` on.
def Argument.interpretFrom (oracle : Oracle) (model : Model ρ) (env : Environment ρ)
    (schema : Schema) (args : List Argument) :
    Nat → List Parameter → Interp ρ ω (List (Option (Value ρ)))
  | _, [] => return []
  | i, _ :: params => do
    let given ← match Argument.for? schema i 0 args with
      | none => pure none
      | some arg => some <$> arg.value.interpret oracle model env
    return given :: (← interpretFrom oracle model env schema args (i + 1) params)

-- What an interpreter works with: what templates were checked against, the mode it writes in, the
-- model, and what inclusions do.
structure Interpreter (ρ ω : Type) where
  context : CheckContext
  mode : Mode
  model : Model ρ
  opener : Opener ρ (Ledger ρ ω)

-- Inclusions are numbered in the order in which they stand in the template; `site` come before.
mutual

def Node.interpret (interp : Interpreter ρ ω) (env : Environment ρ) (site : Nat) :
    Node → Interp ρ ω Unit
  | .text content _ => Run.emit (.literal (.ofString interp.mode content))
  | .interpolation raw value _ => do
    let v ← value.interpret interp.context.oracle interp.model env
    let s ← Interp.perform .display [v] .text (Eval.given v.shown)
    Run.emit (if raw then .raw s else .escaped s)
  | .conditional arms none _ => do
    let _ ← Arm.interpretFirst interp env site arms
  | .conditional arms (some nodes) _ => do
    if !(← Arm.interpretFirst interp env site arms) then
      Node.interpretAll interp env (site + (Node.targetsOfArms arms).length) nodes
  | .loop element index iterable body none _ => do
    let v ← iterable.interpret interp.context.oracle interp.model env
    let items ← Interp.perform .iteration [v] .list (Eval.given v.items)
    let type := (iterable.typeIn interp.context.oracle env.scope).bind Ty.item?
    Run.forEach (fun _ i item =>
      Node.interpretAll interp (env.inLoop element index type item i) site body) () 0 items
  | .loop element index iterable body (some nodes) _ => do
    let v ← iterable.interpret interp.context.oracle interp.model env
    let items ← Interp.perform .iteration [v] .list (Eval.given v.items)
    let type := (iterable.typeIn interp.context.oracle env.scope).bind Ty.item?
    if items.isEmpty then
      Node.interpretAll interp env (site + (Node.targetsOfAll body).length) nodes
    else
      Run.forEach (fun _ i item =>
        Node.interpretAll interp (env.inLoop element index type item i) site body) () 0 items
  | .inclusion _ target args _ =>
    let schema := (interp.context.schemas target).getD .empty
    Run.inclusion interp.opener site target
      (Argument.interpretFrom interp.context.oracle interp.model env schema args 0 schema.params)

def Node.interpretAll (interp : Interpreter ρ ω) (env : Environment ρ) (site : Nat) :
    List Node → Interp ρ ω Unit
  | [] => return
  | node :: nodes => do
    node.interpret interp env site
    Node.interpretAll interp env (site + node.targets.length) nodes

-- Tells whether an arm was taken.
def Arm.interpretFirst (interp : Interpreter ρ ω) (env : Environment ρ) (site : Nat) :
    List Arm → Interp ρ ω Bool
  | [] => return false
  | .mk test body :: arms => do
    let v ← test.interpret interp.context.oracle interp.model env
    if ← Interp.truth "condition" v then
      Node.interpretAll interp env site body
      return true
    else Arm.interpretFirst interp env (site + (Node.targetsOfAll body).length) arms

end

omit [DecidableEq ρ] in
-- The parameters of a template with their values; the last is innermost.
def Schema.environment (schema : Schema) (values : List (Value ρ)) : Environment ρ :=
  (List.zipWith (fun p v => ⟨p.variable, v⟩) schema.params values).reverse

-- Interprets a template with the values of its parameters.
def Template.interpret (interp : Interpreter ρ ω) (schema : Schema) (t : Template)
    (values : List (Value ρ)) : Interp ρ ω Unit :=
  Node.interpretAll interp (schema.environment values) 0 t.body

-- Interprets a template with parameters from the root record of the model.
def Template.interpretRoot (interp : Interpreter ρ ω) (schema : Schema) (t : Template) (root : ρ) :
    Interp ρ ω Unit := do
  let values ← Run.ofEval (readParams interp.model root schema.params)
  t.interpret interp schema values

end Stencil
