import Stencil.Template.Basic
import Stencil.Typing.Expr

/-!
Checking templates: the header, then the body. The arguments of an inclusion are matched with the
parameters of its target.
-/

namespace Stencil

open Check

-- For each parameter, the argument given for it, if one is. An argument with a mistake in it has no
-- term but still counts as given.
abbrev Plan := List (Option (Option Term))

-- Gives an argument to the parameter at position `index`.
def Plan.give (plan : Plan) (index : Nat) (param : Parameter) (span : Span) (arg : Option Term) :
    Check Plan :=
  match plan[index]? with
  | some (some _) => do
    complain (.duplicateArgument param.name) span
    return plan
  | _ => do
    if let some t := arg then
      if !param.type.accepts t.type then
        complain (.argumentType param.name param.type t.type) span
    return plan.set index (some arg)

-- Gives each argument to its parameter. `index` counts the arguments before these, and `named` says
-- that one of them was named. Arguments after one too many are not looked at.
def Plan.giveEach (target : String) (schema : Schema) (count : Nat) :
    Nat → Bool → Plan → List (Argument × Option Term) → Check Plan
  | _, _, plan, [] => pure plan
  | index, named, plan, (arg, term) :: rest =>
    match arg.name with
    | none =>
      if named then do
        complain .positionalAfterNamed arg.value.span
        Plan.giveEach target schema count (index + 1) named plan rest
      else
        match schema.params[index]? with
        | none => do
          complain (.tooManyArguments target schema.size count) arg.value.span
          return plan
        | some param => do
          let plan ← plan.give index param arg.value.span term
          Plan.giveEach target schema count (index + 1) named plan rest
    | some name =>
      match schema.get? name with
      | none => do
        complain (.unknownArgument target name) arg.value.span
        Plan.giveEach target schema count (index + 1) true plan rest
      | some (position, param) => do
        let plan ← plan.give position param arg.value.span term
        Plan.giveEach target schema count (index + 1) true plan rest

-- Complains of each parameter that has neither an argument nor a default.
def Plan.requireAll (target : String) (span : Span) : List Parameter → Plan → Check Unit
  | param :: params, given :: plan => do
    if given.isNone && param.default.isNone then
      complain (.missingArgument target param.name) span
    Plan.requireAll target span params plan
  | _, _ => pure ()

-- The arguments in the order of the parameters.
def checkInclusion (target : String) (schema : Schema) (span : Span)
    (args : List (Argument × Option Term)) : Check (Option (List (Option Term))) := do
  let plan ← Plan.giveEach target schema args.length 0 false (List.replicate schema.size none) args
  Plan.requireAll target span schema.params plan
  return plan.mapM fun
    | none => some none
    | some arg => arg.map some

-- The schema of the template of a name, if it can be included.
abbrev Schemas := String → Option Schema

structure CheckContext where
  oracle : Oracle
  schemas : Schemas

-- The type that a written type stands for.
def TypeExpr.check (oracle : Oracle) (span : Span) : TypeExpr → Check (Option Ty)
  | .list element => do return (← element.check oracle span).map .list
  | .named name =>
    match Ty.primitive? name with
    | some type => pure (some type)
    | none =>
      if oracle.hasType name then pure (some (.record name)) else reject (.unknownType name) span

-- A default has to be a constant whose type the parameter accepts.
def Expr.checkDefault (e : Expr) (name : String) (type : Ty) : Check (Option Constant) :=
  match e.constant?.filter fun c => c.type?.any type.accepts with
  | some c => pure (some c)
  | none => reject (.invalidDefault name type) e.span

-- Adds a declaration to the schema and the scope. One whose type is unknown still owns its name.
def ParamDecl.check (oracle : Oracle) (schema : Schema) (scope : Scope) (decl : ParamDecl) :
    Check (Schema × Scope) :=
  if scope.any (·.name == decl.name) then do
    complain (.duplicateParameter decl.name) decl.span
    return (schema, scope)
  else do
    match ← decl.type.check oracle decl.span with
    | none => return (schema, ⟨decl.name, none⟩ :: scope)
    | some type =>
      let default ← match decl.default with
        | none => pure none
        | some e => e.checkDefault decl.name type
      return (schema.insert ⟨decl.name, type, default⟩, ⟨decl.name, some type⟩ :: scope)

def ParamDecl.checkAll (oracle : Oracle) :
    Schema → Scope → List ParamDecl → Check (Schema × Scope)
  | schema, scope, [] => pure (schema, scope)
  | schema, scope, decl :: decls => do
    let (schema, scope) ← decl.check oracle schema scope
    ParamDecl.checkAll oracle schema scope decls

def Template.checkHeader (oracle : Oracle) (t : Template) : Check (Schema × Scope) :=
  ParamDecl.checkAll oracle .empty [] t.params

def Expr.checkCondition (oracle : Oracle) (scope : Scope) (e : Expr) : Check (Option Term) := do
  match ← e.check oracle scope with
  | none => return none
  | some t => if t.type = .bool then return some t else reject (.nonBooleanCondition t.type) e.span

def Expr.checkShown (oracle : Oracle) (scope : Scope) (e : Expr) : Check (Option Term) := do
  match ← e.check oracle scope with
  | none => return none
  | some t => if t.type.isRenderable then return some t else reject (.notRenderable t.type) e.span

-- The list that a loop goes through, with the type of its elements.
def Expr.checkIterable (oracle : Oracle) (scope : Scope) (e : Expr) :
    Check (Option (Term × Ty)) := do
  match ← e.check oracle scope with
  | none => return none
  | some t =>
    match t.type with
    | .list element => return some (t, element)
    | type => reject (.notIterable type) e.span

def Argument.checkAll (oracle : Oracle) (scope : Scope) :
    List Argument → Check (List (Argument × Option Term))
  | [] => pure []
  | arg :: args => do
    let term ← arg.value.check oracle scope
    let rest ← Argument.checkAll oracle scope args
    return (arg, term) :: rest

-- The names inside a loop: its element, and inside that its index.
def Scope.inLoop (scope : Scope) (element : Binding) (index : Option Binding)
    (type : Option Ty) : Scope :=
  let scope := ⟨element.name, type⟩ :: scope
  index.elim scope fun index => ⟨index.name, some .int⟩ :: scope

mutual

def Node.check (context : CheckContext) (scope : Scope) : Node → Check (Option Statement)
  | .text content _ => pure (some (.text content))
  | .interpolation raw value _ => do
    return (← value.checkShown context.oracle scope).map (.interpolation raw)
  | .conditional arms otherwise _ => do
    let arms ← Arm.checkAll context scope arms
    match otherwise with
    | none => return arms.map (.conditional · [])
    | some nodes =>
      let otherwise ← Node.checkAll context scope nodes
      return do return .conditional (← arms) (← otherwise)
  | .loop element index iterable body otherwise _ => do
    let iterable ← iterable.checkIterable context.oracle scope
    let body ← Node.checkAll context (scope.inLoop element index (iterable.map (·.2))) body
    let slot := scope.length
    let index := index.map fun _ => slot + 1
    match otherwise with
    | none => return do return .loop (← iterable).1 slot index (← body) []
    | some nodes =>
      let otherwise ← Node.checkAll context scope nodes
      return do return .loop (← iterable).1 slot index (← body) (← otherwise)
  | .inclusion _ target args span => do
    let args ← Argument.checkAll context.oracle scope args
    match context.schemas target with
    | none => reject (.unknownTemplate target) span
    | some schema => return (← checkInclusion target schema span args).map (.inclusion target)

def Node.checkAll (context : CheckContext) (scope : Scope) :
    List Node → Check (Option (List Statement))
  | [] => pure (some [])
  | node :: nodes => do
    let first ← node.check context scope
    let rest ← Node.checkAll context scope nodes
    return do return (← first) :: (← rest)

def Arm.checkAll (context : CheckContext) (scope : Scope) :
    List Arm → Check (Option (List Branch))
  | [] => pure (some [])
  | .mk test body :: arms => do
    let test ← test.checkCondition context.oracle scope
    let body ← Node.checkAll context scope body
    let rest ← Arm.checkAll context scope arms
    return do return .mk (← test) (← body) :: (← rest)

end

def Template.check (context : CheckContext) (t : Template) : Check (Option CheckedTemplate) := do
  let (schema, scope) ← t.checkHeader context.oracle
  let body ← Node.checkAll context scope t.body
  return body.map (⟨schema, ·⟩)

def Complaint.located (source : String) (complaints : List Complaint) : List TypeError :=
  complaints.map fun c => ⟨c.problem, Location.locate source c.span.start⟩

-- Checks a template. What it was read from gives the locations of errors.
def Template.bind (context : CheckContext) (source : String) (t : Template) :
    Except (List TypeError) CheckedTemplate :=
  match t.check context with
  | ⟨[], some checked⟩ => .ok checked
  | ⟨complaints, _⟩ => .error (Complaint.located source complaints)

-- The parameters alone; the body is not looked at.
def Template.schema (oracle : Oracle) (source : String) (t : Template) :
    Except (List TypeError) Schema :=
  match t.checkHeader oracle with
  | ⟨[], (schema, _)⟩ => .ok schema
  | ⟨complaints, _⟩ => .error (Complaint.located source complaints)

end Stencil
