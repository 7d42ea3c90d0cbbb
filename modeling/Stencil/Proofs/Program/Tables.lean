import Mathlib.Data.List.Perm.Subperm
import Stencil.Proofs.Meaning.Interpreter
import Stencil.Proofs.Template.Numbers

/-!
The tables that checking a template fills in. Under the number of each name, access, call and loop
variable there is what it was resolved to, and under the number of each inclusion the plan of its
arguments. A number that is given only once has its own place in them.
-/

namespace Stencil

-- What a name, an access or a call was resolved to.
inductive Resolution where
  | slot (index : Nat)
  | field
  | method
  | builtin (builtin : Builtin)
  | contains
deriving DecidableEq

-- What was noted under numbers, the latest last.
abbrev Entries (α : Type) := List (Nat × α)

namespace Resolution

def ofBuiltin : BuiltinMethod → Resolution
  | .plain b _ => .builtin b
  | .contains _ => .contains

-- What an access means, by the type of its object.
def ofAccess? (oracle : Oracle) (name : String) : Ty → Option Resolution
  | .record owner => do
    match ← oracle.member owner name with
    | .field _ => some .field
    | .method _ _ => none
  | _ => none

-- What a call means, by the type of its receiver.
def ofCall? (oracle : Oracle) (name : String) : Ty → Option Resolution
  | .record owner => do
    match ← oracle.member owner name with
    | .field _ => none
    | .method _ _ => some .method
  | type => (BuiltinMethod.find? type name).map ofBuiltin

theorem ofCall?_of_find? {oracle : Oracle} {name : String} {type : Ty} {method : BuiltinMethod}
    (h : BuiltinMethod.find? type name = some method) :
    ofCall? oracle name type = some (ofBuiltin method) := by
  cases type with
  | record owner => simp [BuiltinMethod.find?_record] at h
  | _ => simp [ofCall?, h]

-- The entry under a number, if there is something to note.
def entry (id : Nat) (resolution : Option Resolution) : Entries Resolution :=
  (resolution.map (id, ·)).toList

theorem keys_entry_sublist (id : Nat) (resolution : Option Resolution) :
    ((entry id resolution).map Prod.fst).Sublist [id] := by
  cases resolution with
  | none => exact List.nil_sublist _
  | some r => exact List.Sublist.refl _

end Resolution

open Resolution (entry)

mutual

-- What is noted of an expression: first of its parts, then of itself.
def Expr.entries (oracle : Oracle) (scope : Scope) : Expr → Entries Resolution
  | .literal _ _ => []
  | .name m ident => entry m.id ((scope.find? ident).map fun found => .slot found.1)
  | .list _ items => Expr.entriesOfAll oracle scope items
  | .member m object field =>
    object.entries oracle scope ++
      entry m.id ((object.typeIn oracle scope).bind (Resolution.ofAccess? oracle field))
  | .call m object method args =>
    object.entries oracle scope ++ Expr.entriesOfAll oracle scope args ++
      entry m.id ((object.typeIn oracle scope).bind (Resolution.ofCall? oracle method))
  | .unary _ _ operand => operand.entries oracle scope
  | .binary _ _ lhs rhs => lhs.entries oracle scope ++ rhs.entries oracle scope

def Expr.entriesOfAll (oracle : Oracle) (scope : Scope) : List Expr → Entries Resolution
  | [] => []
  | e :: es => e.entries oracle scope ++ Expr.entriesOfAll oracle scope es

end

-- A loop takes the first slots that the names around it leave free.
def Binding.entries (scope : Scope) (element : Binding) (index : Option Binding) :
    Entries Resolution :=
  (element.mark.id, .slot scope.length) ::
    (index.map fun index => (index.mark.id, .slot (scope.length + 1))).toList

-- The number of names visible inside a loop, of which `depth` are visible outside.
def Binding.depthInside (depth : Nat) (index : Option Binding) : Nat :=
  index.elim (depth + 1) fun _ => depth + 2

-- The type of the items that a loop goes through.
def Expr.itemIn (oracle : Oracle) (scope : Scope) (iterable : Expr) : Option Ty :=
  (iterable.typeIn oracle scope).bind Ty.item?

mutual

def Node.entries (oracle : Oracle) (scope : Scope) : Node → Entries Resolution
  | .text _ _ => []
  | .interpolation _ value _ => value.entries oracle scope
  | .conditional arms none _ => Node.entriesOfArms oracle scope arms
  | .conditional arms (some otherwise) _ =>
    Node.entriesOfArms oracle scope arms ++ Node.entriesOfAll oracle scope otherwise
  | .loop element index iterable body none _ =>
    iterable.entries oracle scope ++ Binding.entries scope element index ++
      Node.entriesOfAll oracle (scope.inLoop element index (iterable.itemIn oracle scope)) body
  | .loop element index iterable body (some otherwise) _ =>
    iterable.entries oracle scope ++ Binding.entries scope element index ++
      Node.entriesOfAll oracle (scope.inLoop element index (iterable.itemIn oracle scope)) body ++
      Node.entriesOfAll oracle scope otherwise
  | .inclusion _ _ args _ => Expr.entriesOfAll oracle scope (args.map Argument.value)

def Node.entriesOfAll (oracle : Oracle) (scope : Scope) : List Node → Entries Resolution
  | [] => []
  | node :: nodes => node.entries oracle scope ++ Node.entriesOfAll oracle scope nodes

def Node.entriesOfArms (oracle : Oracle) (scope : Scope) : List Arm → Entries Resolution
  | [] => []
  | .mk test body :: arms =>
    test.entries oracle scope ++ Node.entriesOfAll oracle scope body ++
      Node.entriesOfArms oracle scope arms

end

-- For each parameter of a target, the position of the argument given for it, if one is.
abbrev ArgumentPlan := List (Option Nat)

-- The position of the argument that is meant for parameter `i`, in the rest of an inclusion.
def Argument.index? (schema : Schema) (i : Nat) : Nat → List Argument → Option Nat
  | _, [] => none
  | index, arg :: args =>
    if arg.position? schema index = some i then some index
    else Argument.index? schema i (index + 1) args

-- The plan for the parameters from position `i` on.
def Argument.planFrom (schema : Schema) (args : List Argument) : Nat → List Parameter → ArgumentPlan
  | _, [] => []
  | i, _ :: params =>
    Argument.index? schema i 0 args :: Argument.planFrom schema args (i + 1) params

def Argument.plan (schema : Schema) (args : List Argument) : ArgumentPlan :=
  Argument.planFrom schema args 0 schema.params

mutual

-- The plans of the inclusions whose targets are known.
def Node.plans (schemas : Schemas) : Node → Entries ArgumentPlan
  | .text _ _ | .interpolation _ _ _ => []
  | .conditional arms none _ => Node.plansOfArms schemas arms
  | .conditional arms (some otherwise) _ =>
    Node.plansOfArms schemas arms ++ Node.plansOfAll schemas otherwise
  | .loop _ _ _ body none _ => Node.plansOfAll schemas body
  | .loop _ _ _ body (some otherwise) _ =>
    Node.plansOfAll schemas body ++ Node.plansOfAll schemas otherwise
  | .inclusion id target args _ =>
    ((schemas target).map fun schema => (id, Argument.plan schema args)).toList

def Node.plansOfAll (schemas : Schemas) : List Node → Entries ArgumentPlan
  | [] => []
  | node :: nodes => node.plans schemas ++ Node.plansOfAll schemas nodes

def Node.plansOfArms (schemas : Schemas) : List Arm → Entries ArgumentPlan
  | [] => []
  | .mk _ body :: arms => Node.plansOfAll schemas body ++ Node.plansOfArms schemas arms

end

mutual

-- How many slots are in use at once, given that `depth` are around and that `n` were before.
def Node.slots (depth n : Nat) : Node → Nat
  | .text _ _ | .interpolation _ _ _ | .inclusion _ _ _ _ => n
  | .conditional arms none _ => Node.slotsOfArms depth n arms
  | .conditional arms (some otherwise) _ =>
    Node.slotsOfAll depth (Node.slotsOfArms depth n arms) otherwise
  | .loop _ index _ body none _ =>
    let inside := Binding.depthInside depth index
    Node.slotsOfAll inside (max n inside) body
  | .loop _ index _ body (some otherwise) _ =>
    let inside := Binding.depthInside depth index
    Node.slotsOfAll depth (Node.slotsOfAll inside (max n inside) body) otherwise

def Node.slotsOfAll (depth n : Nat) : List Node → Nat
  | [] => n
  | node :: nodes => Node.slotsOfAll depth (node.slots depth n) nodes

def Node.slotsOfArms (depth n : Nat) : List Arm → Nat
  | [] => n
  | .mk _ body :: arms => Node.slotsOfArms depth (Node.slotsOfAll depth n body) arms

end

structure Tables where
  schema : Schema
  -- The table of resolutions has a place for each number below this.
  idCount : Nat
  resolutions : Entries Resolution
  plans : Entries ArgumentPlan
  frameSize : Nat

-- What was last noted under a number.
def Entries.last? {α : Type} (entries : Entries α) (id : Nat) : Option α :=
  entries.reverse.lookup id

namespace Tables

def resolution? (tables : Tables) (id : Nat) : Option Resolution :=
  if id < tables.idCount then Entries.last? tables.resolutions id else none

def plan? (tables : Tables) (id : Nat) : Option ArgumentPlan := Entries.last? tables.plans id

end Tables

-- The tables as checking a template leaves them.
def Template.tables (context : CheckContext) (t : Template) : Tables :=
  let (schema, scope) := (t.checkHeader context.oracle).result
  { schema := schema
    idCount := t.idCount
    resolutions := Node.entriesOfAll context.oracle scope t.body
    plans := Node.plansOfAll context.schemas t.body
    frameSize := Node.slotsOfAll scope.length scope.length t.body }

-- Where numbers are different, each is found again.
theorem Entries.last?_of_mem {α : Type} {entries : Entries α} {id : Nat} {a : α}
    (hdistinct : (entries.map Prod.fst).Nodup) (h : (id, a) ∈ entries) :
    Entries.last? entries id = some a := by
  obtain ⟨before, after, rfl⟩ := List.append_of_mem h
  have hafter : ∀ p ∈ after.reverse, (id != p.1) = true := by
    intro p hp
    have hid : id ∉ after.map Prod.fst := by
      rw [List.map_append, List.map_cons, List.nodup_append, List.nodup_cons] at hdistinct
      exact hdistinct.2.1.1
    have hne : id ≠ p.1 := by
      rintro rfl
      exact hid (List.mem_map_of_mem (List.mem_reverse.mp hp))
    simpa using hne
  refine List.lookup_eq_some_iff.mpr ⟨after.reverse, before.reverse, ?_, hafter⟩
  simp

section Keys

variable {oracle : Oracle} {scope : Scope}

mutual

-- An expression is noted under its own number and those of its parts.
theorem Expr.keys_subperm : ∀ e : Expr,
    ((e.entries oracle scope).map Prod.fst).Subperm e.ids
  | .literal _ _ => List.nil_subperm
  | .name m ident => (Resolution.keys_entry_sublist m.id _).subperm
  | .list m items => (Expr.keys_subpermOfAll items).trans (List.sublist_cons_self _ _).subperm
  | .member m object field => by
    have hparts := (Expr.keys_subperm object).append
      (Resolution.keys_entry_sublist m.id ((object.typeIn oracle scope).bind
        (Resolution.ofAccess? oracle field))).subperm
    rw [Expr.entries, List.map_append]
    exact hparts.trans (List.perm_append_singleton m.id object.ids).subperm
  | .call m object method args => by
    have hparts := ((Expr.keys_subperm object).append (Expr.keys_subpermOfAll args)).append
      (Resolution.keys_entry_sublist m.id ((object.typeIn oracle scope).bind
        (Resolution.ofCall? oracle method))).subperm
    have hids : (Expr.call m object method args).ids =
        m.id :: (object.ids ++ Expr.idsOfAll args) := by
      simp [Expr.ids, Expr.parts, Expr.idsOfAll, Expr.id, Expr.mark]
    rw [Expr.entries, List.map_append, List.map_append, hids]
    exact hparts.trans (List.perm_append_singleton m.id _).subperm
  | .unary m op operand => (Expr.keys_subperm operand).trans (List.sublist_cons_self _ _).subperm
  | .binary m op lhs rhs => by
    have hids : (Expr.binary m op lhs rhs).ids = m.id :: (lhs.ids ++ rhs.ids) := by
      simp [Expr.ids, Expr.parts, Expr.id, Expr.mark]
    rw [Expr.entries, List.map_append, hids]
    exact ((Expr.keys_subperm lhs).append (Expr.keys_subperm rhs)).trans
      (List.sublist_cons_self _ _).subperm

theorem Expr.keys_subpermOfAll : ∀ es : List Expr,
    ((Expr.entriesOfAll oracle scope es).map Prod.fst).Subperm (Expr.idsOfAll es)
  | [] => List.nil_subperm
  | e :: es => by
    have hids : Expr.idsOfAll (e :: es) = e.ids ++ Expr.idsOfAll es := by
      simp [Expr.idsOfAll, Expr.partsOfAll, Expr.ids]
    rw [Expr.entriesOfAll, List.map_append, hids]
    exact (Expr.keys_subperm e).append (Expr.keys_subpermOfAll es)

end

theorem Binding.keys_subperm_header (element : Binding) (index : Option Binding)
    (iterable : Expr) :
    ((iterable.entries oracle scope ++ Binding.entries scope element index).map Prod.fst).Subperm
      (Binding.numbers element index ++ iterable.ids) := by
  have hkeys : (Binding.entries scope element index).map Prod.fst =
      Binding.numbers element index := by
    cases index <;> rfl
  rw [List.map_append, hkeys]
  exact ((Expr.keys_subperm iterable).append (List.Subperm.refl _)).trans
    List.perm_append_comm.subperm

mutual

theorem Node.keys_subperm : ∀ (node : Node) {scope : Scope},
    ((node.entries oracle scope).map Prod.fst).Subperm node.numbers
  | .text _ _, _ => List.nil_subperm
  | .interpolation _ value _, _ => Expr.keys_subperm value
  | .conditional arms none _, _ => Node.keys_subpermOfArms arms
  | .conditional arms (some otherwise) _, _ => by
    rw [Node.entries, List.map_append]
    exact (Node.keys_subpermOfArms arms).append (Node.keys_subpermOfAll otherwise)
  | .loop element index iterable body none _, _ => by
    rw [Node.entries, List.map_append]
    exact (Binding.keys_subperm_header element index iterable).append (Node.keys_subpermOfAll body)
  | .loop element index iterable body (some otherwise) _, _ => by
    rw [Node.entries, List.map_append, List.map_append]
    exact ((Binding.keys_subperm_header element index iterable).append
      (Node.keys_subpermOfAll body)).append (Node.keys_subpermOfAll otherwise)
  | .inclusion id _ args _, _ =>
    (Expr.keys_subpermOfAll _).trans (List.sublist_cons_self _ _).subperm

theorem Node.keys_subpermOfAll : ∀ (nodes : List Node) {scope : Scope},
    ((Node.entriesOfAll oracle scope nodes).map Prod.fst).Subperm (Node.numbersOfAll nodes)
  | [], _ => List.nil_subperm
  | node :: nodes, _ => by
    rw [Node.entriesOfAll, List.map_append]
    exact (Node.keys_subperm node).append (Node.keys_subpermOfAll nodes)

theorem Node.keys_subpermOfArms : ∀ (arms : List Arm) {scope : Scope},
    ((Node.entriesOfArms oracle scope arms).map Prod.fst).Subperm (Node.numbersOfArms arms)
  | [], _ => List.nil_subperm
  | .mk test body :: arms, _ => by
    rw [Node.entriesOfArms, List.map_append, List.map_append]
    exact ((Expr.keys_subperm test).append (Node.keys_subpermOfAll body)).append
      (Node.keys_subpermOfArms arms)

end

mutual

theorem Node.keys_plans_sublist (schemas : Schemas) : ∀ node : Node,
    ((node.plans schemas).map Prod.fst).Sublist node.numbers
  | .text _ _ => List.nil_sublist _
  | .interpolation _ _ _ => List.nil_sublist _
  | .conditional arms none _ => Node.keys_plans_sublistOfArms schemas arms
  | .conditional arms (some otherwise) _ => by
    rw [Node.plans, List.map_append]
    exact (Node.keys_plans_sublistOfArms schemas arms).append
      (Node.keys_plans_sublistOfAll schemas otherwise)
  | .loop _ _ _ body none _ =>
    (Node.keys_plans_sublistOfAll schemas body).trans (List.sublist_append_right _ _)
  | .loop _ _ _ body (some otherwise) _ => by
    rw [Node.plans, List.map_append]
    exact ((Node.keys_plans_sublistOfAll schemas body).trans (List.sublist_append_right _ _)).append
      (Node.keys_plans_sublistOfAll schemas otherwise)
  | .inclusion id target args _ => by
    rw [Node.plans]
    cases schemas target with
    | none => exact List.nil_sublist _
    | some schema => exact (List.nil_sublist _).cons_cons id

theorem Node.keys_plans_sublistOfAll (schemas : Schemas) : ∀ nodes : List Node,
    ((Node.plansOfAll schemas nodes).map Prod.fst).Sublist (Node.numbersOfAll nodes)
  | [] => List.nil_sublist _
  | node :: nodes => by
    rw [Node.plansOfAll, List.map_append]
    exact (Node.keys_plans_sublist schemas node).append (Node.keys_plans_sublistOfAll schemas nodes)

theorem Node.keys_plans_sublistOfArms (schemas : Schemas) : ∀ arms : List Arm,
    ((Node.plansOfArms schemas arms).map Prod.fst).Sublist (Node.numbersOfArms arms)
  | [] => List.nil_sublist _
  | .mk _ body :: arms => by
    rw [Node.plansOfArms, List.map_append]
    exact ((Node.keys_plans_sublistOfAll schemas body).trans (List.sublist_append_right _ _)).append
      (Node.keys_plans_sublistOfArms schemas arms)

end

end Keys

namespace Tables

variable {tables : Tables}

-- What was noted under these numbers is found in the table.
def Resolves (tables : Tables) (entries : Entries Resolution) : Prop :=
  ∀ e ∈ entries, tables.resolution? e.1 = some e.2

def HasPlans (tables : Tables) (plans : Entries ArgumentPlan) : Prop :=
  ∀ p ∈ plans, tables.plan? p.1 = some p.2

theorem resolves_append {entries entries' : Entries Resolution} :
    tables.Resolves (entries ++ entries') ↔ tables.Resolves entries ∧ tables.Resolves entries' :=
  List.forall_mem_append

theorem hasPlans_append {plans plans' : Entries ArgumentPlan} :
    tables.HasPlans (plans ++ plans') ↔ tables.HasPlans plans ∧ tables.HasPlans plans' :=
  List.forall_mem_append

theorem resolves_entry {id : Nat} {r : Resolution} :
    tables.Resolves (entry id (some r)) ↔ tables.resolution? id = some r := by
  simp [Resolves, entry]

end Tables

namespace Template

variable {t : Template}

-- Where the numbers of a template are different, its tables know all that was noted.
theorem resolves_tables (h : Issued t.idCount t.numbers) (context : CheckContext) :
    (t.tables context).Resolves (t.tables context).resolutions := by
  have hkeys : ((t.tables context).resolutions.map Prod.fst).Subperm t.numbers :=
    Node.keys_subpermOfAll t.body
  obtain ⟨keys, hperm, hsub⟩ := hkeys
  have hdistinct := hperm.nodup_iff.mp (h.nodup.sublist hsub)
  intro e he
  have hkey : e.1 ∈ t.numbers := hsub.subset (hperm.mem_iff.mpr (List.mem_map_of_mem he))
  exact (if_pos (h.lt e.1 hkey)).trans (Entries.last?_of_mem hdistinct he)

theorem hasPlans_tables (h : Issued t.idCount t.numbers) (context : CheckContext) :
    (t.tables context).HasPlans (t.tables context).plans := by
  have hdistinct := h.nodup.sublist (Node.keys_plans_sublistOfAll context.schemas t.body)
  exact fun p hp => Entries.last?_of_mem hdistinct hp

end Template

end Stencil
