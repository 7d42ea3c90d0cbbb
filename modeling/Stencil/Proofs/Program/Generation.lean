import Stencil.Proofs.Program.Tables
import Stencil.Proofs.Program.Inclusions

/-!
Generation that looks names up in the tables. It complains of a number for which nothing was noted;
after a template passed its check, this does not happen, and the program is the one of the checked
template.
-/

namespace Stencil

inductive GenerateError where
  | unresolved (id : Nat)
  | missingPlan (id : Nat)
  -- An inclusion or a call asks for an argument that is not there.
  | missingArgument (id index : Nat)
deriving DecidableEq

-- The slot under the number of a name or a loop variable.
def Tables.slot (tables : Tables) (id : Nat) : Except GenerateError Nat :=
  match tables.resolution? id with
  | some (.slot index) => .ok index
  | _ => .error (.unresolved id)

mutual

def Expr.generate (tables : Tables) : Expr → Except GenerateError Formula
  | .literal _ value => return .constant (.literal value)
  | .name m _ => return .slot (← tables.slot m.id)
  | .list _ items => do
    let items ← Expr.generateAll tables items
    match Formula.constants? items with
    | some cs => return .constant (.list cs)
    | none => return .list items
  | .member m object field =>
    match tables.resolution? m.id with
    | some .field => return .field (← object.generate tables) field
    | _ => .error (.unresolved m.id)
  | .call m object method args =>
    match tables.resolution? m.id with
    | some .method => do
      let object ← object.generate tables
      let args ← Expr.generateAll tables args
      return .method object method args
    | some (.builtin b) => do
      let object ← object.generate tables
      let _ ← Expr.generateAll tables args
      return .builtin object b
    | some .contains => do
      let object ← object.generate tables
      match ← Expr.generateAll tables args with
      | needle :: _ => return .contains object needle
      | [] => .error (.missingArgument m.id 0)
    | _ => .error (.unresolved m.id)
  | .unary _ op operand => do
    let operand ← operand.generate tables
    match op with
    | .not => return .not operand
    | .negate => return .negate operand
  | .binary _ op lhs rhs => do
    let lhs ← lhs.generate tables
    let rhs ← rhs.generate tables
    match op with
    | .and => return .and lhs rhs
    | .or => return .or lhs rhs
    | .equality op => return .equality op lhs rhs
    | .order op => return .order op lhs rhs
    | .arithmetic op => return .arithmetic op lhs rhs

def Expr.generateAll (tables : Tables) : List Expr → Except GenerateError (List Formula)
  | [] => return []
  | e :: es => do
    let code ← e.generate tables
    let rest ← Expr.generateAll tables es
    return code :: rest

end

-- The arguments of an inclusion of the given number, as its plan says.
def Argument.generateAll (tables : Tables) (id : Nat) (args : List Argument) :
    ArgumentPlan → Except GenerateError (List (Option Formula))
  | [] => return []
  | none :: plan => return none :: (← Argument.generateAll tables id args plan)
  | some i :: plan =>
    match args[i]? with
    | none => .error (.missingArgument id i)
    | some arg => do
      let code ← arg.value.generate tables
      return some code :: (← Argument.generateAll tables id args plan)

-- Sites are handed out as for checked templates.
mutual

def Node.generate (tables : Tables) (mode : Mode) (site : Nat) :
    Node → Except GenerateError (Op × Nat)
  | .text content _ => return (.literal (.ofString mode content), site)
  | .interpolation raw value _ => do
    let code ← value.generate tables
    return (if raw then .raw code else .escaped code, site)
  | .conditional arms none _ => do
    let (arms, site) ← Node.generateArms tables mode site arms
    return (.branch arms [], site)
  | .conditional arms (some otherwise) _ => do
    let (arms, site) ← Node.generateArms tables mode site arms
    let (otherwise, site) ← Node.generateAll tables mode site "" otherwise
    return (.branch arms otherwise, site)
  | .loop element index iterable body none _ => do
    let iterable ← iterable.generate tables
    let element ← tables.slot element.mark.id
    let index ← index.mapM fun index => tables.slot index.mark.id
    let (body, site) ← Node.generateAll tables mode site "" body
    return (.loop iterable element index body [], site)
  | .loop element index iterable body (some otherwise) _ => do
    let iterable ← iterable.generate tables
    let element ← tables.slot element.mark.id
    let index ← index.mapM fun index => tables.slot index.mark.id
    let (body, site) ← Node.generateAll tables mode site "" body
    let (otherwise, site) ← Node.generateAll tables mode site "" otherwise
    return (.loop iterable element index body otherwise, site)
  | .inclusion id target args _ =>
    match tables.plan? id with
    | none => .error (.missingPlan id)
    | some plan => do
      let args ← Argument.generateAll tables id args plan
      return (.inclusion site target args, site + 1)

-- The operations of a body, after fixed text that is still to be written.
def Node.generateAll (tables : Tables) (mode : Mode) (site : Nat) (pending : String) :
    List Node → Except GenerateError (List Op × Nat)
  | [] => return (textOps mode pending, site)
  | .text content _ :: nodes => Node.generateAll tables mode site (pending ++ content) nodes
  | node :: nodes => do
    let (op, site) ← node.generate tables mode site
    let (rest, site) ← Node.generateAll tables mode site "" nodes
    return (textOps mode pending ++ op :: rest, site)

def Node.generateArms (tables : Tables) (mode : Mode) (site : Nat) :
    List Arm → Except GenerateError (List OpArm × Nat)
  | [] => return ([], site)
  | .mk test body :: arms => do
    let test ← test.generate tables
    let (body, site) ← Node.generateAll tables mode site "" body
    let (rest, site) ← Node.generateArms tables mode site arms
    return (.mk test body :: rest, site)

end

def Template.generate (tables : Tables) (t : Template) (name : String) (mode : Mode) :
    Except GenerateError Program := do
  let (body, _) ← Node.generateAll tables mode 0 "" t.body
  return ⟨name, mode, tables.schema, tables.frameSize, body⟩

open Tables (resolves_append resolves_entry hasPlans_append)

variable {tables : Tables}

theorem Tables.slot_of_resolution? {id index : Nat}
    (h : tables.resolution? id = some (.slot index)) : tables.slot id = .ok index := by
  rw [slot, h]

section Expressions

variable {oracle : Oracle} {scope : Scope}

mutual

-- An expression that stands for a term becomes the code of the term, if the table knows its names.
theorem Expr.generate_of_elaborates : ∀ {e : Expr} {t : Term}, e.Elaborates oracle scope t →
    tables.Resolves (e.entries oracle scope) → e.generate tables = .ok t.formula
  | _, _, .literal _ _, _ => rfl
  | _, _, @Expr.Elaborates.name _ _ m ident slot type found, h => by
    rw [Expr.entries, found] at h
    rw [Expr.generate, Tables.slot_of_resolution? (resolves_entry.mp h)]
    rfl
  | _, _, @Expr.Elaborates.list _ _ m items ts element items_elaborate _, h => by
    rw [Expr.generate, Expr.generateAll_of_elaborateAll items_elaborate h, Term.formula]
    cases hconstants : Formula.constants? (Term.formulas ts) with
    | none => simp [bind, Except.bind, pure, Except.pure, hconstants]
    | some cs => simp [bind, Except.bind, pure, Except.pure, hconstants]
  | _, _, .field object typed found, h => by
    rw [Expr.entries, Expr.typeIn_of_elaborates object, typed] at h
    obtain ⟨hobject, hfield⟩ := resolves_append.mp h
    simp only [Option.bind_some, Resolution.ofAccess?, found] at hfield
    rw [Expr.generate, resolves_entry.mp hfield, Expr.generate_of_elaborates object hobject]
    rfl
  | _, _, .method object typed found args _, h => by
    rw [Expr.entries, Expr.typeIn_of_elaborates object, typed] at h
    obtain ⟨hparts, hmethod⟩ := resolves_append.mp h
    obtain ⟨hobject, hargs⟩ := resolves_append.mp hparts
    simp only [Option.bind_some, Resolution.ofCall?, found] at hmethod
    rw [Expr.generate, resolves_entry.mp hmethod, Expr.generate_of_elaborates object hobject,
      Expr.generateAll_of_elaborateAll args hargs]
    rfl
  | _, _, .builtin object found, h => by
    rw [Expr.entries, Expr.typeIn_of_elaborates object, Option.bind_some,
      Resolution.ofCall?_of_find? found] at h
    obtain ⟨hparts, hbuiltin⟩ := resolves_append.mp h
    obtain ⟨hobject, -⟩ := resolves_append.mp hparts
    rw [Expr.generate, resolves_entry.mp hbuiltin, Resolution.ofBuiltin,
      Expr.generate_of_elaborates object hobject]
    rfl
  | _, _, .contains object found needle _, h => by
    rw [Expr.entries, Expr.typeIn_of_elaborates object, Option.bind_some,
      Resolution.ofCall?_of_find? found] at h
    obtain ⟨hparts, hcontains⟩ := resolves_append.mp h
    obtain ⟨hobject, hneedle⟩ := resolves_append.mp hparts
    rw [Expr.generate, resolves_entry.mp hcontains, Resolution.ofBuiltin,
      Expr.generate_of_elaborates object hobject,
      Expr.generateAll_of_elaborateAll (.cons needle .nil) hneedle]
    rfl
  | _, _, @Expr.Elaborates.unary _ _ m op operand t type operand_elaborates _, h => by
    rw [Expr.generate, Expr.generate_of_elaborates operand_elaborates h]
    cases op <;> rfl
  | _, _, @Expr.Elaborates.binary _ _ m op lhs rhs a b type lhs_elaborates rhs_elaborates _, h => by
    obtain ⟨hlhs, hrhs⟩ := resolves_append.mp h
    rw [Expr.generate, Expr.generate_of_elaborates lhs_elaborates hlhs,
      Expr.generate_of_elaborates rhs_elaborates hrhs]
    cases op <;> rfl

theorem Expr.generateAll_of_elaborateAll : ∀ {es : List Expr} {ts : List Term},
    Expr.ElaborateAll oracle scope es ts → tables.Resolves (Expr.entriesOfAll oracle scope es) →
    Expr.generateAll tables es = .ok (Term.formulas ts)
  | _, _, .nil, _ => rfl
  | _, _, .cons first rest, h => by
    obtain ⟨hfirst, hrest⟩ := resolves_append.mp h
    rw [Expr.generateAll, Expr.generate_of_elaborates first hfirst,
      Expr.generateAll_of_elaborateAll rest hrest]
    rfl

end

end Expressions

namespace Argument

-- The position at which an argument is found is the one at which it stands.
theorem getElem?_of_index? {schema : Schema} {i index j : Nat} {args : List Argument}
    (h : Argument.index? schema i index args = some j) :
    ∃ k arg, j = index + k ∧ args[k]? = some arg ∧
      Argument.for? schema i index args = some arg := by
  induction args generalizing index with
  | nil => cases h
  | cons first args ih =>
    simp only [Argument.index?, Argument.for?] at h ⊢
    by_cases hposition : first.position? schema index = some i
    · rw [if_pos hposition] at h ⊢
      obtain rfl := Option.some.inj h
      exact ⟨0, first, rfl, rfl, rfl⟩
    · rw [if_neg hposition] at h ⊢
      obtain ⟨k, arg, rfl, harg, hfor⟩ := ih h
      exact ⟨k + 1, arg, by omega, harg, hfor⟩

theorem for?_of_index?_none {schema : Schema} {i index : Nat} {args : List Argument}
    (h : Argument.index? schema i index args = none) :
    Argument.for? schema i index args = none := by
  induction args generalizing index with
  | nil => rfl
  | cons first args ih =>
    simp only [Argument.index?, Argument.for?] at h ⊢
    by_cases hposition : first.position? schema index = some i
    · simp [hposition] at h
    · rw [if_neg hposition] at h ⊢
      exact ih h

-- A plan addresses arguments that are there.
theorem lt_of_mem_planFrom {schema : Schema} {args : List Argument} {i j : Nat}
    {params : List Parameter} (h : some j ∈ Argument.planFrom schema args i params) :
    j < args.length := by
  induction params generalizing i with
  | nil => cases h
  | cons param params ih =>
    obtain hfirst | hrest := List.mem_cons.mp h
    · obtain ⟨k, arg, rfl, harg, -⟩ := getElem?_of_index? hfirst.symm
      simpa using (List.getElem?_eq_some_iff.mp harg).1
    · exact ih hrest

theorem resolves_of_mem {oracle : Oracle} {scope : Scope} {arg : Argument} {args : List Argument}
    (h : tables.Resolves (Expr.entriesOfAll oracle scope (args.map Argument.value)))
    (hmem : arg ∈ args) : tables.Resolves (arg.value.entries oracle scope) := by
  induction args with
  | nil => cases hmem
  | cons first args ih =>
    obtain ⟨hfirst, hrest⟩ := resolves_append.mp h
    obtain rfl | hmem := List.mem_cons.mp hmem
    · exact hfirst
    · exact ih hrest hmem

-- The arguments that fill the parameters become the code of their terms.
theorem generateAll_of_fill {oracle : Oracle} {scope : Scope} {schema : Schema}
    {args : List Argument} {id i : Nat} {params : List Parameter} {ts : List (Option Term)}
    (hfill : Argument.Fill oracle scope schema args i params ts)
    (h : tables.Resolves (Expr.entriesOfAll oracle scope (args.map Argument.value))) :
    Argument.generateAll tables id args (Argument.planFrom schema args i params) =
      .ok (ts.map (·.map Term.formula)) := by
  induction hfill with
  | nil => rfl
  | @omitted i param params ts absent default rest ih =>
    cases hindex : Argument.index? schema i 0 args with
    | none =>
      rw [Argument.planFrom, hindex, Argument.generateAll, ih]
      rfl
    | some j =>
      obtain ⟨k, arg, -, -, hfor⟩ := getElem?_of_index? hindex
      simp [absent] at hfor
  | @given i param params ts arg t found elaborates accepts rest ih =>
    cases hindex : Argument.index? schema i 0 args with
    | none => simp [for?_of_index?_none hindex] at found
    | some j =>
      obtain ⟨k, other, rfl, hother, hfor⟩ := getElem?_of_index? hindex
      obtain rfl : arg = other := Option.some.inj (found.symm.trans hfor)
      have hcode := Expr.generate_of_elaborates elaborates
        (resolves_of_mem h (List.mem_of_getElem? hother))
      rw [Argument.planFrom, hindex, Argument.generateAll, Nat.zero_add, hother]
      simp only [hcode, ih]
      rfl

end Argument

namespace Node

variable {oracle : Oracle} {scope : Scope} {schemas : Schemas}

-- A missing alternative is like an empty one.
theorem generate_conditional (mode : Mode) (site : Nat) (arms : List Arm)
    (otherwise : Option (List Node)) (span : Span) :
    (conditional arms otherwise span).generate tables mode site = (do
      let (arms, site) ← generateArms tables mode site arms
      let (otherwise, site) ← generateAll tables mode site "" (otherwise.getD [])
      return (.branch arms otherwise, site)) := by
  cases otherwise <;> rfl

theorem generate_loop (mode : Mode) (site : Nat) (element : Binding) (index : Option Binding)
    (iterable : Expr) (body : List Node) (otherwise : Option (List Node)) (span : Span) :
    (loop element index iterable body otherwise span).generate tables mode site = (do
      let iterable ← iterable.generate tables
      let element ← tables.slot element.mark.id
      let index ← index.mapM fun index => tables.slot index.mark.id
      let (body, site) ← generateAll tables mode site "" body
      let (otherwise, site) ← generateAll tables mode site "" (otherwise.getD [])
      return (.loop iterable element index body otherwise, site)) := by
  cases otherwise <;> rfl

theorem entries_conditional (arms : List Arm) (otherwise : Option (List Node)) (span : Span) :
    (conditional arms otherwise span).entries oracle scope =
      entriesOfArms oracle scope arms ++ entriesOfAll oracle scope (otherwise.getD []) := by
  cases otherwise <;> simp [entries, entriesOfAll]

theorem entries_loop (element : Binding) (index : Option Binding) (iterable : Expr)
    (body : List Node) (otherwise : Option (List Node)) (span : Span) :
    (loop element index iterable body otherwise span).entries oracle scope =
      iterable.entries oracle scope ++ Binding.entries scope element index ++
        entriesOfAll oracle (scope.inLoop element index (iterable.itemIn oracle scope)) body ++
        entriesOfAll oracle scope (otherwise.getD []) := by
  cases otherwise <;> simp [entries, entriesOfAll]

theorem plans_conditional (arms : List Arm) (otherwise : Option (List Node)) (span : Span) :
    (conditional arms otherwise span).plans schemas =
      plansOfArms schemas arms ++ plansOfAll schemas (otherwise.getD []) := by
  cases otherwise <;> simp [plans, plansOfAll]

theorem plans_loop (element : Binding) (index : Option Binding) (iterable : Expr)
    (body : List Node) (otherwise : Option (List Node)) (span : Span) :
    (loop element index iterable body otherwise span).plans schemas =
      plansOfAll schemas body ++ plansOfAll schemas (otherwise.getD []) := by
  cases otherwise <;> simp [plans, plansOfAll]

theorem generateAll_cons {mode : Mode} {site : Nat} {pending : String} {node : Node}
    {nodes : List Node} (h : ∀ content span, node ≠ text content span) :
    generateAll tables mode site pending (node :: nodes) = (do
      let (op, site) ← node.generate tables mode site
      let (rest, site) ← generateAll tables mode site "" nodes
      return (textOps mode pending ++ op :: rest, site)) := by
  cases node with
  | text content span => exact absurd rfl (h content span)
  | _ => rfl

end Node

theorem Binding.slots_of_resolves {scope : Scope} {element : Binding} {index : Option Binding}
    (h : tables.Resolves (Binding.entries scope element index)) :
    tables.slot element.mark.id = .ok scope.length ∧
      (index.mapM fun index => tables.slot index.mark.id) =
        .ok (index.map fun _ => scope.length + 1) := by
  obtain ⟨helement, hindex⟩ := List.forall_mem_cons.mp h
  refine ⟨Tables.slot_of_resolution? helement, ?_⟩
  cases index with
  | none => rfl
  | some index =>
    have hslot := Tables.slot_of_resolution?
      (hindex (index.mark.id, .slot (scope.length + 1)) (by simp))
    rw [Option.mapM_some, hslot]
    rfl

section Bodies

variable {context : CheckContext}

mutual

theorem Node.generate_of_elaborates (mode : Mode) (site : Nat) :
    ∀ {scope : Scope} {node : Node} {s : Statement}, node.Elaborates context scope s →
      tables.Resolves (node.entries context.oracle scope) →
      tables.HasPlans (node.plans context.schemas) →
      node.generate tables mode site = .ok (s.op mode site)
  | _, _, _, .text content _, _, _ => rfl
  | _, _, _, @Node.Elaborates.interpolation _ _ raw value _ _ elaborates _, h, _ => by
    rw [Node.generate, Expr.generate_of_elaborates elaborates h]
    cases raw <;> rfl
  | _, _, _, @Node.Elaborates.conditional _ _ arms otherwise _ branches els harms hels, h,
      hplans => by
    rw [Node.entries_conditional] at h
    rw [Node.plans_conditional] at hplans
    obtain ⟨hfirst, hsecond⟩ := resolves_append.mp h
    obtain ⟨hplans, hplans'⟩ := hasPlans_append.mp hplans
    have hbranches := Node.generateArms_of_elaborateAll mode site harms hfirst hplans
    have helse := Node.generateAll_of_elaborateAll mode (Statement.branchOps mode site branches).2
      "" hels hsecond hplans'
    rw [Node.generate_conditional, hbranches]
    simp only [bind, Except.bind, helse]
    rfl
  | scope, _, _, @Node.Elaborates.loop _ _ element index iterable body otherwise _ it item
      statements els hit htype hbody hels, h, hplans => by
    have hitem : iterable.itemIn context.oracle scope = some item := by
      rw [Expr.itemIn, Expr.typeIn_of_elaborates hit, htype]
      rfl
    rw [Node.entries_loop, hitem] at h
    rw [Node.plans_loop] at hplans
    obtain ⟨hfront, hsecond⟩ := resolves_append.mp h
    obtain ⟨hheader, hfirst⟩ := resolves_append.mp hfront
    obtain ⟨hiterable, hnames⟩ := resolves_append.mp hheader
    obtain ⟨hplans, hplans'⟩ := hasPlans_append.mp hplans
    obtain ⟨helement, hindex⟩ := Binding.slots_of_resolves hnames
    have hinner := Node.generateAll_of_elaborateAll mode site "" hbody hfirst hplans
    have helse := Node.generateAll_of_elaborateAll mode (Statement.ops mode site "" statements).2
      "" hels hsecond hplans'
    rw [Node.generate_loop, Expr.generate_of_elaborates hit hiterable]
    simp only [bind, Except.bind, helement, hindex, hinner, helse]
    rfl
  | _, _, _, @Node.Elaborates.inclusion _ _ id target args _ schema ts found filled, h, hplans => by
    have hplan : tables.plan? id = some (Argument.plan schema args) :=
      hplans (id, Argument.plan schema args) (by simp [Node.plans, found])
    rw [Node.generate, hplan]
    simp only [Argument.plan, Argument.generateAll_of_fill filled h, bind, Except.bind]
    rfl

theorem Node.generateAll_of_elaborateAll (mode : Mode) (site : Nat) (pending : String) :
    ∀ {scope : Scope} {nodes : List Node} {ss : List Statement},
      Node.ElaborateAll context scope nodes ss →
      tables.Resolves (Node.entriesOfAll context.oracle scope nodes) →
      tables.HasPlans (Node.plansOfAll context.schemas nodes) →
      Node.generateAll tables mode site pending nodes = .ok (Statement.ops mode site pending ss)
  | _, _, _, .nil, _, _ => rfl
  | _, _, _, @Node.ElaborateAll.cons _ _ node s nodes ss first rest, h, hplans => by
    obtain ⟨hfirst, hrest⟩ := resolves_append.mp h
    obtain ⟨hplans, hplans'⟩ := hasPlans_append.mp hplans
    by_cases htext : ∃ content span, node = .text content span
    · obtain ⟨content, span, rfl⟩ := htext
      cases first
      exact Node.generateAll_of_elaborateAll mode site (pending ++ content) rest hrest hplans'
    · have hnode : ∀ content span, node ≠ .text content span :=
        fun content span h => htext ⟨content, span, h⟩
      have hs : ∀ content, s ≠ .text content := by
        rintro content rfl
        cases first
        exact hnode _ _ rfl
      have hop := Node.generate_of_elaborates mode site first hfirst hplans
      have hops := Node.generateAll_of_elaborateAll mode (s.op mode site).2 "" rest hrest hplans'
      rw [Node.generateAll_cons hnode, hop, Statement.ops_cons hs]
      simp only [bind, Except.bind, hops]
      rfl

theorem Node.generateArms_of_elaborateAll (mode : Mode) (site : Nat) :
    ∀ {scope : Scope} {arms : List Arm} {branches : List Branch},
      Arm.ElaborateAll context scope arms branches →
      tables.Resolves (Node.entriesOfArms context.oracle scope arms) →
      tables.HasPlans (Node.plansOfArms context.schemas arms) →
      Node.generateArms tables mode site arms = .ok (Statement.branchOps mode site branches)
  | _, _, _, .nil, _, _ => rfl
  | _, _, _, @Arm.ElaborateAll.cons _ _ test nodes arms t ss branches htest _ hbody harms, h,
      hplans => by
    obtain ⟨hfront, hrest⟩ := resolves_append.mp h
    obtain ⟨hcondition, hfirst⟩ := resolves_append.mp hfront
    obtain ⟨hplans, hplans'⟩ := hasPlans_append.mp hplans
    have hops := Node.generateAll_of_elaborateAll mode site "" hbody hfirst hplans
    have hbranches := Node.generateArms_of_elaborateAll mode (Statement.ops mode site "" ss).2
      harms hrest hplans'
    rw [Node.generateArms, Expr.generate_of_elaborates htest hcondition]
    simp only [bind, Except.bind, hops, hbranches]
    rfl

end

-- The highest slot of a loop is the last one that is taken inside of it.
theorem Binding.getD_add_one (depth : Nat) (index : Option Binding) :
    (index.map fun _ => depth + 1).getD depth + 1 = Binding.depthInside depth index := by
  cases index <;> rfl

theorem Scope.length_inLoop (scope : Scope) (element : Binding) (index : Option Binding)
    (type : Option Ty) :
    (scope.inLoop element index type).length = Binding.depthInside scope.length index := by
  cases index <;> rfl

namespace Node

theorem slots_conditional (depth n : Nat) (arms : List Arm) (otherwise : Option (List Node))
    (span : Span) :
    (conditional arms otherwise span).slots depth n =
      slotsOfAll depth (slotsOfArms depth n arms) (otherwise.getD []) := by
  cases otherwise <;> rfl

theorem slots_loop (depth n : Nat) (element : Binding) (index : Option Binding) (iterable : Expr)
    (body : List Node) (otherwise : Option (List Node)) (span : Span) :
    (loop element index iterable body otherwise span).slots depth n =
      slotsOfAll depth
        (slotsOfAll (Binding.depthInside depth index) (max n (Binding.depthInside depth index))
          body)
        (otherwise.getD []) := by
  cases otherwise <;> rfl

end Node

mutual

-- Counting the slots on the way gives the count for what was made.
theorem Node.slots_of_elaborates (n : Nat) :
    ∀ {scope : Scope} {node : Node} {s : Statement}, node.Elaborates context scope s →
      node.slots scope.length n = s.slots n
  | _, _, _, .text _ _ => rfl
  | _, _, _, .interpolation _ _ => rfl
  | _, _, _, .conditional harms hels => by
    rw [Node.slots_conditional, Statement.slots, Node.slotsOfArms_of_elaborateAll n harms,
      Node.slotsOfAll_of_elaborateAll _ hels]
  | scope, _, _, @Node.Elaborates.loop _ _ element index iterable body otherwise _ it item
      statements els _ _ hbody hels => by
    have hinner := Node.slotsOfAll_of_elaborateAll
      (max n (Binding.depthInside scope.length index)) hbody
    rw [Scope.length_inLoop] at hinner
    rw [Node.slots_loop, Statement.slots, Binding.getD_add_one, hinner,
      Node.slotsOfAll_of_elaborateAll _ hels]
  | _, _, _, .inclusion _ _ => rfl

theorem Node.slotsOfAll_of_elaborateAll (n : Nat) :
    ∀ {scope : Scope} {nodes : List Node} {ss : List Statement},
      Node.ElaborateAll context scope nodes ss →
      Node.slotsOfAll scope.length n nodes = Statement.slotsOfAll n ss
  | _, _, _, .nil => rfl
  | _, _, _, .cons first rest => by
    rw [Node.slotsOfAll, Statement.slotsOfAll, Node.slots_of_elaborates n first,
      Node.slotsOfAll_of_elaborateAll _ rest]

theorem Node.slotsOfArms_of_elaborateAll (n : Nat) :
    ∀ {scope : Scope} {arms : List Arm} {branches : List Branch},
      Arm.ElaborateAll context scope arms branches →
      Node.slotsOfArms scope.length n arms = Statement.slotsOfBranches n branches
  | _, _, _, .nil => rfl
  | _, _, _, .cons _ _ body rest => by
    rw [Node.slotsOfArms, Statement.slotsOfBranches, Node.slotsOfAll_of_elaborateAll n body,
      Node.slotsOfArms_of_elaborateAll _ rest]

end

end Bodies

theorem Schema.length_scope (schema : Schema) : schema.scope.length = schema.size := by
  simp [Schema.scope, Schema.size]

namespace Template

variable {context : CheckContext} {source : String} {t : Template} {checked : CheckedTemplate}

-- What the header gave is what the checked template has.
theorem tables_of_bind (h : t.bind context source = .ok checked) :
    t.tables context =
      { schema := checked.schema
        idCount := t.idCount
        resolutions := Node.entriesOfAll context.oracle checked.schema.scope t.body
        plans := Node.plansOfAll context.schemas t.body
        frameSize := checked.frameSize } := by
  obtain ⟨hheader, helaborates⟩ := header_of_check (check_of_bind h)
  have hslots := Node.slotsOfAll_of_elaborateAll checked.schema.size helaborates.body
  rw [Schema.length_scope] at hslots
  rw [tables, hheader, CheckedTemplate.frameSize, ← hslots, ← Schema.length_scope]
  rfl

-- A template whose numbers are different and that passes its check becomes the program of the
-- checked template.
theorem generate_of_issued (hnumbers : Issued t.idCount t.numbers)
    (h : t.bind context source = .ok checked) (name : String) (mode : Mode) :
    t.generate (t.tables context) name mode = .ok (checked.program name mode) := by
  have htables := tables_of_bind h
  have hresolves := resolves_tables hnumbers context
  have hplans := hasPlans_tables hnumbers context
  rw [htables] at hresolves hplans ⊢
  rw [generate, Node.generateAll_of_elaborateAll mode 0 "" (elaborates_of_bind h).body hresolves
    hplans]
  rfl

end Template

end Stencil
