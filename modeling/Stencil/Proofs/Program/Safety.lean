import Stencil.Proofs.Program.Discipline
import Stencil.Proofs.Typing.Recorded

/-!
A template that was read and passes its check compiles to a program that is safe to run: all that
generation looks up is there, and no slot is read before something was stored into it.
-/

namespace Stencil

open Run (exec)

open Tables (resolves_append resolves_entry hasPlans_append)

variable {tables : Tables}

section Plans

variable {context : CheckContext} {id : Nat} {target : String} {args : List Argument} {span : Span}

-- The plan of an inclusion is found, and it is the one for its target.
def Tables.Plans (tables : Tables) (context : CheckContext) (id : Nat) (target : String)
    (args : List Argument) : Prop :=
  ∃ schema, context.schemas target = some schema ∧
    tables.plan? id = some (Argument.plan schema args)

mutual

-- There is a plan for each inclusion of a node that passed its check.
theorem Node.plans_of_elaborates : ∀ {node : Node} {scope : Scope} {s : Statement},
    node.Elaborates context scope s → tables.HasPlans (node.plans context.schemas) →
      .inclusion id target args span ∈ node.parts → tables.Plans context id target args
  | _, _, _, .text _ _, _, hmem => by simp [Node.parts] at hmem
  | _, _, _, .interpolation _ _, _, hmem => by simp [Node.parts] at hmem
  | _, _, _, .conditional harms hels, hplans, hmem => by
    rw [Node.plans_conditional] at hplans
    rw [Node.parts_conditional] at hmem
    obtain ⟨hfirst, hsecond⟩ := hasPlans_append.mp hplans
    obtain hsame | hmem := List.mem_cons.mp hmem
    · cases hsame
    · obtain harm | hother := List.mem_append.mp hmem
      · exact Node.plans_of_elaborateArms harms hfirst harm
      · exact Node.plans_of_elaborateAll hels hsecond hother
  | _, _, _, .loop _ _ hbody hels, hplans, hmem => by
    rw [Node.plans_loop] at hplans
    rw [Node.parts_loop] at hmem
    obtain ⟨hfirst, hsecond⟩ := hasPlans_append.mp hplans
    obtain hsame | hmem := List.mem_cons.mp hmem
    · cases hsame
    · obtain hinner | hother := List.mem_append.mp hmem
      · exact Node.plans_of_elaborateAll hbody hfirst hinner
      · exact Node.plans_of_elaborateAll hels hsecond hother
  | _, _, _, @Node.Elaborates.inclusion _ _ id' target' args' _ schema _ found _, hplans, hmem => by
    have hplan : tables.plan? id' = some (Argument.plan schema args') :=
      hplans (id', Argument.plan schema args') (by simp [Node.plans, found])
    cases List.mem_singleton.mp hmem
    exact ⟨schema, found, hplan⟩

theorem Node.plans_of_elaborateAll : ∀ {nodes : List Node} {scope : Scope} {ss : List Statement},
    Node.ElaborateAll context scope nodes ss →
      tables.HasPlans (Node.plansOfAll context.schemas nodes) →
      .inclusion id target args span ∈ Node.partsOfAll nodes → tables.Plans context id target args
  | _, _, _, .nil, _, hmem => nomatch hmem
  | _, _, _, .cons first rest, hplans, hmem => by
    obtain ⟨hplans, hplans'⟩ := hasPlans_append.mp hplans
    obtain hfirst | hrest := List.mem_append.mp hmem
    · exact Node.plans_of_elaborates first hplans hfirst
    · exact Node.plans_of_elaborateAll rest hplans' hrest

theorem Node.plans_of_elaborateArms : ∀ {arms : List Arm} {scope : Scope} {branches : List Branch},
    Arm.ElaborateAll context scope arms branches →
      tables.HasPlans (Node.plansOfArms context.schemas arms) →
      .inclusion id target args span ∈ Node.partsOfArms arms → tables.Plans context id target args
  | _, _, _, .nil, _, hmem => nomatch hmem
  | _, _, _, .cons _ _ body rest, hplans, hmem => by
    obtain ⟨hplans, hplans'⟩ := hasPlans_append.mp hplans
    obtain hfirst | hrest := List.mem_append.mp hmem
    · exact Node.plans_of_elaborateAll body hplans hfirst
    · exact Node.plans_of_elaborateArms rest hplans' hrest

end

end Plans

section Names

variable {oracle : Oracle} {scope : Scope}

mutual

-- A table that knows an expression knows its parts.
theorem Expr.resolves_of_mem : ∀ (whole : Expr) {e : Expr}, e ∈ whole.parts →
    tables.Resolves (whole.entries oracle scope) → tables.Resolves (e.entries oracle scope)
  | .literal _ _, e, he, h => by
    obtain rfl := List.mem_singleton.mp he
    exact h
  | .name _ _, e, he, h => by
    obtain rfl := List.mem_singleton.mp he
    exact h
  | .list _ items, e, he, h => by
    obtain rfl | he := List.mem_cons.mp he
    · exact h
    · exact Expr.resolves_of_memAll items he h
  | .member _ object _, e, he, h => by
    obtain rfl | he := List.mem_cons.mp he
    · exact h
    · exact Expr.resolves_of_mem object he (resolves_append.mp h).1
  | .call _ object _ args, e, he, h => by
    obtain rfl | he := List.mem_cons.mp he
    · exact h
    · obtain ⟨hobject, hargs⟩ := resolves_append.mp (resolves_append.mp h).1
      obtain hmem | hmem := List.mem_append.mp he
      · exact Expr.resolves_of_mem object hmem hobject
      · exact Expr.resolves_of_memAll args hmem hargs
  | .unary _ _ operand, e, he, h => by
    obtain rfl | he := List.mem_cons.mp he
    · exact h
    · exact Expr.resolves_of_mem operand he h
  | .binary _ _ lhs rhs, e, he, h => by
    obtain rfl | he := List.mem_cons.mp he
    · exact h
    · obtain ⟨hlhs, hrhs⟩ := resolves_append.mp h
      obtain hmem | hmem := List.mem_append.mp he
      · exact Expr.resolves_of_mem lhs hmem hlhs
      · exact Expr.resolves_of_mem rhs hmem hrhs

theorem Expr.resolves_of_memAll : ∀ (es : List Expr) {e : Expr}, e ∈ Expr.partsOfAll es →
    tables.Resolves (Expr.entriesOfAll oracle scope es) → tables.Resolves (e.entries oracle scope)
  | [], e, he, _ => nomatch he
  | first :: es, e, he, h => by
    obtain ⟨hfirst, hrest⟩ := resolves_append.mp h
    obtain hmem | hmem := List.mem_append.mp he
    · exact Expr.resolves_of_mem first hmem hfirst
    · exact Expr.resolves_of_memAll es hmem hrest

end

theorem Node.resolves_of_mem {node : Node} {nodes : List Node} (hmem : node ∈ nodes)
    (h : tables.Resolves (Node.entriesOfAll oracle scope nodes)) :
    tables.Resolves (node.entries oracle scope) := by
  induction nodes with
  | nil => cases hmem
  | cons first nodes ih =>
    obtain ⟨hfirst, hrest⟩ := resolves_append.mp h
    obtain rfl | hmem := List.mem_cons.mp hmem
    · exact hfirst
    · exact ih hmem hrest

theorem Arm.resolves_of_mem {arm : Arm} {arms : List Arm} (hmem : arm ∈ arms)
    (h : tables.Resolves (Node.entriesOfArms oracle scope arms)) :
    tables.Resolves (arm.test.entries oracle scope) ∧
      tables.Resolves (Node.entriesOfAll oracle scope arm.body) := by
  induction arms with
  | nil => cases hmem
  | cons first arms ih =>
    obtain ⟨test, body⟩ := first
    obtain ⟨hfirst, hrest⟩ := resolves_append.mp h
    obtain rfl | hmem := List.mem_cons.mp hmem
    · exact resolves_append.mp hfirst
    · exact ih hmem hrest

theorem Expr.itemIn_of_hasType {Γ : Context} {iterable : Expr} {τ : Ty}
    (h : iterable.HasType oracle Γ (.list τ)) : iterable.itemIn oracle Γ.scope = some τ := by
  obtain ⟨t, ht, htype⟩ := Expr.hasType_iff.mp h
  rw [itemIn, typeIn_of_elaborates (elaborates_of_check iterable ht), htype]
  rfl

-- A table that knows a node knows each expression in it, resolved where the expression stands.
theorem Node.Shows.resolves {context : CheckContext} {Γ Δ : Context} {node : Node} {e : Expr}
    (hshown : node.Shows context Γ Δ e)
    (h : tables.Resolves (node.entries context.oracle Γ.scope)) :
    tables.Resolves (e.entries context.oracle Δ.scope) := by
  induction hshown with
  | interpolation part => exact Expr.resolves_of_mem _ part h
  | test arm_mem part =>
    rw [Node.entries_conditional] at h
    obtain ⟨harms, -⟩ := resolves_append.mp h
    exact Expr.resolves_of_mem _ part (Arm.resolves_of_mem arm_mem harms).1
  | arm arm_mem node_mem _ ih =>
    rw [Node.entries_conditional] at h
    obtain ⟨harms, -⟩ := resolves_append.mp h
    exact ih (Node.resolves_of_mem node_mem (Arm.resolves_of_mem arm_mem harms).2)
  | otherwise node_mem _ ih =>
    rw [Node.entries_conditional] at h
    exact ih (Node.resolves_of_mem node_mem (resolves_append.mp h).2)
  | iterable part =>
    rw [Node.entries_loop, List.append_assoc, List.append_assoc] at h
    exact Expr.resolves_of_mem _ part (resolves_append.mp h).1
  | body typed node_mem _ ih =>
    rw [Node.entries_loop, Expr.itemIn_of_hasType typed] at h
    obtain ⟨hfront, -⟩ := resolves_append.mp h
    rw [← Context.scope_inLoop] at hfront
    exact ih (Node.resolves_of_mem node_mem (resolves_append.mp hfront).2)
  | empty node_mem _ ih =>
    rw [Node.entries_loop] at h
    exact ih (Node.resolves_of_mem node_mem (resolves_append.mp h).2)
  | argument arg_mem part => exact Expr.resolves_of_mem _ part (Argument.resolves_of_mem h arg_mem)

theorem Scope.find?_append_of_fresh {inner outer : Scope} {name : String}
    (h : ∀ l ∈ inner, l.name ≠ name) : (inner ++ outer).find? name = outer.find? name := by
  induction inner with
  | nil => rfl
  | cons l inner ih =>
    obtain ⟨hfirst, hrest⟩ := List.forall_mem_cons.mp h
    rw [List.cons_append, Scope.find?, if_neg hfirst]
    exact ih hrest

-- Parameters own the first slots, in their order.
theorem Schema.find?_scope {schema : Schema} {i : Nat} {param : Parameter}
    (hdistinct : (schema.params.map (·.name)).Nodup) (h : schema.params[i]? = some param) :
    schema.scope.find? param.name = some (i, some param.type) := by
  obtain ⟨params⟩ := schema
  obtain ⟨hi, hparam⟩ := List.getElem?_eq_some_iff.mp h
  have hsplit : params = params.take i ++ param :: params.drop (i + 1) := by
    rw [← hparam, ← List.drop_eq_getElem_cons hi, List.take_append_drop]
  have hfresh : ∀ l ∈ (params.drop (i + 1)).map Parameter.variable |>.reverse,
      l.name ≠ param.name := by
    intro l hl
    obtain ⟨q, hq, rfl⟩ := List.mem_map.mp (List.mem_reverse.mp hl)
    rw [hsplit, List.map_append, List.map_cons, List.nodup_append, List.nodup_cons] at hdistinct
    intro hname
    exact hdistinct.2.1.1 (hname ▸ List.mem_map_of_mem hq)
  have hscope : Schema.scope ⟨params⟩ =
      ((params.drop (i + 1)).map Parameter.variable).reverse ++
        param.variable :: ((params.take i).map Parameter.variable).reverse := by
    conv_lhs => rw [Schema.scope, hsplit]
    simp
  rw [hscope, Scope.find?_append_of_fresh hfresh, Scope.find?]
  have hi' : i ≤ params.length := Nat.le_of_lt hi
  simp [Parameter.variable, hi']

theorem Context.scope_append (Γ Δ : Context) : (Γ ++ Δ).scope = Γ.scope ++ Δ.scope :=
  List.map_append

theorem Context.scope_injective : Function.Injective Context.scope := by
  refine List.map_injective_iff.mpr fun var var' h => ?_
  obtain ⟨hname, htype⟩ := Local.mk.inj h
  exact Prod.ext hname (Option.some.inj htype)

-- Around an expression there are the names of loops, and then the names around its node.
theorem Node.Shows.locals {context : CheckContext} {Γ Δ : Context} {node : Node} {e : Expr}
    (h : node.Shows context Γ Δ e) : ∃ names, Δ = names ++ Γ := by
  induction h with
  | @body Γ Δ element index iterable body otherwise span τ node e typed node_mem shown ih =>
    obtain ⟨names, rfl⟩ := ih
    exact ⟨names ++ Context.inLoop [] element index τ, by simp [Context.inLoop]⟩
  | arm _ _ _ ih | otherwise _ _ ih | empty _ _ ih => exact ih
  | _ => exact ⟨[], rfl⟩

end Names

namespace Template

variable {context : CheckContext} {source : String} {t : Template} {checked : CheckedTemplate}

theorem scope_of_declares {Γ : Context} (h : t.bind context source = .ok checked)
    (hdeclares : t.Declares context.oracle Γ) : Γ.scope = checked.schema.scope := by
  obtain ⟨hheader, -⟩ := header_of_check (check_of_bind h)
  obtain ⟨schema, hheader'⟩ := checkHeader_of_declares hdeclares
  have hsame := Check.pure_eq_pure.mp (hheader'.symm.trans hheader)
  exact (Prod.mk.inj hsame).2

-- A name that no loop around it binds is a parameter, and owns the slot of its position.
theorem resolution?_of_shows (hnumbers : Issued t.idCount t.numbers)
    (h : t.bind context source = .ok checked) {Γ Δ : Context} {m : Mark} {ident : String}
    (hdeclares : t.Declares context.oracle Γ) (hshown : t.Shows context Δ (.name m ident)) :
    ∃ names, Δ = names ++ Γ ∧ (ident ∉ names.map Prod.fst → ∀ i param,
      checked.schema.params[i]? = some param → param.name = ident →
        (t.tables context).resolution? m.id = some (.slot i)) := by
  obtain ⟨Γ', hdeclares', node, hnode, hshown⟩ := hshown
  have hscope := scope_of_declares h hdeclares
  have hsame := (scope_of_declares h hdeclares').trans hscope.symm
  obtain rfl := Context.scope_injective hsame
  obtain ⟨names, rfl⟩ := hshown.locals
  refine ⟨names, rfl, fun hfresh i param hparam hname => ?_⟩
  have hresolves := resolves_tables hnumbers context
  rw [tables_of_bind h, ← hscope] at hresolves
  have hentry := hshown.resolves (Node.resolves_of_mem hnode hresolves)
  have hinner : ∀ l ∈ names.scope, l.name ≠ ident := by
    intro l hl
    obtain ⟨var, hvar, rfl⟩ := List.mem_map.mp hl
    rintro rfl
    exact hfresh (List.mem_map_of_mem hvar)
  have hfound := Schema.find?_scope (distinct_of_check (check_of_bind h)) hparam
  rw [Expr.entries, Context.scope_append, Scope.find?_append_of_fresh hinner, hscope, ← hname,
    hfound] at hentry
  rw [tables_of_bind h]
  exact resolves_entry.mp hentry

-- A template that was read and passes its check compiles. Generation finds all that it looks up:
-- the result is the program of the checked template. Plans address arguments that are there, the
-- parameters own the first slots in their order, and the program is safe to run in its frame.
theorem generate_of_bind {text : String} {trimLines : Bool} (hparse : parse text trimLines = .ok t)
    (hbind : t.bind context source = .ok checked) (name : String) (mode : Mode) :
    let p := checked.program name mode
    t.generate (t.tables context) name mode = .ok p ∧
    (∀ i ∈ p.slots, i < p.frameSize) ∧
    (∀ id target args span, .inclusion id target args span ∈ t.nodes →
      ∃ plan, (t.tables context).plan? id = some plan ∧ ∀ i, some i ∈ plan → i < args.length) ∧
    (∀ Γ Δ m ident, t.Declares context.oracle Γ → t.Shows context Δ (.name m ident) →
      ∃ names, Δ = names ++ Γ ∧ (ident ∉ names.map Prod.fst → ∀ i param,
        p.schema.params[i]? = some param → param.name = ident →
          (t.tables context).resolution? m.id = some (.slot i))) ∧
    p.SlotSafe ∧
    ∀ (ρ ω : Type) [DecidableEq ρ] (model : Model ρ) (opener : Opener ρ ω)
      (values : List (Value ρ)), values.length = p.schema.size →
      Frame.HoldsParams p values (p.frame values) ∧ ∀ frame, Frame.HoldsParams p values frame →
        (do let _ ← Op.runAll model opener frame p.body) = p.run model opener values ∧
        ∀ e g e', exec (Op.runAll model opener frame p.body) e = (.ok g, e') →
          Frame.HoldsParams p values g := by
  intro p
  have hnumbers := issued_of_parse hparse
  have helaborates := elaborates_of_bind hbind
  have hsafe : p.FrameSafe := helaborates.frameSafe name mode
  refine ⟨generate_of_issued hnumbers hbind name mode, hsafe.slots_lt, ?_, ?_, hsafe.slotSafe, ?_⟩
  · intro id target args span hmem
    obtain ⟨schema, -, hplan⟩ := Node.plans_of_elaborateAll helaborates.body
      (hasPlans_tables hnumbers context) hmem
    exact ⟨_, hplan, fun i hi => Argument.lt_of_mem_planFrom hi⟩
  · intro Γ Δ m ident hdeclares hshown
    exact resolution?_of_shows hnumbers hbind hdeclares hshown
  · intro ρ ω _ model opener values hvalues
    refine ⟨Program.holds_frame hsafe.params_le hvalues, fun frame hframe => ?_⟩
    exact ⟨hsafe.run_eq hvalues hframe, fun e g e' => hsafe.holds_of_run hframe⟩

-- Two loops beside each other, the second with an index. Each takes the slots from 2 on.
def listing : String :=
  "@param list<string> xs\n@param int n = 2\n@for(x in xs)@template.card(x, count = n)@end" ++
    "@for(y, i in xs)@if(i < n)${y}@end@end"

def card : Schema := ⟨[⟨"title", .text, none⟩, ⟨"count", .int, some (.literal (.int 1))⟩]⟩

theorem generate_of_bind_listing :
    let context : CheckContext :=
      ⟨Declarations.empty.oracle, fun name => if name = "card" then some card else none⟩
    ∃ t checked, parse listing false = .ok t ∧ t.bind context listing = .ok checked ∧
      t.generate (t.tables context) "listing" .text = .ok (checked.program "listing" .text) ∧
      (checked.program "listing" .text).frameSize = 4 ∧
      (checked.program "listing" .text).slots = [0, 2, 2, 1, 0, 2, 3, 3, 1, 2] ∧
      (t.tables context).plans.map Prod.snd = [[some 0, some 1]] ∧
      (checked.program "listing" .text).SlotSafe := by
  intro context
  have hrun : (parse listing false).toOption.bind (fun t =>
      (t.bind context listing).toOption.map fun checked =>
        ((checked.program "listing" .text).frameSize, (checked.program "listing" .text).slots,
          (t.tables context).plans.map Prod.snd)) =
      some (4, [0, 2, 2, 1, 0, 2, 3, 3, 1, 2], [[some 0, some 1]]) := by decide +kernel
  obtain ⟨t, ht, hrun⟩ := Option.bind_eq_some_iff.mp hrun
  obtain ⟨checked, hchecked, hsame⟩ := Option.map_eq_some_iff.mp hrun
  have hparse : parse listing false = .ok t := eq_ok_of_toOption ht
  have hbind : t.bind context listing = .ok checked := eq_ok_of_toOption hchecked
  obtain ⟨hgenerate, -, -, -, hsafe, -⟩ := generate_of_bind hparse hbind "listing" .text
  obtain ⟨hframe, hsame⟩ := Prod.mk.inj hsame
  obtain ⟨hslots, hplans⟩ := Prod.mk.inj hsame
  exact ⟨t, checked, hparse, hbind, hgenerate, hframe, hslots, hplans, hsafe⟩

end Template

end Stencil
