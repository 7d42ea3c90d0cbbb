import Stencil.Proofs.Meaning.Shelf
import Stencil.Proofs.Registry.Reachable
import Stencil.Proofs.Soundness.Expressions

/-!
Type soundness. Data that keeps to the declared types cannot make a template that passed its check
fail in ways that the check rules out.
-/

namespace Stencil

open Interp (Safe)

variable {ρ ω : Type} [DecidableEq ρ] {isA : String → ρ → Prop} {interp : Interpreter ρ ω}

-- An interpreter whose model conforms, and whose inclusions end well where their arguments fit.
structure Interpreter.Sound (interp : Interpreter ρ ω) (isA : String → ρ → Prop) : Prop where
  model : interp.model.Conforms interp.context.oracle isA
  inclusion : ∀ {site : Nat} {target : String} {schema : Schema}
    {x : Interp ρ ω (List (Option (Value ρ)))}, interp.context.schemas target = some schema →
    Safe (Argument.Fit isA · schema.params) x →
    Safe (fun _ => True) (Run.inclusion interp.opener site target x)

-- The induction is on how nodes stand for statements.
mutual

theorem Node.safe_interpret (h : interp.Sound isA) {scope : Scope} {node : Node} {s : Statement}
    {env : Environment ρ} {site : Nat} (hscope : env.scope = scope) (henv : env.Fit isA) :
    node.Elaborates interp.context scope s →
      Safe (fun _ => True) (node.interpret interp env site)
  | .text content _ => .emit _
  | .interpolation elaborates renderable => by
      rw [Node.interpret]
      exact (Expr.safe_interpret h.model henv (hscope ▸ elaborates)).bind fun v hv =>
        (Safe.given (v.comes_shown hv renderable) fun _ => trivial).bind fun s _ => .emit _
  | .conditional harms hotherwise => by
      rw [Node.interpret_conditional]
      refine (Arm.safe_interpretFirst h hscope henv harms).bind fun taken _ => ?_
      cases taken with
      | true => exact .pure trivial
      | false => exact Node.safe_interpretAll h hscope henv hotherwise
  | @Node.Elaborates.loop _ _ element index iterable body otherwise _ it item statements els
      hit htype hbody hotherwise => by
      have hit' : iterable.Elaborates interp.context.oracle env.scope it := hscope ▸ hit
      rw [Node.interpret_loop ((Expr.typeIn_of_elaborates hit').trans (congrArg some htype))]
      refine (Expr.safe_interpret h.model henv hit').bind fun v hv => ?_
      have hlist : v.Fits isA (.list item) := htype ▸ hv
      refine (Safe.given (v.comes_items hlist) fun _ => trivial).bind fun items hitems => ?_
      by_cases hempty : items.isEmpty = true
      · rw [if_pos hempty]
        exact Node.safe_interpretAll h hscope henv hotherwise
      · rw [if_neg hempty]
        refine .forEach fun i w hw => ?_
        have hinside : (env.inLoop element index (some item) w i).scope =
            scope.inLoop element index (some item) := by
          rw [Environment.scope_inLoop, hscope]
        exact Node.safe_interpretAll h hinside (henv.inLoop element index (hitems w hw) i) hbody
  | .inclusion found filled => by
      simp only [Node.interpret, found, Option.getD_some]
      exact h.inclusion found (Argument.safe_interpretFrom h.model henv (hscope ▸ filled))

theorem Node.safe_interpretAll (h : interp.Sound isA) {scope : Scope} {nodes : List Node}
    {ss : List Statement} {env : Environment ρ} {site : Nat} (hscope : env.scope = scope)
    (henv : env.Fit isA) :
    Node.ElaborateAll interp.context scope nodes ss →
      Safe (fun _ => True) (Node.interpretAll interp env site nodes)
  | .nil => .pure trivial
  | .cons first rest => by
      rw [Node.interpretAll]
      exact (Node.safe_interpret h hscope henv first).bind fun _ _ =>
        Node.safe_interpretAll h hscope henv rest

theorem Arm.safe_interpretFirst (h : interp.Sound isA) {scope : Scope} {arms : List Arm}
    {branches : List Branch} {env : Environment ρ} {site : Nat} (hscope : env.scope = scope)
    (henv : env.Fit isA) :
    Arm.ElaborateAll interp.context scope arms branches →
      Safe (fun _ => True) (Arm.interpretFirst interp env site arms)
  | .nil => .pure trivial
  | .cons test typed body rest => by
      rw [Arm.interpretFirst]
      refine (Expr.safe_interpret h.model henv (hscope ▸ test)).bind fun v hv =>
        (Safe.truth _ (typed ▸ hv)).bind fun holds _ => ?_
      cases holds with
      | true => exact (Node.safe_interpretAll h hscope henv body).bind fun _ _ => .pure trivial
      | false => exact Arm.safe_interpretFirst h hscope henv rest

end

omit [DecidableEq ρ] in
-- The values of parameters, as the environment of a template.
theorem Schema.environment_fit {schema : Schema} {values : List (Value ρ)}
    (h : Schema.Fit isA values schema.params) : (schema.environment values).Fit isA := by
  obtain ⟨params⟩ := schema
  intro x hx
  rw [environment, List.mem_reverse] at hx
  dsimp only at h hx
  induction h with
  | nil => cases hx
  | cons first _ ih =>
      obtain rfl | hx := List.mem_cons.mp hx
      · exact ⟨_, rfl, first⟩
      · exact ih hx

theorem Template.safe_interpret (h : interp.Sound isA) {t : Template} {checked : CheckedTemplate}
    (ht : t.Elaborates interp.context checked) {values : List (Value ρ)}
    (hvalues : Schema.Fit isA values checked.schema.params) :
    Safe (fun _ => True) (t.interpret interp checked.schema values) :=
  Node.safe_interpretAll h (Schema.scope_environment hvalues.length_eq)
    (Schema.environment_fit hvalues) ht.body

theorem Template.Elaborates.defaults_fit {context : CheckContext} {t : Template}
    {checked : CheckedTemplate} (ht : t.Elaborates context checked) :
    ∀ p ∈ checked.schema.params, p.DefaultFits := by
  have hparams := ht.params
  generalize t.params = decls, checked.schema.params = params at hparams
  induction hparams with
  | nil => exact fun _ hp => nomatch hp
  | cons first _ ih =>
      intro p hp
      obtain rfl | hp := List.mem_cons.mp hp
      · exact first.default_fits
      · exact ih p hp

theorem Template.safe_interpretRoot (h : interp.Sound isA) {t : Template}
    {checked : CheckedTemplate} (ht : t.Elaborates interp.context checked) {root : ρ}
    (hroot : interp.model.Supplies isA root checked.schema.params) :
    Safe (fun _ => True) (t.interpretRoot interp checked.schema root) := by
  rw [Template.interpretRoot]
  have hvalues : Safe (Schema.Fit isA · checked.schema.params)
      (Run.ofEval (readParams interp.model root checked.schema.params) : Interp ρ ω _) :=
    .ofEval (readParams_fit ht.defaults_fit hroot)
  exact hvalues.bind fun values hfit => Template.safe_interpret h ht hfit

-- A shelf in order: what is on it passed its check, and the rest is unresolved.
structure Shelf.InOrder (shelf : Shelf) : Prop where
  found : ∀ {name t schema}, shelf.find name = .ok t → shelf.context.schemas name = some schema →
    ∃ checked, t.Elaborates shelf.context checked ∧ checked.schema = schema
  missing : ∀ {name err}, shelf.find name = .error err →
    ∃ target reason, err = .unresolvedInclusion target reason

-- The induction is on how deep inclusions may nest.
theorem Shelf.InOrder.sound {shelf : Shelf} (h : shelf.InOrder) {model : Model ρ}
    (hmodel : model.Conforms shelf.context.oracle isA) (depth : Nat) :
    (shelf.interpreter model depth).Sound isA := by
  induction depth with
  | zero =>
      refine ⟨hmodel, fun _ _ => ?_⟩
      rename_i target _ _ _ _
      exact .bind (S := fun _ => False) (.throw fun _ => .recursionLimit target) fun _ hfalse =>
        hfalse.elim
  | succ depth ih =>
      refine ⟨hmodel, @fun site target schema x hschema hx => ?_⟩
      simp only [Run.inclusion, Shelf.interpreter, Shelf.opener, bind_assoc, pure_bind]
      cases hfind : shelf.find target with
      | error err =>
          obtain ⟨target', reason, rfl⟩ := h.missing hfind
          exact .bind (S := fun _ => False) (.throw fun _ => .unresolvedInclusion _ _)
            fun _ hfalse => hfalse.elim
      | ok t =>
          obtain ⟨checked, ht, rfl⟩ := h.found hfind hschema
          have hfound : Safe (· = t) (Run.given (.ok t) : Interp ρ Unit Template) := .pure rfl
          refine hfound.bind fun t' ht' => ?_
          subst ht'
          refine hx.bind fun args hargs => .adapt_inside _ ?_
          have hschema' : shelf.context.schemas target = some checked.schema := hschema
          obtain ⟨values, hvalues, hfit⟩ := bindArgs_fit ht.defaults_fit hargs
          rw [hschema', Option.getD_some, hvalues]
          have hbound : Safe (· = values) (Run.given (.ok values) : Interp ρ Unit _) := .pure rfl
          refine hbound.bind fun values' hvalues' => ?_
          subst hvalues'
          exact Template.safe_interpret ih ht hfit

variable {model : Model ρ} {root : ρ}

-- What a template means ends well, and so does what it logs.
theorem Shelf.InOrder.ends_meaning {shelf : Shelf} (h : shelf.InOrder) {t : Template}
    {checked : CheckedTemplate} (ht : t.Elaborates shelf.context checked)
    (hmodel : model.Conforms shelf.context.oracle isA)
    (hroot : model.Supplies isA root checked.schema.params) :
    Interp.Ends (fun _ => True) (shelf.meaning t checked.schema model root) := by
  have hsafe := Template.safe_interpretRoot (h.sound hmodel maxInclusionDepth) ht hroot
  exact hsafe (.start ⟨(), []⟩) fun o ho => nomatch ho

theorem Shelf.inOrder_bare (context : CheckContext) : (Shelf.bare context).InOrder where
  found h := nomatch h
  missing h := ⟨_, _, (Except.error.inj h).symm⟩

theorem Library.inOrder_shelf (lib : Library) : lib.shelf.InOrder where
  found := by
    intro name t schema hfind hschema
    cases hprogram : lib.program ⟨name, .text⟩ with
    | error e =>
        have hmissing := find_of_no_program hprogram
        rw [hfind] at hmissing
        cases hmissing
    | ok p =>
        obtain ⟨named, checked, hnamed, -, hcheck, hp⟩ := parts_of_program hprogram
        have hfound := find_of_program hprogram hnamed
        rw [hfind] at hfound
        obtain rfl := Except.ok.inj hfound
        have hp' := schemas_of_program hprogram
        rw [hp] at hp'
        exact ⟨checked, named.elaborates_of_check hcheck, Option.some.inj (hp'.symm.trans hschema)⟩
  missing := by
    intro name err hfind
    cases hprogram : lib.program ⟨name, .text⟩ with
    | error e =>
        have hmissing := find_of_no_program hprogram
        rw [hfind] at hmissing
        exact ⟨_, _, Except.error.inj hmissing⟩
    | ok p =>
        obtain ⟨named, checked, hnamed, -⟩ := parts_of_program hprogram
        have hfound := find_of_program hprogram hnamed
        rw [hfind] at hfound
        cases hfound

-- A template that stands alone.
theorem NamedTemplate.follows_of_compile {t : NamedTemplate} {context : CheckContext} {p : Program}
    {sink : Sink} (hp : t.compile context sink.mode = .ok p) (model : Model ρ) (root : ρ) :
    ∃ checked, t.template.Elaborates context checked ∧ checked.schema = p.schema ∧
      (render unlinked p model root sink ()).Follows sink.mode
        ((Shelf.bare context).meaning t.template p.schema model root) := by
  unfold compile at hp
  cases hcheck : t.check context with
  | error e =>
      rw [hcheck] at hp
      cases hp
  | ok checked =>
      rw [hcheck] at hp
      obtain rfl := Except.ok.inj hp
      have ht := t.elaborates_of_check hcheck
      have hmode : (unlinked.program (checked.program t.name sink.mode)).mode = sink.mode := rfl
      refine ⟨checked, ht, rfl, ?_⟩
      exact ((unlinked_serves context).render (K := fun _ => True) ⟨checked, ht, rfl⟩ trivial
        trivial hmode model root).1

theorem NamedTemplate.ends_of_compile {t : NamedTemplate} {context : CheckContext} {p : Program}
    {sink : Sink} (hp : t.compile context sink.mode = .ok p)
    (hmodel : model.Conforms context.oracle isA)
    (hroot : model.Supplies isA root p.schema.params) :
    let meaning := (Shelf.bare context).meaning t.template p.schema model root
    (render unlinked p model root sink ()).Follows sink.mode meaning ∧
      Interp.Ends (fun _ => True) meaning := by
  obtain ⟨checked, ht, hschema, hfollows⟩ := NamedTemplate.follows_of_compile hp model root
  have hends := (Shelf.inOrder_bare context).ends_meaning ht hmodel (hschema ▸ hroot)
  rw [hschema] at hends
  exact ⟨hfollows, hends⟩

-- A template served by a registry.
theorem Session.Reachable.follows_of_request {lib : Library} {s s' : Session} {name : String}
    {c : Compiled} {sink : Sink} (hs : Session.Reachable lib s)
    (hrequest : s.request (Workshop.getOrCompile ⟨name, sink.mode⟩) = (some (.ok c), s'))
    (model : Model ρ) (root : ρ) :
    ∃ t checked, lib.template name = .ok t ∧ t.template.Elaborates lib.shelf.context checked ∧
      checked.schema = c.program.schema ∧
      (s'.renderProgram c model root sink).Follows sink.mode
        (lib.shelf.meaning t.template c.program.schema model root) := by
  obtain ⟨t, checked, ht, hcheck, hprogram, hgives, hknows⟩ := hs.parts_of_request hrequest
  have hschema : c.program.schema = checked.schema := congrArg Program.schema hprogram
  have hmode : c.program.mode = sink.mode := congrArg Program.mode hprogram
  have hrender :=
    (Session.linker_serves lib).render (K := (· = c)) hgives rfl hknows hmode model root
  exact ⟨t, checked, ht, t.elaborates_of_check hcheck, hschema.symm, hrender.1⟩

theorem Session.Reachable.ends_of_request {lib : Library} {s s' : Session} {name : String}
    {c : Compiled} {sink : Sink} (hs : Session.Reachable lib s)
    (hrequest : s.request (Workshop.getOrCompile ⟨name, sink.mode⟩) = (some (.ok c), s'))
    (hmodel : model.Conforms lib.oracle isA)
    (hroot : model.Supplies isA root c.program.schema.params) :
    ∃ t, lib.template name = .ok t ∧
      let meaning := lib.shelf.meaning t.template c.program.schema model root
      (s'.renderProgram c model root sink).Follows sink.mode meaning ∧
        Interp.Ends (fun _ => True) meaning := by
  obtain ⟨t, checked, ht, helaborates, hschema, hfollows⟩ :=
    hs.follows_of_request hrequest model root
  have hends := lib.inOrder_shelf.ends_meaning helaborates hmodel (hschema ▸ hroot)
  rw [hschema] at hends
  exact ⟨t, ht, hfollows, hends⟩

-- A rendering follows a meaning, and where it fails, the error is accounted for by what was logged.
structure Rendering.Sound (r : Rendering ρ ω) (mode : Mode)
    (meaning : Except RenderError Unit × Effects ρ (Ledger ρ Unit)) : Prop where
  follows : r.Follows mode meaning
  sanctioned : ∀ err, r.outcome = .error err → err.Sanctioned meaning.2.links.operations

-- All records are persons.
def IsPerson (name : String) (_ : Nat) : Prop := name = "Person"

end Stencil
