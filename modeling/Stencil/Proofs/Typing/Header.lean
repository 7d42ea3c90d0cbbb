import Stencil.Compile
import Stencil.Proofs.Typing.Body

/-!
What checking a template says of its parameters and of its body.
-/

namespace Stencil

-- A parameter as the body sees it.
def Parameter.variable (p : Parameter) : Local := ⟨p.name, some p.type⟩

-- The names that the body of a template sees outside of all loops. The last parameter is innermost.
def Schema.scope (schema : Schema) : Scope := (schema.params.map Parameter.variable).reverse

-- A default can stand where the parameter is expected.
def Parameter.DefaultFits (p : Parameter) : Prop :=
  ∀ c, p.default = some c → ∃ type, c.type? = some type ∧ p.type.accepts type = true

-- What a declaration makes known: a parameter with its name, and the default that is written.
structure ParamDecl.Declares (oracle : Oracle) (decl : ParamDecl) (p : Parameter) : Prop where
  named : p.name = decl.name
  typed : decl.type.check oracle decl.span = pure (some p.type)
  default : p.default = decl.default.bind Expr.constant?
  default_fits : p.DefaultFits

theorem Schema.put_of_fresh {p : Parameter} {params : List Parameter}
    (h : ∀ q ∈ params, q.name ≠ p.name) : Schema.put p params = params ++ [p] := by
  induction params with
  | nil => rfl
  | cons q params ih =>
    have hq : q.name ≠ p.name := h q (by simp)
    simp [Schema.put, hq, ih fun r hr => h r (by simp [hr])]

theorem Expr.constant_of_checkDefault {e : Expr} {name : String} {type : Ty} {d : Option Constant}
    (h : e.checkDefault name type = pure d) :
    e.constant? = d ∧ ∃ c t, d = some c ∧ c.type? = some t ∧ type.accepts t = true := by
  unfold checkDefault at h
  split at h
  · next c hc =>
    obtain ⟨hconstant, hfits⟩ := Option.filter_eq_some_iff.mp hc
    obtain rfl : some c = d := Check.pure_eq_pure.mp h
    cases htype : c.type? with
    | none => simp [htype] at hfits
    | some t => exact ⟨hconstant, c, t, rfl, htype, by simpa [htype] using hfits⟩
  · simp at h

-- A type that passes its check is there.
theorem TypeExpr.check_ne_none {oracle : Oracle} {span : Span} (type : TypeExpr) :
    type.check oracle span ≠ pure none := by
  induction type with
  | named name =>
    unfold TypeExpr.check
    split
    · simp
    · split <;> simp
  | list element ih =>
    intro h
    obtain ⟨t, ht, h⟩ := Check.bind_eq_pure.mp h
    obtain rfl := Option.map_eq_none_iff.mp (Check.pure_eq_pure.mp h)
    exact ih ht

theorem Schema.params_of_insert {schema : Schema} {p : Parameter}
    (hfresh : ¬schema.scope.any (·.name == p.name) = true) :
    (schema.insert p).params = schema.params ++ [p] := by
  refine Schema.put_of_fresh fun q hq hname => hfresh ?_
  simp only [Schema.scope, List.any_reverse, List.any_map, List.any_eq_true]
  exact ⟨q, hq, by simpa [Parameter.variable] using hname⟩

theorem ParamDecl.declares_of_check {oracle : Oracle} {schema schema' : Schema}
    {scope' : Scope} {decl : ParamDecl}
    (h : decl.check oracle schema schema.scope = pure (schema', scope')) :
    ∃ p, decl.Declares oracle p ∧ schema'.params = schema.params ++ [p] ∧
      scope' = schema'.scope := by
  unfold ParamDecl.check at h
  split at h
  · obtain ⟨_, hcomplain, _⟩ := Check.bind_eq_pure.mp h
    simp at hcomplain
  · next hfresh =>
    obtain ⟨type, htype, h⟩ := Check.bind_eq_pure.mp h
    cases type with
    | none => exact absurd htype (TypeExpr.check_ne_none _)
    | some type =>
      -- What is left to show of a parameter, once its default is known.
      have hadded (p : Parameter) (hname : p.name = decl.name) (htyped : p.type = type)
          (h : (pure (schema.insert p, ⟨decl.name, some type⟩ :: schema.scope) : Check _) =
            pure (schema', scope')) :
          schema'.params = schema.params ++ [p] ∧ scope' = schema'.scope := by
        obtain ⟨rfl, rfl⟩ := Prod.mk.inj (Check.pure_eq_pure.mp h)
        have hparams := Schema.params_of_insert (hname ▸ hfresh)
        exact ⟨hparams, by simp [Schema.scope, hparams, Parameter.variable, hname, htyped]⟩
      cases hwritten : decl.default with
      | none =>
        simp only [hwritten] at h
        exact ⟨⟨decl.name, type, none⟩, ⟨rfl, htype, by simp [hwritten], fun c hc => nomatch hc⟩,
          hadded _ rfl rfl h⟩
      | some e =>
        simp only [hwritten] at h
        obtain ⟨default, hdefault, h⟩ := Check.bind_eq_pure.mp h
        obtain ⟨hconstant, c, t, rfl, ht, haccepts⟩ := Expr.constant_of_checkDefault hdefault
        refine ⟨⟨decl.name, type, some c⟩, ⟨rfl, htype, by simp [hwritten, hconstant], ?_⟩,
          hadded _ rfl rfl h⟩
        intro d hd
        obtain rfl := Option.some.inj hd
        exact ⟨t, ht, haccepts⟩

theorem ParamDecl.declares_of_checkAll {oracle : Oracle} {schema schema' : Schema}
    {scope' : Scope} {decls : List ParamDecl}
    (h : ParamDecl.checkAll oracle schema schema.scope decls = pure (schema', scope')) :
    ∃ params, List.Forall₂ (Declares oracle) decls params ∧
      schema'.params = schema.params ++ params ∧ scope' = schema'.scope := by
  induction decls generalizing schema with
  | nil =>
    obtain ⟨rfl, rfl⟩ : schema = schema' ∧ schema.scope = scope' := by
      simpa [ParamDecl.checkAll] using h
    exact ⟨[], .nil, by simp, rfl⟩
  | cons decl decls ih =>
    obtain ⟨⟨next, scope⟩, hfirst, hrest⟩ := Check.bind_eq_pure.mp h
    obtain ⟨p, hp, hnext, rfl⟩ := declares_of_check hfirst
    obtain ⟨params, hparams, hschema, hscope⟩ := ih hrest
    exact ⟨p :: params, .cons hp hparams, by simp [hschema, hnext], hscope⟩

-- A declaration is refused if another of its name stands before it.
theorem ParamDecl.fresh_of_check {oracle : Oracle} {schema schema' : Schema} {scope' : Scope}
    {decl : ParamDecl} (h : decl.check oracle schema schema.scope = pure (schema', scope')) :
    decl.name ∉ schema.params.map (·.name) := by
  unfold ParamDecl.check at h
  split at h
  · obtain ⟨_, hcomplain, _⟩ := Check.bind_eq_pure.mp h
    simp at hcomplain
  · next hfresh =>
    intro hmem
    obtain ⟨q, hq, hname⟩ := List.mem_map.mp hmem
    refine hfresh ?_
    simp only [Schema.scope, List.any_reverse, List.any_map, List.any_eq_true]
    exact ⟨q, hq, by simpa [Parameter.variable] using hname⟩

-- So no two parameters have one name.
theorem ParamDecl.distinct_of_checkAll {oracle : Oracle} {schema schema' : Schema}
    {scope' : Scope} {decls : List ParamDecl}
    (h : ParamDecl.checkAll oracle schema schema.scope decls = pure (schema', scope'))
    (hschema : (schema.params.map (·.name)).Nodup) : (schema'.params.map (·.name)).Nodup := by
  induction decls generalizing schema with
  | nil =>
    obtain ⟨rfl, -⟩ : schema = schema' ∧ schema.scope = scope' := by
      simpa [ParamDecl.checkAll] using h
    exact hschema
  | cons decl decls ih =>
    obtain ⟨⟨next, scope⟩, hfirst, hrest⟩ := Check.bind_eq_pure.mp h
    obtain ⟨p, hp, hnext, rfl⟩ := declares_of_check hfirst
    refine ih hrest ?_
    have hfresh := fresh_of_check hfirst
    rw [← hp.named] at hfresh
    rw [hnext, List.map_append, List.nodup_append]
    refine ⟨hschema, by simp, fun q hq r hr => ?_⟩
    rintro rfl
    obtain rfl : q = p.name := by simpa using hr
    exact hfresh hq

-- A template that passes: its parameters are the declared ones, and its body stands for statements
-- in their scope.
structure Template.Elaborates (context : CheckContext) (t : Template) (checked : CheckedTemplate) :
    Prop where
  params : List.Forall₂ (ParamDecl.Declares context.oracle) t.params checked.schema.params
  body : Node.ElaborateAll context checked.schema.scope t.body checked.body

theorem Template.check_of_bind {context : CheckContext} {source : String} {t : Template}
    {checked : CheckedTemplate} (h : t.bind context source = .ok checked) :
    t.check context = pure (some checked) := by
  unfold Template.bind at h
  split at h
  · next hcheck =>
    obtain rfl := Except.ok.inj h
    exact hcheck
  · cases h

theorem Template.header_of_check {context : CheckContext} {t : Template}
    {checked : CheckedTemplate} (h : t.check context = pure (some checked)) :
    t.checkHeader context.oracle = pure (checked.schema, checked.schema.scope) ∧
      t.Elaborates context checked := by
  obtain ⟨⟨schema, scope⟩, hheader, h⟩ := Check.bind_eq_pure.mp h
  obtain ⟨body, hbody, h⟩ := Check.bind_eq_pure.mp h
  obtain ⟨statements, rfl, rfl⟩ := Option.map_eq_some_iff.mp (Check.pure_eq_pure.mp h)
  have hempty : ParamDecl.checkAll context.oracle .empty Schema.empty.scope t.params =
      pure (schema, scope) := hheader
  obtain ⟨params, hparams, hschema, rfl⟩ := ParamDecl.declares_of_checkAll hempty
  obtain rfl : schema.params = params := by simpa [Schema.empty] using hschema
  exact ⟨hheader, hparams, Node.elaborateAll_of_checkAll t.body hbody⟩

theorem Template.distinct_of_check {context : CheckContext} {t : Template}
    {checked : CheckedTemplate} (h : t.check context = pure (some checked)) :
    (checked.schema.params.map (·.name)).Nodup := by
  obtain ⟨hheader, -⟩ := header_of_check h
  have hempty : ParamDecl.checkAll context.oracle .empty Schema.empty.scope t.params =
      pure (checked.schema, checked.schema.scope) := hheader
  exact ParamDecl.distinct_of_checkAll hempty List.nodup_nil

theorem Template.elaborates_of_bind {context : CheckContext} {source : String} {t : Template}
    {checked : CheckedTemplate} (h : t.bind context source = .ok checked) :
    t.Elaborates context checked := (header_of_check (check_of_bind h)).2

-- The header alone gives the same parameters.
theorem Template.schema_of_bind {context : CheckContext} {source : String} {t : Template}
    {checked : CheckedTemplate} (h : t.bind context source = .ok checked) :
    t.schema context.oracle source = .ok checked.schema := by
  have hheader := (header_of_check (check_of_bind h)).1
  simp only [Template.schema, hheader]
  rfl

namespace NamedTemplate

variable {context : CheckContext} {t : NamedTemplate} {checked : CheckedTemplate}

theorem bind_of_check (h : t.check context = .ok checked) :
    t.template.bind context t.source = .ok checked := by
  unfold check at h
  cases hbind : t.template.bind context t.source with
  | error e =>
      rw [hbind] at h
      cases h
  | ok checked' =>
      rw [hbind] at h
      exact congrArg Except.ok (Except.ok.inj h)

theorem elaborates_of_check (h : t.check context = .ok checked) :
    t.template.Elaborates context checked :=
  Template.elaborates_of_bind (bind_of_check h)

theorem distinct_of_check (h : t.check context = .ok checked) :
    (checked.schema.params.map (·.name)).Nodup :=
  Template.distinct_of_check (Template.check_of_bind (t.bind_of_check h))

theorem schema_of_check (h : t.check context = .ok checked) :
    t.schema context.oracle = .ok checked.schema := by
  rw [schema, Template.schema_of_bind (bind_of_check h)]
  rfl

end NamedTemplate

end Stencil
