import Stencil.Proofs.Number.Words
import Stencil.Proofs.Typing.Header
import Stencil.Proofs.Typing.Principal

/-!
Checking a header decides the rules for it: known types, distinct names, and defaults that are
constants of a type below the declared one.
-/

namespace Stencil

theorem TypeExpr.denotes_iff {oracle : Oracle} {span : Span} {type : TypeExpr} {τ : Ty} :
    type.Denotes oracle τ ↔ type.check oracle span = pure (some τ) := by
  constructor
  · intro h
    induction h with
    | bool | int | float | text => rfl
    | @record name other known =>
      have hnone : Ty.primitive? name = none := by
        unfold Ty.primitive?
        split <;> simp_all
      simp [TypeExpr.check, hnone, known]
    | list _ ih => exact Check.bind_eq_pure.mpr ⟨_, ih, rfl⟩
  · intro h
    induction type generalizing τ with
    | named name =>
      simp only [TypeExpr.check] at h
      split at h
      · next type hprimitive =>
        obtain rfl : type = τ := Option.some.inj (Check.pure_eq_pure.mp h)
        unfold Ty.primitive? at hprimitive
        split at hprimitive <;> first | cases hprimitive; constructor | cases hprimitive
      · next hnone =>
        split at h
        · next known =>
          obtain rfl : Ty.record name = τ := Option.some.inj (Check.pure_eq_pure.mp h)
          refine .record (fun hmem => ?_) known
          simp only [List.mem_cons, List.not_mem_nil, or_false] at hmem
          obtain rfl | rfl | rfl | rfl := hmem <;> cases hnone
        · simp at h
    | list element ih =>
      obtain ⟨found, hfound, h⟩ := Check.bind_eq_pure.mp h
      obtain ⟨σ, rfl, rfl⟩ := Option.map_eq_some_iff.mp (Check.pure_eq_pure.mp h)
      exact .list (ih hfound)

theorem Expr.exists_constants_iff {es : List Expr} :
    (∃ cs, Expr.constants? es = some cs) ↔ ∀ e ∈ es, ∃ c, e.constant? = some c := by
  induction es with
  | nil => simp [Expr.constants?]
  | cons e es ih =>
    rw [List.forall_mem_cons, ← ih]
    constructor
    · rintro ⟨cs, h⟩
      obtain ⟨c, hc, h⟩ := Option.bind_eq_some_iff.mp h
      obtain ⟨cs, hcs, h⟩ := Option.bind_eq_some_iff.mp h
      exact ⟨⟨c, hc⟩, cs, hcs⟩
    · rintro ⟨⟨c, hc⟩, cs, hcs⟩
      exact ⟨c :: cs, Option.bind_eq_some_iff.mpr
        ⟨c, hc, Option.bind_eq_some_iff.mpr ⟨cs, hcs, rfl⟩⟩⟩

theorem Expr.constant_of_isConstant {e : Expr} (h : e.IsConstant) : ∃ c, e.constant? = some c := by
  induction h with
  | literal m value => exact ⟨.literal value, by simp [constant?]⟩
  | list _ ih =>
    obtain ⟨cs, hcs⟩ := exists_constants_iff.mpr ih
    exact ⟨.list cs, by simp [constant?, hcs]⟩
  | negatedInt word =>
    obtain ⟨w, hw⟩ := Number.isWord_iff.mp word
    exact ⟨.literal (.int w), by simp [constant?, hw]⟩
  | negatedFloat m m' x => exact ⟨.literal (.float (-x)), by simp [constant?]⟩

-- How a constant is read from an expression, by cases.
inductive Expr.Reads : Expr → Constant → Prop
  | literal (m : Mark) (value : Literal) : Reads (.literal m value) (.literal value)
  | list {m : Mark} {items : List Expr} {cs : List Constant}
      (items_read : Expr.constants? items = some cs) : Reads (.list m items) (.list cs)
  | negatedInt {m m' : Mark} {n w : Int64} (word : Number.word? (-n.toInt) = some w) :
    Reads (.unary m .negate (.literal m' (.int n))) (.literal (.int w))
  | negatedFloat (m m' : Mark) (x : Float) :
    Reads (.unary m .negate (.literal m' (.float x))) (.literal (.float (-x)))

theorem Expr.reads_of_constant {e : Expr} {c : Constant} (h : e.constant? = some c) :
    e.Reads c := by
  unfold constant? at h
  split at h
  · obtain rfl := Option.some.inj h
    exact .literal _ _
  · obtain ⟨cs, hcs, rfl⟩ := Option.map_eq_some_iff.mp h
    exact .list hcs
  · obtain ⟨w, hw, rfl⟩ := Option.map_eq_some_iff.mp h
    exact .negatedInt hw
  · obtain rfl := Option.some.inj h
    exact .negatedFloat _ _ _
  · cases h

theorem Constant.elementType?_eq_some_iff {t u : Ty} {cs : List Constant} :
    Constant.elementType? t cs = some u ↔
      ∃ σs, List.Forall₂ (fun (c : Constant) σ => c.type? = some σ) cs σs ∧
        σs.foldlM Ty.unify t = some u := by
  induction cs generalizing t with
  | nil => simp [elementType?]
  | cons c cs ih =>
    constructor
    · intro h
      obtain ⟨σ, hσ, h⟩ := Option.bind_eq_some_iff.mp h
      obtain ⟨v, hv, h⟩ := Option.bind_eq_some_iff.mp h
      obtain ⟨σs, hσs, hfold⟩ := ih.mp h
      refine ⟨σ :: σs, .cons hσ hσs, ?_⟩
      rw [List.foldlM_cons]
      exact Option.bind_eq_some_iff.mpr ⟨v, hv, hfold⟩
    · rintro ⟨_, hσs, hfold⟩
      obtain ⟨σ, rest, hσ, hrest, rfl⟩ := List.forall₂_cons_left_iff.mp hσs
      rw [List.foldlM_cons] at hfold
      obtain ⟨v, hv, hfold⟩ := Option.bind_eq_some_iff.mp hfold
      exact Option.bind_eq_some_iff.mpr
        ⟨σ, hσ, Option.bind_eq_some_iff.mpr ⟨v, hv, ih.mpr ⟨rest, hrest, hfold⟩⟩⟩

namespace Expr

mutual

theorem isConstant_of_constant : ∀ (e : Expr) {c : Constant}, e.constant? = some c → e.IsConstant
  | .literal m value, _, _ => .literal m value
  | .list m items, _, h => by
    cases reads_of_constant h with
    | list items_read => exact .list (areConstant_of_constants items items_read)
  | .unary m op operand, _, h => by
    cases reads_of_constant h with
    | negatedInt word => exact .negatedInt (Number.isWord_iff.mpr ⟨_, word⟩)
    | negatedFloat m m' x => exact .negatedFloat m m' x
  | .name _ _, _, h | .member _ _ _, _, h | .call _ _ _ _, _, h | .binary _ _ _ _, _, h => by
    cases reads_of_constant h

theorem areConstant_of_constants : ∀ (es : List Expr) {cs : List Constant},
    constants? es = some cs → ∀ e ∈ es, e.IsConstant
  | [], _, _ => by simp
  | e :: es, _, h => by
    obtain ⟨c, hc, h⟩ := Option.bind_eq_some_iff.mp h
    obtain ⟨cs, hcs, -⟩ := Option.bind_eq_some_iff.mp h
    exact List.forall_mem_cons.mpr
      ⟨isConstant_of_constant e hc, areConstant_of_constants es hcs⟩

end

variable {oracle : Oracle} {Γ : Context}

mutual

-- A constant has the types of the expression that it is read from.
theorem type_of_constant : ∀ (e : Expr) {c : Constant} {τ : Ty}, e.constant? = some c →
    (c.type? = some τ ↔ e.HasType oracle Γ τ)
  | .literal m value, c, τ, h => by
    obtain rfl : .literal value = c := by simpa [constant?] using h
    rw [Constant.type?, Option.some.injEq, ← Literal.hasType_iff]
    constructor
    · exact .literal
    · rintro ⟨typed⟩
      exact typed
  | .list m items, c, τ, h => by
    obtain ⟨cs, hcs, rfl⟩ : ∃ cs, constants? items = some cs ∧ .list cs = c := by
      simpa [constant?] using h
    constructor
    · intro htype
      obtain ⟨u, hu, rfl⟩ : ∃ u, Constant.elementType? .null cs = some u ∧ .list u = τ := by
        simpa [Constant.type?] using htype
      obtain ⟨σs, hσs, hfold⟩ := Constant.elementType?_eq_some_iff.mp hu
      exact .list ((types_of_constants items hcs).mp hσs) (Ty.join_eq_some_iff.mp hfold)
    · rintro (_ | _ | ⟨items_typed, least⟩)
      have hσs := (types_of_constants items hcs).mpr items_typed
      have helement := Constant.elementType?_eq_some_iff.mpr
        ⟨_, hσs, Ty.join_eq_some_iff.mpr least⟩
      simp [Constant.type?, helement]
  | .unary m op operand, c, τ, h => by
    cases reads_of_constant h with
    | negatedInt word =>
      constructor
      · intro htype
        obtain rfl : .int = τ := by simpa [Constant.type?, Literal.type] using htype
        exact .unary (.literal (.int _)) (.negate .int)
      · rintro (_ | _ | _ | _ | _ | _ | ⟨⟨⟨⟩⟩, ⟨⟩⟩)
        rfl
    | negatedFloat m m' x =>
      constructor
      · intro htype
        obtain rfl : .float = τ := by simpa [Constant.type?, Literal.type] using htype
        exact .unary (.literal (.float _)) (.negate .float)
      · rintro (_ | _ | _ | _ | _ | _ | ⟨⟨⟨⟩⟩, ⟨⟩⟩)
        rfl
  | .name _ _, _, _, h | .member _ _ _, _, _, h | .call _ _ _ _, _, _, h
  | .binary _ _ _ _, _, _, h => by cases reads_of_constant h

theorem types_of_constants : ∀ (es : List Expr) {cs : List Constant} {τs : List Ty},
    constants? es = some cs →
      (List.Forall₂ (fun (c : Constant) σ => c.type? = some σ) cs τs ↔ HaveTypes oracle Γ es τs)
  | [], cs, τs, h => by
    obtain rfl : [] = cs := by simpa [constants?] using h
    rw [List.forall₂_nil_left_iff]
    constructor
    · rintro rfl
      exact .nil
    · rintro ⟨⟩
      rfl
  | e :: es, _, τs, h => by
    obtain ⟨c, hc, h⟩ := Option.bind_eq_some_iff.mp h
    obtain ⟨cs, hcs, h⟩ := Option.bind_eq_some_iff.mp h
    obtain rfl := Option.some.inj h
    constructor
    · intro htypes
      obtain ⟨τ, τs, hτ, hτs, rfl⟩ := List.forall₂_cons_left_iff.mp htypes
      exact .cons ((type_of_constant e hc).mp hτ) ((types_of_constants es hcs).mp hτs)
    · rintro (_ | ⟨first, rest⟩)
      exact .cons ((type_of_constant e hc).mpr first) ((types_of_constants es hcs).mpr rest)

end

theorem checkDefault_iff {e : Expr} {name : String} {τ : Ty} :
    (∃ d, e.checkDefault name τ = pure d) ↔ e.IsDefault oracle τ := by
  constructor
  · rintro ⟨d, h⟩
    obtain ⟨hconstant, c, σ, rfl, hσ, haccepts⟩ := constant_of_checkDefault h
    exact ⟨isConstant_of_constant e hconstant, σ, Ty.accepts_iff_le.mp haccepts,
      (type_of_constant e hconstant).mp hσ⟩
  · rintro ⟨hconstant, σ, hle, hσ⟩
    obtain ⟨c, hc⟩ := constant_of_isConstant hconstant
    have htype : c.type? = some σ := (type_of_constant e hc).mpr hσ
    have hfits : e.constant?.filter (fun c => c.type?.any τ.accepts) = some c := by
      simp [hc, htype, Ty.accepts_iff_le.mpr hle]
    exact ⟨some c, by simp [checkDefault, hfits]⟩

end Expr

-- What a schema makes known, the last parameter innermost.
def Schema.context (schema : Schema) : Context :=
  (schema.params.map fun p => (p.name, p.type)).reverse

theorem Schema.scope_context (schema : Schema) :
    Context.scope schema.context = schema.scope := by
  simp only [Schema.context, Schema.scope, Context.scope, List.map_reverse, List.map_map]
  rfl

namespace ParamDecl

variable {oracle : Oracle}

theorem hasType_of_check {schema schema' : Schema} {scope' : Scope} {decl : ParamDecl}
    {p : Parameter} (hp : decl.Declares oracle p)
    (h : decl.check oracle schema schema.scope = pure (schema', scope')) :
    decl.HasType oracle p.type := by
  refine ⟨TypeExpr.denotes_iff.mpr hp.typed, fun e he => ?_⟩
  unfold ParamDecl.check at h
  split at h
  · obtain ⟨_, hcomplain, _⟩ := Check.bind_eq_pure.mp h
    simp at hcomplain
  · obtain ⟨type, htype, h⟩ := Check.bind_eq_pure.mp h
    obtain rfl : some p.type = type := Check.pure_eq_pure.mp (hp.typed.symm.trans htype)
    simp only [he] at h
    obtain ⟨d, hd, -⟩ := Check.bind_eq_pure.mp h
    exact Expr.checkDefault_iff.mp ⟨d, hd⟩

theorem hasType_of_checkAll {schema schema' : Schema} {scope' : Scope} {decls : List ParamDecl}
    (h : ParamDecl.checkAll oracle schema schema.scope decls = pure (schema', scope')) :
    ∃ params, schema'.params = schema.params ++ params ∧
      List.Forall₂ (fun decl p => p.name = decl.name ∧ decl.HasType oracle p.type)
        decls params := by
  induction decls generalizing schema with
  | nil =>
    obtain ⟨rfl, -⟩ : schema = schema' ∧ schema.scope = scope' := by
      simpa [ParamDecl.checkAll] using h
    exact ⟨[], by simp, .nil⟩
  | cons decl decls ih =>
    obtain ⟨⟨next, scope⟩, hfirst, hrest⟩ := Check.bind_eq_pure.mp h
    obtain ⟨p, hp, hnext, rfl⟩ := declares_of_check hfirst
    obtain ⟨params, hschema, hparams⟩ := ih hrest
    exact ⟨p :: params, by simp [hschema, hnext],
      .cons ⟨hp.named, hasType_of_check hp hfirst⟩ hparams⟩

theorem check_of_hasType {schema : Schema} {scope : Scope} {decl : ParamDecl} {τ : Ty}
    (hfresh : ∀ l ∈ scope, l.name ≠ decl.name) (h : decl.HasType oracle τ) :
    ∃ schema', decl.check oracle schema scope =
      pure (schema', ⟨decl.name, some τ⟩ :: scope) := by
  have hnot : ¬scope.any (·.name == decl.name) = true := by
    simpa using hfresh
  have htype : decl.type.check oracle decl.span = pure (some τ) :=
    TypeExpr.denotes_iff.mp h.denotes
  unfold ParamDecl.check
  rw [if_neg hnot]
  cases hdefault : decl.default with
  | none =>
    exact ⟨_, Check.bind_eq_pure.mpr ⟨some τ, htype, rfl⟩⟩
  | some e =>
    obtain ⟨d, hd⟩ := Expr.checkDefault_iff.mpr (h.default e hdefault)
    exact ⟨_, Check.bind_eq_pure.mpr
      ⟨some τ, htype, Check.bind_eq_pure.mpr ⟨d, hd, rfl⟩⟩⟩

theorem checkAll_of_hasType {schema : Schema} {scope : Scope} {decls : List ParamDecl}
    {vars : List (String × Ty)} (hdistinct : (decls.map ParamDecl.name).Nodup)
    (hfresh : ∀ decl ∈ decls, ∀ l ∈ scope, l.name ≠ decl.name)
    (h : List.Forall₂ (fun decl var => var.1 = decl.name ∧ decl.HasType oracle var.2)
      decls vars) :
    ∃ schema', ParamDecl.checkAll oracle schema scope decls =
      pure (schema', Context.scope vars.reverse ++ scope) := by
  induction h generalizing schema scope with
  | nil => exact ⟨schema, rfl⟩
  | @cons decl var decls vars hfirst _ ih =>
    obtain ⟨x, τ⟩ := var
    obtain ⟨rfl, hτ⟩ := hfirst
    obtain ⟨hnot, hdistinct⟩ := List.nodup_cons.mp hdistinct
    obtain ⟨next, hnext⟩ := check_of_hasType (hfresh decl List.mem_cons_self) hτ
    have hlater : ∀ other ∈ decls, ∀ l ∈ (⟨decl.name, some τ⟩ :: scope : Scope),
        l.name ≠ other.name := by
      intro other hother l hl
      obtain rfl | hl := List.mem_cons.mp hl
      · exact fun hname => hnot (List.mem_map.mpr ⟨other, hother, hname.symm⟩)
      · exact hfresh other (List.mem_cons_of_mem decl hother) l hl
    obtain ⟨schema', hrest⟩ := ih hdistinct hlater
    refine ⟨schema', Check.bind_eq_pure.mpr ⟨_, hnext, ?_⟩⟩
    simpa [Context.scope] using hrest

end ParamDecl

-- A header passes just if it follows the rules, and then the body sees what it declares.
theorem Template.declares_of_checkHeader {oracle : Oracle} {t : Template} {schema : Schema}
    {scope : Scope} (h : t.checkHeader oracle = pure (schema, scope)) :
    t.Declares oracle schema.context ∧ scope = Context.scope schema.context := by
  have hempty : ParamDecl.checkAll oracle .empty Schema.empty.scope t.params =
      pure (schema, scope) := h
  obtain ⟨params, hparams, htyped⟩ := ParamDecl.hasType_of_checkAll hempty
  obtain rfl : schema.params = params := by simpa [Schema.empty] using hparams
  obtain ⟨_, -, -, hscope⟩ := ParamDecl.declares_of_checkAll hempty
  have hdistinct := ParamDecl.distinct_of_checkAll hempty List.nodup_nil
  have hnames : t.params.map ParamDecl.name = schema.params.map (·.name) := by
    refine List.forall₂_eq_eq_eq ▸ ?_
    rw [List.forall₂_map_left_iff, List.forall₂_map_right_iff]
    exact htyped.imp fun _ _ hp => hp.1.symm
  refine ⟨⟨hnames ▸ hdistinct, ?_⟩, hscope.trans schema.scope_context.symm⟩
  rw [Schema.context, List.reverse_reverse, List.forall₂_map_right_iff]
  exact htyped

theorem Template.checkHeader_of_declares {oracle : Oracle} {t : Template} {Γ : Context}
    (h : t.Declares oracle Γ) : ∃ schema, t.checkHeader oracle = pure (schema, Γ.scope) := by
  obtain ⟨schema, hschema⟩ : ∃ schema, ParamDecl.checkAll oracle .empty [] t.params =
      pure (schema, Context.scope Γ.reverse.reverse ++ []) :=
    ParamDecl.checkAll_of_hasType h.distinct (by simp) h.typed
  rw [List.reverse_reverse, List.append_nil] at hschema
  exact ⟨schema, hschema⟩

end Stencil
