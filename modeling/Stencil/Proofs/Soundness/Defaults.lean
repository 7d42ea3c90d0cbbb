import Stencil.Proofs.Soundness.Conformance
import Stencil.Proofs.Typing.Declared
import Stencil.Proofs.Typing.Recorded

/-!
Defaults of parameters. A default is checked by the type that is inferred for it, which comes to the
same as looking into the constant: it passes just if the constant fits the declared type all the way
down.
-/

namespace Stencil

mutual

-- The constant that an expression stands for by itself: a literal for its value, a negated number
-- for its negation, if that is a number, and a list for what its items stand for.
inductive Expr.Denotes : Expr → Constant → Prop
  | literal (m : Mark) (value : Literal) : Denotes (.literal m value) (.literal value)
  | negatedInt {m m' : Mark} {n w : Int64} (exact : w.toInt = -n.toInt) :
    Denotes (.unary m .negate (.literal m' (.int n))) (.literal (.int w))
  | negatedFloat (m m' : Mark) (x : Float) :
    Denotes (.unary m .negate (.literal m' (.float x))) (.literal (.float (-x)))
  | list {m : Mark} {items : List Expr} {cs : List Constant}
    (items_denote : Expr.DenoteAll items cs) : Denotes (.list m items) (.list cs)

inductive Expr.DenoteAll : List Expr → List Constant → Prop
  | nil : DenoteAll [] []
  | cons {e : Expr} {es : List Expr} {c : Constant} {cs : List Constant} (first : Expr.Denotes e c)
    (rest : DenoteAll es cs) : DenoteAll (e :: es) (c :: cs)

end

theorem Number.word?_eq_some_iff {n : Int} {w : Int64} : word? n = some w ↔ w.toInt = n :=
  ⟨toInt_of_word?, by rintro rfl; exact word?_toInt w⟩

namespace Expr

mutual

theorem denotes_of_constant : ∀ (e : Expr) {c : Constant}, e.constant? = some c → e.Denotes c
  | .literal m value, _, h => by
    cases reads_of_constant h
    exact .literal m value
  | .list m items, _, h => by
    cases reads_of_constant h with
    | list items_read => exact .list (denoteAll_of_constants items items_read)
  | .unary m op operand, _, h => by
    cases reads_of_constant h with
    | negatedInt word => exact .negatedInt (Number.word?_eq_some_iff.mp word)
    | negatedFloat m m' x => exact .negatedFloat m m' x
  | .name _ _, _, h | .member _ _ _, _, h | .call _ _ _ _, _, h | .binary _ _ _ _, _, h => by
    cases reads_of_constant h

theorem denoteAll_of_constants : ∀ (es : List Expr) {cs : List Constant},
    constants? es = some cs → DenoteAll es cs
  | [], _, h => by
    obtain rfl := Option.some.inj h
    exact .nil
  | e :: es, _, h => by
    obtain ⟨c, hc, h⟩ := Option.bind_eq_some_iff.mp h
    obtain ⟨cs, hcs, h⟩ := Option.bind_eq_some_iff.mp h
    obtain rfl := Option.some.inj h
    exact .cons (denotes_of_constant e hc) (denoteAll_of_constants es hcs)

end

mutual

theorem constant_of_denotes : ∀ {e : Expr} {c : Constant}, e.Denotes c → e.constant? = some c
  | _, _, .literal m value => by rw [constant?]
  | _, _, .negatedInt exact => by
    rw [constant?, Number.word?_eq_some_iff.mpr exact]
    rfl
  | _, _, .negatedFloat m m' x => by rw [constant?]
  | _, _, .list items_denote => by
    rw [constant?, constants_of_denoteAll items_denote]
    rfl

theorem constants_of_denoteAll : ∀ {es : List Expr} {cs : List Constant},
    DenoteAll es cs → constants? es = some cs
  | _, _, .nil => rfl
  | _, _, .cons first rest => by
    rw [constants?, constant_of_denotes first, constants_of_denoteAll rest]
    rfl

end

theorem denotes_iff {e : Expr} {c : Constant} : e.Denotes c ↔ e.constant? = some c :=
  ⟨constant_of_denotes, denotes_of_constant e⟩

end Expr

namespace Constant

variable {ρ : Type} {isA : String → ρ → Prop}

mutual

-- A constant that fits a type has a type of its own, below that one.
theorem exists_type_of_fits : ∀ {c : Constant} {τ : Ty}, (c.value : Value ρ).Fits isA τ →
    ∃ σ, c.type? = some σ ∧ σ ≤ τ
  | .literal l, τ, h => by
    refine ⟨l.type, by rw [type?], ?_⟩
    cases l <;> cases h <;> constructor
  | .list items, τ, h => by
    cases h with
    | list items_fit =>
      obtain ⟨σs, hσs, hle⟩ := exists_types_of_fit items_fit
      obtain ⟨σ, hσ, hσle⟩ := Ty.exists_foldlM_unify_of_le (Ty.Sub.null _) hle
      have helement := elementType?_eq_some_iff.mpr ⟨σs, hσs, hσ⟩
      refine ⟨.list σ, ?_, Ty.Sub.list hσle⟩
      rw [type?, helement]
      rfl

theorem exists_types_of_fit : ∀ {cs : List Constant} {τ : Ty},
    (∀ v ∈ (Constant.values cs : List (Value ρ)), v.Fits isA τ) →
      ∃ σs, List.Forall₂ (fun (c : Constant) σ => c.type? = some σ) cs σs ∧ ∀ σ ∈ σs, σ ≤ τ
  | [], _, _ => ⟨[], .nil, by simp⟩
  | c :: cs, _, h => by
    obtain ⟨hc, hcs⟩ := List.forall_mem_cons.mp h
    obtain ⟨σ, hσ, hle⟩ := exists_type_of_fits hc
    obtain ⟨σs, hσs, hles⟩ := exists_types_of_fit hcs
    exact ⟨σ :: σs, .cons hσ hσs, List.forall_mem_cons.mpr ⟨hle, hles⟩⟩

end

-- The inferred type is accepted just if the constant itself fits.
theorem accepted_iff_fits {c : Constant} {τ : Ty} :
    c.type?.any τ.accepts = true ↔ (c.value : Value ρ).Fits isA τ := by
  constructor
  · intro h
    obtain ⟨σ, hσ, haccepts⟩ := (Option.any_eq_true _ _).mp h
    exact (Value.fits_constant hσ).of_accepts haccepts
  · intro h
    obtain ⟨σ, hσ, hle⟩ := exists_type_of_fits h
    exact (Option.any_eq_true _ _).mpr ⟨σ, hσ, Ty.accepts_iff_le.mpr hle⟩

end Constant

variable {ρ : Type} {isA : String → ρ → Prop} {oracle : Oracle}

-- A default is taken as the constant that it stands for where that fits, and refused elsewhere.
theorem Expr.checkDefault_cases (isA : String → ρ → Prop) (e : Expr) (name : String) (τ : Ty) :
    (∃ c, e.Denotes c ∧ (c.value : Value ρ).Fits isA τ ∧ e.checkDefault name τ = pure (some c)) ∨
      (¬∃ c, e.Denotes c ∧ (c.value : Value ρ).Fits isA τ) ∧
        e.checkDefault name τ = Check.reject (.invalidDefault name τ) e.span := by
  unfold checkDefault
  split
  · next c hc =>
    obtain ⟨hconstant, haccepted⟩ := Option.filter_eq_some_iff.mp hc
    exact .inl ⟨c, denotes_iff.mpr hconstant, Constant.accepted_iff_fits.mp haccepted, rfl⟩
  · next hnone =>
    refine .inr ⟨?_, rfl⟩
    rintro ⟨c, hdenotes, hfits⟩
    have hsome : e.constant?.filter (fun c => c.type?.any τ.accepts) = some c :=
      Option.filter_eq_some_iff.mpr
        ⟨denotes_iff.mp hdenotes, Constant.accepted_iff_fits.mpr hfits⟩
    cases hnone.symm.trans hsome

theorem Expr.problem_of_checkDefault {e : Expr} {name : String} {τ : Ty} {c : Complaint}
    (hc : c ∈ (e.checkDefault name τ).complaints) : c.problem = .invalidDefault name τ := by
  unfold checkDefault at hc
  split at hc
  · cases hc
  · obtain rfl := List.mem_singleton.mp hc
    rfl

namespace Schema

theorem find?_put (p : Parameter) (name : String) (params : List Parameter) :
    (put p params).find? (·.name == name) =
      if p.name = name then some p else params.find? (·.name == name) := by
  induction params with
  | nil => by_cases hp : p.name = name <;> simp [put, hp]
  | cons q params ih =>
    unfold put
    split
    · next hq => by_cases hp : p.name = name <;> simp [hq, hp]
    · next hq =>
      by_cases hname : q.name = name
      · have hp : p.name ≠ name := fun hp => hq (hname.trans hp.symm)
        simp [hname, hp]
      · simpa [hname, List.find?_cons] using ih

-- The parameter of a name is the first that has it.
theorem map_snd_get? (schema : Schema) (name : String) :
    (schema.get? name).map Prod.snd = schema.params.find? (·.name == name) := by
  unfold get?
  rw [List.find?_eq_getElem?_findIdx, List.findIdx?_eq_guard_findIdx_lt]
  by_cases h : schema.params.findIdx (·.name == name) < schema.params.length <;>
    simp [Option.guard, h]

end Schema

-- A written type stands for a type, or a name in it is not known.
theorem TypeExpr.check_cases (oracle : Oracle) (span : Span) (type : TypeExpr) :
    (∃ τ, type.Denotes oracle τ ∧ type.check oracle span = pure (some τ)) ∨
      ∃ name, type.check oracle span = Check.reject (.unknownType name) span := by
  induction type with
  | named name =>
    by_cases hknown : ∃ τ, (TypeExpr.named name).Denotes oracle τ
    · obtain ⟨τ, hτ⟩ := hknown
      exact .inl ⟨τ, hτ, TypeExpr.denotes_iff.mp hτ⟩
    · refine .inr ⟨name, ?_⟩
      have hnot (τ : Ty) : (TypeExpr.named name).check oracle span ≠ pure (some τ) := fun h =>
        hknown ⟨τ, TypeExpr.denotes_iff.mpr h⟩
      unfold TypeExpr.check at hnot ⊢
      split
      · next τ hprimitive =>
        rw [hprimitive] at hnot
        exact absurd rfl (hnot τ)
      · next hprimitive =>
        rw [hprimitive] at hnot
        split
        · next htype => exact absurd (if_pos htype) (hnot (.record name))
        · rfl
  | list element ih =>
    rcases ih with ⟨τ, hτ, hcheck⟩ | ⟨name, hcheck⟩
    · refine .inl ⟨.list τ, .list hτ, ?_⟩
      rw [check, hcheck]
      rfl
    · refine .inr ⟨name, ?_⟩
      rw [check, hcheck]
      rfl

namespace ParamDecl

-- The default of a declaration, checked against its type.
def checkedDefault (decl : ParamDecl) (τ : Ty) : Check (Option Constant) :=
  match decl.default with
  | none => pure none
  | some e => e.checkDefault decl.name τ

-- All that checking a declaration can come to. A name that is known already is left alone, and a
-- declaration of an unknown type only takes its name.
inductive Outcome (oracle : Oracle) (schema : Schema) (scope : Scope) (decl : ParamDecl) :
    Check (Schema × Scope) → Prop
  | duplicate (known : ∃ l ∈ scope, l.name = decl.name) :
    Outcome oracle schema scope decl
      ⟨[⟨.duplicateParameter decl.name, decl.span⟩], (schema, scope)⟩
  | untyped {unknown : String} (fresh : ∀ l ∈ scope, l.name ≠ decl.name) :
    Outcome oracle schema scope decl
      ⟨[⟨.unknownType unknown, decl.span⟩], (schema, ⟨decl.name, none⟩ :: scope)⟩
  | typed {τ : Ty} (fresh : ∀ l ∈ scope, l.name ≠ decl.name)
    (denotes : decl.type.Denotes oracle τ) :
    Outcome oracle schema scope decl
      ⟨(decl.checkedDefault τ).complaints,
        (schema.insert ⟨decl.name, τ, (decl.checkedDefault τ).result⟩,
          ⟨decl.name, some τ⟩ :: scope)⟩

theorem check_of_denotes {schema : Schema} {scope : Scope} {decl : ParamDecl} {τ : Ty}
    (hfresh : ∀ l ∈ scope, l.name ≠ decl.name) (hdenotes : decl.type.Denotes oracle τ) :
    decl.check oracle schema scope =
      ⟨(decl.checkedDefault τ).complaints,
        (schema.insert ⟨decl.name, τ, (decl.checkedDefault τ).result⟩,
          ⟨decl.name, some τ⟩ :: scope)⟩ := by
  have hnot : ¬scope.any (·.name == decl.name) = true := by simpa using hfresh
  unfold ParamDecl.check checkedDefault
  rw [if_neg hnot, TypeExpr.denotes_iff.mp hdenotes]
  refine Eq.trans ?_ (congrArg (Check.mk · _) (List.append_nil _))
  cases decl.default <;> rfl

theorem outcome_check (oracle : Oracle) (schema : Schema) (scope : Scope) (decl : ParamDecl) :
    Outcome oracle schema scope decl (decl.check oracle schema scope) := by
  by_cases hknown : scope.any (·.name == decl.name) = true
  · unfold ParamDecl.check
    rw [if_pos hknown]
    exact .duplicate (by simpa using hknown)
  · have hfresh : ∀ l ∈ scope, l.name ≠ decl.name := by simpa using hknown
    rcases decl.type.check_cases oracle decl.span with ⟨τ, hτ, -⟩ | ⟨unknown, hcheck⟩
    · rw [check_of_denotes hfresh hτ]
      exact .typed hfresh hτ
    · unfold ParamDecl.check
      rw [if_neg hknown, hcheck]
      exact .untyped hfresh

variable {schema : Schema} {scope : Scope}

-- The header in two halves.
theorem checkAll_append (decls others : List ParamDecl) :
    checkAll oracle schema scope (decls ++ others) =
      checkAll oracle schema scope decls >>= fun checked =>
        checkAll oracle checked.1 checked.2 others := by
  induction decls generalizing schema scope with
  | nil => rfl
  | cons decl decls ih =>
    simp only [List.cons_append, checkAll, Check.bind_assoc]
    exact Check.bind_congr fun checked => ih

-- A declaration makes its own name known.
theorem known_of_check (oracle : Oracle) (schema : Schema) (scope : Scope) (decl : ParamDecl)
    (name : String) : (∃ l ∈ (decl.check oracle schema scope).result.2, l.name = name) ↔
      (∃ l ∈ scope, l.name = name) ∨ decl.name = name := by
  have houtcome := outcome_check oracle schema scope decl
  generalize decl.check oracle schema scope = checked at houtcome ⊢
  cases houtcome with
  | duplicate known =>
    constructor
    · exact .inl
    · rintro (h | rfl)
      · exact h
      · exact known
  | untyped fresh => simp [or_comm]
  | typed fresh denotes => simp [or_comm]

theorem known_of_checkAll (oracle : Oracle) (schema : Schema) (scope : Scope)
    (decls : List ParamDecl) (name : String) :
    (∃ l ∈ (checkAll oracle schema scope decls).result.2, l.name = name) ↔
      (∃ l ∈ scope, l.name = name) ∨ ∃ d ∈ decls, d.name = name := by
  induction decls generalizing schema scope with
  | nil => simp [checkAll]
  | cons decl decls ih =>
    simp only [checkAll, Check.result_bind]
    rw [ih, known_of_check]
    simp [or_assoc]

-- A refused default is that of a new name.
theorem fresh_of_invalidDefault_check {decl : ParamDecl} {c : Complaint} {name : String} {τ : Ty}
    (hc : c ∈ (decl.check oracle schema scope).complaints)
    (hproblem : c.problem = .invalidDefault name τ) :
    (∀ l ∈ scope, l.name ≠ name) ∧ decl.name = name := by
  have houtcome := outcome_check oracle schema scope decl
  generalize decl.check oracle schema scope = checked at houtcome hc
  cases houtcome with
  | duplicate known =>
    obtain rfl := List.mem_singleton.mp hc
    cases hproblem
  | untyped fresh =>
    obtain rfl := List.mem_singleton.mp hc
    cases hproblem
  | @typed σ fresh denotes =>
    have hname : decl.name = name := by
      unfold checkedDefault at hc
      split at hc
      · cases hc
      · have hsame := (Expr.problem_of_checkDefault hc).symm.trans hproblem
        exact (Problem.invalidDefault.inj hsame).1
    exact ⟨hname ▸ fresh, hname⟩

theorem fresh_of_invalidDefault {decls : List ParamDecl} {c : Complaint} {name : String} {τ : Ty}
    (hc : c ∈ (checkAll oracle schema scope decls).complaints)
    (hproblem : c.problem = .invalidDefault name τ) :
    (∀ l ∈ scope, l.name ≠ name) ∧ ∃ d ∈ decls, d.name = name := by
  induction decls generalizing schema scope with
  | nil => cases hc
  | cons decl decls ih =>
    rcases List.mem_append.mp hc with hc | hc
    · obtain ⟨hfresh, hname⟩ := fresh_of_invalidDefault_check hc hproblem
      exact ⟨hfresh, decl, List.mem_cons_self, hname⟩
    · obtain ⟨hfresh, d, hd, hname⟩ := ih hc
      refine ⟨fun l hl hsame => ?_, d, List.mem_cons_of_mem decl hd, hname⟩
      obtain ⟨l', hl', hsame'⟩ := (known_of_check oracle schema scope decl name).mpr
        (.inl ⟨l, hl, hsame⟩)
      exact hfresh l' hl' hsame'

-- What is stored under a known name stays.
theorem find?_of_check {decl : ParamDecl} {name : String} (hknown : ∃ l ∈ scope, l.name = name) :
    (decl.check oracle schema scope).result.1.params.find? (·.name == name) =
      schema.params.find? (·.name == name) := by
  have houtcome := outcome_check oracle schema scope decl
  generalize decl.check oracle schema scope = checked at houtcome ⊢
  cases houtcome with
  | duplicate known => rfl
  | untyped fresh => rfl
  | typed fresh denotes =>
    obtain ⟨l, hl, rfl⟩ := hknown
    exact (Schema.find?_put _ _ _).trans (if_neg fun hname => fresh l hl hname.symm)

theorem find?_of_checkAll {decls : List ParamDecl} {name : String}
    (hknown : ∃ l ∈ scope, l.name = name) :
    (checkAll oracle schema scope decls).result.1.params.find? (·.name == name) =
      schema.params.find? (·.name == name) := by
  induction decls generalizing schema scope with
  | nil => rfl
  | cons decl decls ih =>
    have hnext := (known_of_check oracle schema scope decl name).mpr (.inl hknown)
    exact (ih hnext).trans (find?_of_check hknown)

end ParamDecl

namespace Template

variable {t : Template} {before after : List ParamDecl} {decl : ParamDecl} {τ : Ty}

-- No default of a parameter of this name is reported.
def DefaultPasses (oracle : Oracle) (t : Template) (name : String) : Prop :=
  ∀ c ∈ (t.checkHeader oracle).complaints, ∀ expected, c.problem ≠ .invalidDefault name expected

-- A header in which a declaration takes its name: its default is checked between what stands before
-- and what stands behind.
theorem checkHeader_of_denotes (hparams : t.params = before ++ decl :: after)
    (hfresh : ∀ d ∈ before, d.name ≠ decl.name) (hdenotes : decl.type.Denotes oracle τ) :
    ∃ (schema : Schema) (scope : Scope),
      (t.checkHeader oracle).complaints =
        (ParamDecl.checkAll oracle .empty [] before).complaints ++
          ((decl.checkedDefault τ).complaints ++
            (ParamDecl.checkAll oracle schema (⟨decl.name, some τ⟩ :: scope) after).complaints) ∧
      (t.checkHeader oracle).result.1.params.find? (·.name == decl.name) =
        some ⟨decl.name, τ, (decl.checkedDefault τ).result⟩ := by
  have hscope : ∀ l ∈ (ParamDecl.checkAll oracle .empty [] before).result.2,
      l.name ≠ decl.name := by
    intro l hl hname
    rcases (ParamDecl.known_of_checkAll _ _ _ before decl.name).mp ⟨l, hl, hname⟩ with
      ⟨_, h, -⟩ | ⟨d, hd, hsame⟩
    · cases h
    · exact hfresh d hd hsame
  refine ⟨(ParamDecl.checkAll oracle .empty [] before).result.1.insert
      ⟨decl.name, τ, (decl.checkedDefault τ).result⟩,
    (ParamDecl.checkAll oracle .empty [] before).result.2, ?_, ?_⟩
  · unfold checkHeader
    rw [hparams, ParamDecl.checkAll_append, Check.complaints_bind, ParamDecl.checkAll,
      Check.complaints_bind, ParamDecl.check_of_denotes hscope hdenotes]
  · unfold checkHeader
    rw [hparams, ParamDecl.checkAll_append, Check.result_bind, ParamDecl.checkAll,
      Check.result_bind, ParamDecl.check_of_denotes hscope hdenotes]
    have hknown : ∃ l ∈ (⟨decl.name, some τ⟩ : Local) ::
        (ParamDecl.checkAll oracle .empty [] before).result.2, l.name = decl.name :=
      ⟨_, List.mem_cons_self, rfl⟩
    exact (ParamDecl.find?_of_checkAll hknown).trans
      ((Schema.find?_put _ _ _).trans (if_pos rfl))

-- No default of this name is reported behind the declaration that takes it, nor before.
theorem defaultPasses_iff (hparams : t.params = before ++ decl :: after)
    (hfresh : ∀ d ∈ before, d.name ≠ decl.name) (hdenotes : decl.type.Denotes oracle τ) :
    t.DefaultPasses oracle decl.name ↔ (decl.checkedDefault τ).complaints = [] := by
  obtain ⟨schema, scope, hcomplaints, -⟩ := checkHeader_of_denotes hparams hfresh hdenotes
  unfold DefaultPasses
  rw [hcomplaints]
  constructor
  · intro hpasses
    refine List.eq_nil_iff_forall_not_mem.mpr fun c hc => ?_
    obtain ⟨e, he⟩ : ∃ e, decl.default = some e :=
      Option.ne_none_iff_exists'.mp fun hnone => by simp [ParamDecl.checkedDefault, hnone] at hc
    have hmem := List.mem_append_right (ParamDecl.checkAll oracle .empty [] before).complaints
      (List.mem_append_left (ParamDecl.checkAll oracle schema
        (⟨decl.name, some τ⟩ :: scope) after).complaints hc)
    simp only [ParamDecl.checkedDefault, he] at hc
    exact hpasses c hmem τ (Expr.problem_of_checkDefault hc)
  · intro hnone c hc expected hproblem
    rw [hnone] at hc
    rcases List.mem_append.mp hc with hbefore | hafter
    · obtain ⟨-, d, hd, hname⟩ := ParamDecl.fresh_of_invalidDefault hbefore hproblem
      exact hfresh d hd hname
    · obtain ⟨hknown, -⟩ := ParamDecl.fresh_of_invalidDefault hafter hproblem
      exact hknown _ List.mem_cons_self rfl

-- A default passes just if it stands for a constant that fits the declared type, and that constant
-- is what the parameter is stored with.
theorem default_accepted_iff_fits {e : Expr} (hparams : t.params = before ++ decl :: after)
    (hfresh : ∀ d ∈ before, d.name ≠ decl.name) (hdenotes : decl.type.Denotes oracle τ)
    (hdefault : decl.default = some e) :
    (t.DefaultPasses oracle decl.name ↔
        ∃ c, e.Denotes c ∧ (c.value : Value ρ).Fits isA τ) ∧
      ∀ c, e.Denotes c → (c.value : Value ρ).Fits isA τ →
        ((t.checkHeader oracle).result.1.get? decl.name).map Prod.snd =
            some ⟨decl.name, τ, some c⟩ ∧
          (c.value : Value ρ).conforms τ = true := by
  have hchecked : decl.checkedDefault τ = e.checkDefault decl.name τ := by
    rw [ParamDecl.checkedDefault, hdefault]
  obtain ⟨-, -, -, hstored⟩ := checkHeader_of_denotes hparams hfresh hdenotes
  rw [defaultPasses_iff hparams hfresh hdenotes, Schema.map_snd_get?, hstored, hchecked]
  rcases Expr.checkDefault_cases isA e decl.name τ with ⟨c, hc, hfits, heq⟩ | ⟨hnone, heq⟩
  · rw [heq]
    refine ⟨iff_of_true rfl ⟨c, hc, hfits⟩, fun c' hc' hfits' => ?_⟩
    obtain rfl : c = c' := Option.some.inj
      ((Expr.denotes_iff.mp hc).symm.trans (Expr.denotes_iff.mp hc'))
    exact ⟨rfl, hfits.conforms⟩
  · rw [heq]
    exact ⟨iff_of_false (List.cons_ne_nil _ _) hnone, fun c hc hfits =>
      absurd ⟨c, hc, hfits⟩ hnone⟩

-- `[[1, -2.5], [], null]`
def gridRows : Expr :=
  .list default
    [.list default
        [.literal default (.int 1), .unary default .negate (.literal default (.float 2.5))],
      .list default [], .literal default .null]

def gridRowsConstant : Constant :=
  .list [.list [.literal (.int 1), .literal (.float (-2.5))], .list [], .literal .null]

theorem gridRows_denotes : gridRows.Denotes gridRowsConstant :=
  .list (.cons (.list (.cons (.literal _ _) (.cons (.negatedFloat _ _ _) .nil)))
    (.cons (.list .nil) (.cons (.literal _ _) .nil)))

-- Takes the same rows for a grid of floats and for one of integers.
def grids : Template where
  params :=
    [⟨"grid", .list (.list (.named "float")), some gridRows, default⟩,
      ⟨"counts", .list (.list (.named "int")), some gridRows, default⟩]
  body := []
  idCount := 0

theorem fits_gridRows : (gridRowsConstant.value : Value ρ).Fits isA (.list (.list .float)) := by
  refine .list fun row hrow => ?_
  simp only [Constant.values, List.mem_cons, List.not_mem_nil, or_false] at hrow
  rcases hrow with rfl | rfl | rfl
  · refine .list fun v hv => ?_
    simp only [Constant.values, List.mem_cons, List.not_mem_nil, or_false] at hv
    rcases hv with rfl | rfl
    · exact .intAsFloat 1
    · exact .float _
  · exact .list fun _ hv => absurd hv List.not_mem_nil
  · exact .null _

-- One of the numbers is not an integer.
theorem not_fits_gridRows : ¬(gridRowsConstant.value : Value ρ).Fits isA (.list (.list .int)) := by
  intro h
  cases h with
  | list rows_fit =>
    cases rows_fit (.list [.int 1, .float (-2.5)]) List.mem_cons_self with
    | list items_fit => cases items_fit (.float (-2.5)) (List.mem_cons_of_mem _ List.mem_cons_self)

theorem default_accepted_grids :
    grids.DefaultPasses Declarations.empty.oracle "grid" ∧
      ((grids.checkHeader Declarations.empty.oracle).result.1.get? "grid").map Prod.snd =
        some ⟨"grid", .list (.list .float), some gridRowsConstant⟩ ∧
      (gridRowsConstant.value : Value Nat).conforms (.list (.list .float)) = true ∧
      ¬grids.DefaultPasses Declarations.empty.oracle "counts" := by
  obtain ⟨hgrid, hstored⟩ := @default_accepted_iff_fits Nat (fun _ _ => False) _ grids []
    [⟨"counts", .list (.list (.named "int")), some gridRows, default⟩] _ _ _ rfl nofun
    (.list (.list .float)) rfl
  obtain ⟨hcounts, -⟩ := @default_accepted_iff_fits Nat (fun _ _ => False) _ grids
    [⟨"grid", .list (.list (.named "float")), some gridRows, default⟩] [] _ _ _ rfl
    (fun d hd => by rw [List.mem_singleton.mp hd]; decide) (.list (.list .int)) rfl
  obtain ⟨hget, hconforms⟩ := hstored gridRowsConstant gridRows_denotes fits_gridRows
  refine ⟨hgrid.mpr ⟨_, gridRows_denotes, fits_gridRows⟩, hget, hconforms, fun hpasses => ?_⟩
  obtain ⟨c, hc, hfits⟩ := hcounts.mp hpasses
  obtain rfl : gridRowsConstant = c := Option.some.inj
    ((Expr.denotes_iff.mp gridRows_denotes).symm.trans (Expr.denotes_iff.mp hc))
  exact not_fits_gridRows hfits

end Template

end Stencil
