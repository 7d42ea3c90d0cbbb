import Stencil.Proofs.Typing.Mistakes

/-!
Where complaints are placed: at the expression that is checked or at its operands, at an inclusion
or at its arguments, at a declaration or at its default.
-/

namespace Stencil

namespace Check

variable {α β : Type}

-- The places to blame, in the order of the complaints.
def places (c : Check α) : List Span := c.complaints.map Complaint.span

@[simp] theorem places_pure (a : α) : (pure a : Check α).places = [] := rfl

@[simp] theorem places_bind (c : Check α) (f : α → Check β) :
    (c >>= f).places = c.places ++ (f c.result).places := List.map_append

@[simp] theorem places_complain (problem : Problem) (span : Span) :
    (complain problem span).places = [span] := rfl

@[simp] theorem places_reject (problem : Problem) (span : Span) :
    (reject problem span : Check (Option α)).places = [span] := rfl

-- What is found out about a whole is placed at it, once, or at parts of it from left to right.
def Blames (c : Check α) (whole : Span) (parts : List Span) : Prop :=
  c.places = [whole] ∨ c.places.Sublist parts

variable {whole : Span} {parts : List Span}

theorem blames_pure {a : α} : (pure a : Check α).Blames whole parts := .inr (List.nil_sublist _)

theorem blames_reject {problem : Problem} :
    (reject problem whole : Check (Option α)).Blames whole parts := .inl rfl

theorem Blames.more {c : Check α} {others : List Span} (h : c.Blames whole parts)
    (hsub : parts.Sublist others) : c.Blames whole others :=
  h.imp_right fun hplaces => hplaces.trans hsub

theorem Blames.bind_pure {c : Check α} (h : c.Blames whole parts) (f : α → β) :
    (do return f (← c)).Blames whole parts := by
  unfold Blames at h ⊢
  rwa [places_bind, places_pure, List.append_nil]

end Check

open Check

namespace Expr

variable {oracle : Oracle} {scope : Scope} {whole : Span} {args : List (Span × Option Term)}

theorem sublist_checkItems {t : Ty} :
    (checkItems t args).places.Sublist (args.map (·.1)) := by
  induction args generalizing t with
  | nil => exact List.nil_sublist _
  | cons arg args ih =>
    obtain ⟨span, arg⟩ := arg
    cases arg with
    | none => exact List.nil_sublist _
    | some item =>
      simp only [checkItems]
      split
      · exact ih.cons span
      · exact (List.nil_sublist _).cons_cons span

theorem sublist_checkEach {method : String} {position : Nat} {params : List Ty} :
    (checkEach method position params args).places.Sublist (args.map (·.1)) := by
  induction params generalizing position args with
  | nil => cases args <;> exact List.nil_sublist _
  | cons expected params ih =>
    cases args with
    | nil => exact List.nil_sublist _
    | cons arg args =>
      obtain ⟨span, arg⟩ := arg
      have hrest : (checkEach method (position + 1) params args).places.Sublist
        (args.map (·.1)) := ih
      cases arg with
      | none => simpa [checkEach] using hrest.cons span
      | some t =>
        by_cases haccepts : expected.accepts t.type = true
        · simpa [checkEach, haccepts] using hrest.cons span
        · simpa [checkEach, haccepts] using hrest.cons_cons span

theorem blames_checkArgs {method : String} {params : List Ty} :
    (checkArgs method whole params args).Blames whole (args.map (·.1)) := by
  unfold checkArgs
  split
  · exact .inr sublist_checkEach
  · exact blames_reject

theorem blames_checkMember {m : Mark} {object : Term} {name : String} {parts : List Span} :
    (checkMember oracle m object name).Blames m.span parts := by
  unfold checkMember
  split
  · split
    · exact blames_pure
    · exact blames_reject
    · exact blames_reject
  · split <;> exact blames_reject

theorem blames_checkCall {m : Mark} {object : Term} {name : String} :
    (checkCall oracle m object name args).Blames m.span (args.map (·.1)) := by
  unfold checkCall
  split
  · split
    · exact blames_checkArgs.bind_pure _
    · exact blames_reject
    · exact blames_reject
  · split
    · exact blames_checkArgs.bind_pure _
    · exact blames_checkArgs.bind_pure _
    · exact blames_reject

theorem blames_checkOwn (e : Expr) :
    (checkOwn oracle scope e args).Blames e.span (args.map (·.1)) := by
  unfold checkOwn
  split
  · refine .inr ?_
    simpa using sublist_checkItems
  · exact blames_checkMember
  · next m object method operands span o args =>
    exact blames_checkCall.more (List.sublist_cons_self _ _)
  · split
    · exact blames_pure
    · exact blames_reject
  · split
    · exact blames_pure
    · exact blames_reject
  · exact blames_pure
  · simp only [check]
    split
    · exact blames_reject
    · exact blames_pure
  · exact blames_pure

-- The operands that are checked whatever is known of the others.
def arguments : Expr → List Expr
  | .list _ items => items
  | .call _ _ _ args => args
  | .literal _ _ | .name _ _ | .member _ _ _ | .unary _ _ _ | .binary _ _ _ _ => []

theorem operands_eq (e : Expr) : e.operands = e.subjects ++ e.arguments := by cases e <;> rfl

-- What is complained of an expression itself, apart from its operands.
def ownComplaints (oracle : Oracle) (scope : Scope) (e : Expr) : List Complaint :=
  (checkOwn oracle scope e (e.checkedOperands oracle scope)).complaints

theorem places_own (e : Expr) : (e.ownComplaints oracle scope).map Complaint.span = [e.span] ∨
    ((e.ownComplaints oracle scope).map Complaint.span).Sublist (e.operands.map Expr.span) := by
  have hspans : (e.checkedOperands oracle scope).map (·.1) = e.operands.map Expr.span := by
    simp [checkedOperands]
  rw [← hspans]
  exact blames_checkOwn e

-- Nothing is complained of an expression before its subjects have passed.
theorem subjects_pass {e : Expr} (h : e.ownComplaints oracle scope ≠ []) :
    (checkAll oracle scope e.subjects).complaints = [] := by
  rw [complaints_checkAll, List.flatMap_eq_nil_iff]
  intro o ho
  by_contra hne
  have hnone : (o.check oracle scope).result = none := (fails_check o).mpr (.inl hne)
  refine h ?_
  rw [ownComplaints, checkOwn_of_untyped ⟨o, ho, hnone⟩, complaints_pure]

end Expr

section Header

variable {oracle : Oracle}

theorem TypeExpr.places_check (span : Span) (type : TypeExpr) : (type.check oracle span).places =
    if (type.check oracle span).result.isSome then [] else [span] := by
  induction type with
  | named name =>
    unfold TypeExpr.check
    split
    · rfl
    · split <;> rfl
  | list element ih => simpa [TypeExpr.check] using ih

theorem Expr.places_checkDefault (e : Expr) (name : String) (type : Ty) :
    (e.checkDefault name type).places.Sublist [e.span] := by
  unfold checkDefault
  split
  · exact List.nil_sublist _
  · exact List.Sublist.refl _

-- A declaration is refused once, for its name, its type or its default.
theorem ParamDecl.places_check (schema : Schema) (scope : Scope) (decl : ParamDecl) :
    (decl.check oracle schema scope).places.Sublist [decl.span] ∨
      ∃ e ∈ decl.default, (decl.check oracle schema scope).places.Sublist [e.span] := by
  unfold ParamDecl.check
  split
  · exact .inl (by simp)
  · rw [places_bind, TypeExpr.places_check]
    cases hresult : (decl.type.check oracle decl.span).result with
    | none => exact .inl (by simp)
    | some type =>
      cases hdefault : decl.default with
      | none => exact .inl (by simp)
      | some e =>
        have hplaces := e.places_checkDefault decl.name type
        exact .inr ⟨e, rfl, by simpa using hplaces⟩

end Header

section Inclusion

theorem Plan.places_give (plan : Plan) (index : Nat) (param : Parameter) (span : Span)
    (arg : Option Term) : (plan.give index param span arg).places.Sublist [span] := by
  unfold Plan.give
  split
  · simp
  · cases arg with
    | none => simp
    | some t => by_cases haccepts : param.type.accepts t.type = true <;> simp [haccepts]

theorem Plan.places_giveEach {target : String} {schema : Schema} {count index : Nat} {named : Bool}
    {plan : Plan} {args : List (Argument × Option Term)} :
    (Plan.giveEach target schema count index named plan args).places.Sublist
      (args.map (·.1.value.span)) := by
  induction args generalizing index named plan with
  | nil => exact List.nil_sublist _
  | cons given args ih =>
    obtain ⟨arg, term⟩ := given
    rw [List.map_cons]
    unfold Plan.giveEach
    split
    · split
      · simpa using ih.cons_cons arg.value.span
      · split
        · simp
        · next param _ =>
          rw [places_bind]
          exact (plan.places_give _ param arg.value.span term).append ih
    · split
      · simpa using ih.cons_cons arg.value.span
      · next position param _ =>
        rw [places_bind]
        exact (plan.places_give _ param arg.value.span term).append ih

theorem Plan.places_requireAll {target : String} {span : Span} {params : List Parameter}
    {plan : Plan} : ∀ place ∈ (Plan.requireAll target span params plan).places, place = span := by
  induction params generalizing plan with
  | nil => cases plan <;> simp [Plan.requireAll]
  | cons param params ih =>
    cases plan with
    | nil => simp [Plan.requireAll]
    | cons given plan =>
      simp only [Plan.requireAll]
      split
      · simpa using ih
      · simpa using ih

end Inclusion

end Stencil
