import Stencil.Proofs.Meaning.Expressions
import Stencil.Proofs.Soundness.Defaults
import Stencil.Proofs.Typing.Mistakes

/-!
Constants in defaults and in bodies. An expression that stands for a constant comes to the same in
both places: what it is checked to have is the type of the constant, and the code that is made of it
evaluates to the value of the constant.
-/

namespace Stencil

variable {ρ : Type} [DecidableEq ρ] {model : Model ρ} {frame : Frame ρ}
variable {oracle oracle' : Oracle} {scope scope' : Scope}

namespace Expr

mutual

-- Is an expression made of literals and lists alone? Then nothing in it is left to be calculated.
def isLiteral : Expr → Bool
  | .literal _ _ => true
  | .list _ items => areLiteral items
  | _ => false

def areLiteral : List Expr → Bool
  | [] => true
  | e :: es => e.isLiteral && areLiteral es

end

mutual

-- There are no names in it and no members, so it does not matter what is visible.
theorem check_of_constant : ∀ (e : Expr) {c : Constant}, e.constant? = some c →
    e.check oracle scope = e.check oracle' scope'
  | .literal m value, _, _ => rfl
  | .list m items, _, h => by
    cases reads_of_constant h with
    | list items_read => rw [check, check, checkAll_of_constants items items_read]
  | .unary m op operand, _, h => by
    cases reads_of_constant h with
    | negatedInt word => rfl
    | negatedFloat m m' x => rfl
  | .name _ _, _, h | .member _ _ _, _, h | .call _ _ _ _, _, h | .binary _ _ _ _, _, h => by
    cases reads_of_constant h

theorem checkAll_of_constants : ∀ (es : List Expr) {cs : List Constant},
    constants? es = some cs → checkAll oracle scope es = checkAll oracle' scope' es
  | [], _, _ => rfl
  | e :: es, _, h => by
    obtain ⟨c, hc, h⟩ := Option.bind_eq_some_iff.mp h
    obtain ⟨cs, hcs, -⟩ := Option.bind_eq_some_iff.mp h
    rw [checkAll, checkAll, check_of_constant e hc, checkAll_of_constants es hcs]

end

variable {e : Expr} {c : Constant}

theorem exists_term_of_constant (h : e.constant? = some c) {τ : Ty} (hτ : c.type? = some τ) :
    ∃ t, e.check oracle scope = pure (some t) ∧ t.type = τ := by
  have htyped : e.HasType oracle [] τ := (type_of_constant e h).mp hτ
  obtain ⟨t, ht, htype⟩ := hasType_iff.mp htyped
  exact ⟨t, (check_of_constant e h).trans ht, htype⟩

-- Where the items of some list share no type, the expression is complained of.
theorem refused_of_constant (h : e.constant? = some c) (hnone : c.type? = none) :
    (e.check oracle scope).result = none ∧ (e.check oracle scope).complaints ≠ [] := by
  have hcomplaints : (e.check oracle scope).complaints ≠ [] := by
    intro hclear
    have hpure : e.check oracle scope = pure (e.check oracle scope).result :=
      congrArg (Check.mk · (e.check oracle scope).result) hclear
    have hempty : e.check oracle (Context.scope []) = pure (e.check oracle scope).result :=
      (check_of_constant e h).trans hpure
    obtain ⟨t, -, -, htyped⟩ := hasType_of_check hempty
    cases hnone.symm.trans ((type_of_constant e h).mpr htyped)
  exact ⟨(fails_check e).mpr (.inl hcomplaints), hcomplaints⟩

end Expr

theorem Formula.eval_negate_constant (c : Constant) :
    (Formula.negate (.constant c)).eval model frame = Eval.given c.value.negate := by
  rw [Formula.eval, Formula.eval]
  rfl

omit [DecidableEq ρ] in
theorem Value.negate_of_word {n w : Int64} (h : Number.word? (-n.toInt) = some w) :
    (Value.int n : Value ρ).negate = .ok (.int w) := by
  rw [Value.negate, h]

theorem Formula.constants?_of_calculated {f : Formula} {fs : List Formula}
    (h : ∀ c, f ≠ .constant c) : Formula.constants? (f :: fs) = none := by
  cases f with
  | constant c => exact absurd rfl (h c)
  | _ => rfl

namespace Expr

mutual

-- The induction is on the expression. Where a list was made into one constant, its code is that
-- constant, and otherwise its items are evaluated one by one.
theorem eval_of_constant : ∀ (e : Expr) {c : Constant} {t : Term}, e.constant? = some c →
    e.Elaborates oracle scope t → t.formula.eval model frame = pure c.value
  | .literal m value, _, _, h, .literal _ _ => by
    cases reads_of_constant h
    rw [Term.formula, Formula.eval]
  | .list m items, _, _, h, .list items_elaborate _ => by
    cases reads_of_constant h with
    | list items_read =>
      rw [Term.eval_list, evalAll_of_constants items items_read items_elaborate]
      rfl
  | .unary m op operand, _, _, h, .unary operand_elaborates _ => by
    cases reads_of_constant h with
    | negatedInt word =>
      cases operand_elaborates
      rw [Term.formula, Term.formula, Formula.eval_negate_constant, Constant.value, Literal.value,
        Value.negate_of_word word]
      rfl
    | negatedFloat m m' x =>
      cases operand_elaborates
      rw [Term.formula, Term.formula, Formula.eval_negate_constant]
      rfl
  | .name _ _, _, _, h, _ | .member _ _ _, _, _, h, _ | .call _ _ _ _, _, _, h, _
  | .binary _ _ _ _, _, _, h, _ => by
    cases reads_of_constant h

theorem evalAll_of_constants : ∀ (es : List Expr) {cs : List Constant} {ts : List Term},
    constants? es = some cs → ElaborateAll oracle scope es ts →
      Formula.evalAll model frame (Term.formulas ts) = pure (Constant.values cs)
  | [], _, _, h, .nil => by
    obtain rfl := Option.some.inj h
    rfl
  | e :: es, _, _, h, .cons first rest => by
    obtain ⟨c, hc, h⟩ := Option.bind_eq_some_iff.mp h
    obtain ⟨cs, hcs, h⟩ := Option.bind_eq_some_iff.mp h
    obtain rfl := Option.some.inj h
    rw [Term.formulas, Formula.evalAll, eval_of_constant e hc first,
      evalAll_of_constants es hcs rest]
    rfl

end

mutual

-- What is made of literals and lists alone becomes one constant; a negation is left to be done.
theorem formula_of_constant : ∀ (e : Expr) {c : Constant} {t : Term}, e.constant? = some c →
    e.Elaborates oracle scope t →
      if e.isLiteral then t.formula = .constant c else ∀ c', t.formula ≠ .constant c'
  | .literal m value, _, _, h, .literal _ _ => by
    cases reads_of_constant h
    rw [isLiteral, if_pos rfl, Term.formula]
  | .list m items, _, _, h, .list items_elaborate _ => by
    cases reads_of_constant h with
    | list items_read =>
      rw [isLiteral, Term.formula, constants_of_formulas items items_read items_elaborate]
      split
      · rfl
      · exact nofun
  | .unary m op operand, _, _, h, .unary operand_elaborates _ => by
    rw [if_neg (by simp [isLiteral])]
    cases reads_of_constant h with
    | negatedInt word => exact nofun
    | negatedFloat m m' x => exact nofun
  | .name _ _, _, _, h, _ | .member _ _ _, _, _, h, _ | .call _ _ _ _, _, _, h, _
  | .binary _ _ _ _, _, _, h, _ => by
    cases reads_of_constant h

theorem constants_of_formulas : ∀ (es : List Expr) {cs : List Constant} {ts : List Term},
    constants? es = some cs → ElaborateAll oracle scope es ts →
      Formula.constants? (Term.formulas ts) = if areLiteral es then some cs else none
  | [], _, _, h, .nil => by
    obtain rfl := Option.some.inj h
    rfl
  | e :: es, _, _, h, .cons first rest => by
    obtain ⟨c, hc, h⟩ := Option.bind_eq_some_iff.mp h
    obtain ⟨cs, hcs, h⟩ := Option.bind_eq_some_iff.mp h
    obtain rfl := Option.some.inj h
    have hfirst := formula_of_constant e hc first
    rw [Term.formulas, areLiteral]
    split at hfirst
    · next hliteral =>
      rw [hfirst, Formula.constants?, constants_of_formulas es hcs rest, hliteral, Bool.true_and]
      split <;> rfl
    · next hliteral =>
      rw [Formula.constants?_of_calculated hfirst, Bool.eq_false_of_not_eq_true hliteral]
      rfl

end

omit [DecidableEq ρ] in
-- Widening to its own type changes nothing, also in a list that mixes numbers.
theorem widen_of_constant {c : Constant} {τ : Ty} (h : c.type? = some τ) :
    (c.value : Value ρ).widen τ = c.value := by
  cases c with
  | list items => rfl
  | literal l =>
    obtain rfl := Option.some.inj h
    cases l <;> rfl

-- The one number literal whose negation is no constant is the least word. Its negation has a type,
-- and is refused when it is evaluated.
theorem overflow_of_negation {m m' : Mark} {l : Literal} (hl : l.type.isNumeric = true)
    (hnone : (unary m .negate (literal m' l)).constant? = none) :
    ∃ t, (unary m .negate (literal m' l)).check oracle scope = pure (some t) ∧
      ∀ {ρ : Type} [DecidableEq ρ] (model : Model ρ) (frame : Frame ρ),
        t.formula.eval model frame = Eval.given (.error (.overflow "-")) := by
  cases l with
  | int n =>
    have hword : Number.word? (-n.toInt) = none := by simpa [constant?] using hnone
    refine ⟨.unary ⟨m.id, .int⟩ .negate (.literal ⟨m'.id, .int⟩ (.int n)), rfl, ?_⟩
    intro ρ _ model frame
    rw [Term.formula, Term.formula, Formula.eval_negate_constant, Constant.value, Literal.value,
      Value.negate, hword]
  | float x => simp [constant?] at hnone
  | null => cases hl
  | bool b => cases hl
  | text s => cases hl

-- In a body, an expression has the type of the constant that it stands for, if that has one, and its
-- code evaluates to the value of the constant, whatever the frame holds, without a request to the
-- model. Only where there is nothing to negate, the code is the constant itself. An expression for a
-- constant without a type is complained of.
structure AgreesWith (oracle : Oracle) (scope : Scope) (e : Expr) (c : Constant) : Prop where
  typed : ∀ τ, c.type? = some τ → ∃ t, e.check oracle scope = pure (some t) ∧ t.type = τ ∧
    (if e.isLiteral then t.formula = .constant c else ∀ c', t.formula ≠ .constant c') ∧
    ∀ {ρ : Type} [DecidableEq ρ] (model : Model ρ) (frame : Frame ρ),
      t.formula.eval model frame = pure c.value
  untyped : c.type? = none →
    (e.check oracle scope).result = none ∧ (e.check oracle scope).complaints ≠ []

theorem agreesWith_of_constant {e : Expr} {c : Constant} (h : e.constant? = some c) :
    e.AgreesWith oracle scope c where
  typed τ hτ := by
    obtain ⟨t, ht, htype⟩ := exists_term_of_constant h hτ
    have helaborates := elaborates_of_check e ht
    exact ⟨t, ht, htype, formula_of_constant e h helaborates,
      fun model frame => eval_of_constant e h helaborates⟩
  untyped := refused_of_constant h

end Expr

-- As a default, an expression gives the parameter the value that it has in a body, and leaving the
-- argument out is the same as giving that value.
structure Parameter.DefaultMeans (oracle : Oracle) (scope : Scope) (p : Parameter) (e : Expr)
    (c : Constant) : Prop where
  evaluates : ∃ t, e.check oracle scope = pure (some t) ∧ p.type.accepts t.type = true ∧
    (∀ {ρ : Type} [DecidableEq ρ] (model : Model ρ) (frame : Frame ρ),
      t.formula.eval model frame = Eval.given p.defaultValue) ∧
    (t.type = p.type → ∀ {ρ : Type}, (c.value : Value ρ).widen p.type = c.value)
  binds : ∀ {ρ : Type} (params : List Parameter) (args : List (Option (Value ρ))),
    bindArgs (p :: params) (none :: args) = bindArgs (p :: params) (some c.value :: args)

theorem Expr.defaultMeans_of_checkDefault {e : Expr} {name : String} {τ : Ty} {c : Constant}
    (h : e.checkDefault name τ = pure (some c)) :
    Parameter.DefaultMeans oracle scope ⟨name, τ, some c⟩ e c where
  evaluates := by
    obtain ⟨hconstant, d, σ, hsame, hσ, haccepts⟩ := constant_of_checkDefault h
    obtain rfl := Option.some.inj hsame
    obtain ⟨t, ht, rfl, -, heval⟩ := (agreesWith_of_constant hconstant).typed σ hσ
    exact ⟨t, ht, haccepts, heval, fun heq => heq ▸ widen_of_constant hσ⟩
  binds _ _ := rfl

-- A constant means the same as a default and in a body. What is no constant although it is the
-- negation of a number ends in an overflow.
theorem constants_mean_the_same (oracle : Oracle) (scope : Scope) :
    (∀ (e : Expr) (c : Constant), e.constant? = some c → e.AgreesWith oracle scope c) ∧
    (∀ (m m' : Mark) (l : Literal), l.type.isNumeric = true →
      (Expr.unary m .negate (.literal m' l)).constant? = none →
        ∃ t, (Expr.unary m .negate (.literal m' l)).check oracle scope = pure (some t) ∧
          ∀ {ρ : Type} [DecidableEq ρ] (model : Model ρ) (frame : Frame ρ),
            t.formula.eval model frame = Eval.given (.error (.overflow "-"))) ∧
    ∀ (e : Expr) (name : String) (τ : Ty) (c : Constant),
      e.checkDefault name τ = pure (some c) →
        Parameter.DefaultMeans oracle scope ⟨name, τ, some c⟩ e c :=
  ⟨fun _ _ => Expr.agreesWith_of_constant, fun _ _ _ => Expr.overflow_of_negation,
    fun _ _ _ _ => Expr.defaultMeans_of_checkDefault⟩

-- `[1, "a"]`
def mixedRow : Expr := .list default [.literal default (.int 1), .literal default (.text "a")]

def mixedRowConstant : Constant := .list [.literal (.int 1), .literal (.text "a")]

-- `--9223372036854775808`
def minusLeast : Expr := .unary default .negate (.literal default (.int Int64.minValue))

open Template in
-- Numbers of both types and `null` share a type, a number and a text do not.
theorem constants_mean_the_same_rows :
    (gridRows.constant? = some gridRowsConstant ∧
      gridRowsConstant.type? = some (.list (.list .float)) ∧
      ∃ t, gridRows.check Declarations.empty.oracle [⟨"grid", none⟩] = pure (some t) ∧
        t.type = .list (.list .float) ∧ (∀ c, t.formula ≠ .constant c) ∧
        ∀ {ρ : Type} [DecidableEq ρ] (model : Model ρ) (frame : Frame ρ),
          t.formula.eval model frame = pure gridRowsConstant.value) ∧
    (mixedRow.constant? = some mixedRowConstant ∧ mixedRowConstant.type? = none ∧
      (mixedRow.check Declarations.empty.oracle [⟨"grid", none⟩]).result = none) ∧
    (minusLeast.constant? = none ∧
      ∃ t, minusLeast.check Declarations.empty.oracle [⟨"grid", none⟩] = pure (some t) ∧
        ∀ {ρ : Type} [DecidableEq ρ] (model : Model ρ) (frame : Frame ρ),
          t.formula.eval model frame = Eval.given (.error (.overflow "-"))) ∧
    gridRows.checkDefault "grid" (.list (.list .float)) = pure (some gridRowsConstant) ∧
    Parameter.DefaultMeans Declarations.empty.oracle [⟨"grid", none⟩]
      ⟨"grid", .list (.list .float), some gridRowsConstant⟩ gridRows gridRowsConstant := by
  obtain ⟨hagree, hoverflow, hdefault⟩ :=
    constants_mean_the_same Declarations.empty.oracle [⟨"grid", none⟩]
  have hgrid : gridRows.constant? = some gridRowsConstant := Expr.denotes_iff.mp gridRows_denotes
  have htype : gridRowsConstant.type? = some (.list (.list .float)) := by decide
  have hmixed : mixedRow.constant? = some mixedRowConstant := rfl
  have huntyped : mixedRowConstant.type? = none := by decide
  have hchecked : gridRows.checkDefault "grid" (.list (.list .float)) =
      pure (some gridRowsConstant) := by
    have hfits : gridRowsConstant.type?.any (Ty.list (.list .float)).accepts = true := by
      rw [htype]
      decide
    rw [Expr.checkDefault, hgrid, Option.filter_some, if_pos hfits]
  exact ⟨⟨hgrid, htype, (hagree _ _ hgrid).typed _ htype⟩,
    ⟨hmixed, huntyped, ((hagree _ _ hmixed).untyped huntyped).1⟩,
    ⟨rfl, hoverflow default default (.int Int64.minValue) rfl rfl⟩, hchecked,
    hdefault _ _ _ _ hchecked⟩

end Stencil
