import Stencil.Proofs.Meaning.Interpreter
import Stencil.Proofs.Render.Relates

/-!
Code means what the expression means that it was made from, where the frame holds the environment.
-/

namespace Stencil

open Run

variable {ρ ω ω' : Type} {α : Type}

-- The slots of a frame hold the variables of an environment, the outermost in the first.
def Frame.Holds (frame : Frame ρ) : Environment ρ → Prop
  | [] => True
  | x :: outer => frame[outer.length]? = some x.value ∧ Frame.Holds frame outer

theorem Environment.get?_of_find? {env : Environment ρ} {name : String} {slot : Nat}
    {type : Option Ty} (h : env.scope.find? name = some (slot, type)) :
    ∃ x, env.get? name = some x ∧ x.type = type ∧
      ∀ frame : Frame ρ, frame.Holds env → frame[slot]? = some x.value := by
  induction env with
  | nil => cases h
  | cons x outer ih =>
      simp only [scope, List.map_cons, Scope.find?] at h
      split at h
      · next hname =>
        obtain ⟨rfl, rfl⟩ : outer.length = slot ∧ x.type = type := by simpa using h
        exact ⟨x, by simp [get?, hname], rfl, fun frame hframe => hframe.1⟩
      · next hname =>
        obtain ⟨y, hy, htype, hholds⟩ := ih h
        refine ⟨y, ?_, htype, fun frame hframe => hholds frame hframe.2⟩
        rw [← hy]
        simp [get?, hname]

theorem Interp.exec_perform (task : Task) (operands : List (Value ρ)) (asValue : α → Value ρ)
    (x : Eval ρ α) (e : Effects ρ (Ledger ρ ω')) :
    exec (Interp.perform task operands asValue x) e =
      ((x.run e.requests).1,
        { e with
          requests := (x.run e.requests).2
          links := { e.links with operations :=
            ⟨task, operands, (x.run e.requests).1.map asValue⟩ :: e.links.operations } }) := rfl

-- Relations that a program and an interpreter keep while they evaluate: the requests made are the
-- same, and it does not matter what is logged.
structure Lockstep (R : Effects ρ ω → Effects ρ (Ledger ρ ω') → Prop) : Prop where
  requests : ∀ {e e'}, R e e' → e.requests = e'.requests
  evaluated : ∀ {e e'} requests operations, R e e' →
    R { e with requests }
      { e' with requests, links := { e'.links with operations } }

variable {R : Effects ρ ω → Effects ρ (Ledger ρ ω') → Prop}

namespace Lockstep

theorem perform (hR : Lockstep R) (task : Task) (operands : List (Value ρ))
    (asValue : α → Value ρ) (x : Eval ρ α) :
    Agrees R (ofEval x) (Interp.perform task operands asValue x) := by
  intro e e' he
  rw [exec_ofEval, Interp.exec_perform, ← hR.requests he]
  have hafter := hR.evaluated (x.run e.requests).2
    (⟨task, operands, (x.run e.requests).1.map asValue⟩ :: e'.links.operations) he
  cases hx : (x.run e.requests).1 with
  | ok a => exact .ok ⟨rfl, by simpa [hx] using hafter⟩
  | error err => exact .error (by simpa [hx] using hafter)

-- The same evaluation on both sides, of which something is known.
theorem same (hR : Lockstep R) {S : α → Prop} (x : Eval ρ α)
    (hS : ∀ requests a, (x.run requests).1 = .ok a → S a) :
    Relates R R (With (fun a b => a = b ∧ S a) R) (Run.ofEval x) (Run.ofEval x) := by
  intro e e' he
  rw [exec_ofEval, exec_ofEval, ← hR.requests he]
  have hafter := hR.evaluated (x.run e.requests).2 e'.links.operations he
  cases hx : (x.run e.requests).1 with
  | ok a => exact .ok ⟨⟨rfl, hS _ a hx⟩, hafter⟩
  | error err => exact .error hafter

theorem compute (hR : Lockstep R) (task : Task) (operands : List (Value ρ))
    (x : Eval ρ (Value ρ)) : Agrees R (ofEval x) (Interp.compute task operands x) :=
  hR.perform task operands id x

theorem given (hR : Lockstep R) (task : Task) (operands : List (Value ρ)) (asValue : α → Value ρ)
    (r : Except RenderError α) :
    Agrees R (Run.given r) (Interp.perform task operands asValue (Eval.given r)) :=
  hR.perform task operands asValue (Eval.given r)

theorem truth (hR : Lockstep R) (name : String) (v : Value ρ) :
    Agrees R (Run.given (v.truth name)) (Interp.truth name v) :=
  hR.given (.truth name) [v] .bool (v.truth name)

end Lockstep

variable [DecidableEq ρ]

-- A list of constants is as good as its items.
theorem Formula.evalAll_of_constants? {model : Model ρ} {frame : Frame ρ} {cs : List Constant} :
    ∀ {items : List Formula}, Formula.constants? items = some cs →
      Formula.evalAll model frame items = pure (Constant.values cs) := by
  intro items h
  induction items generalizing cs with
  | nil =>
      obtain rfl : [] = cs := by simpa [constants?] using h
      rfl
  | cons item items ih =>
      cases item with
      | constant c =>
          obtain ⟨rest, hrest, rfl⟩ := Option.map_eq_some_iff.mp h
          simp [evalAll, Formula.eval, ih hrest, Constant.values]
      | _ => cases h

theorem Term.eval_list (model : Model ρ) (frame : Frame ρ) (note : Note) (items : List Term) :
    (Term.list note items).formula.eval model frame = do
      return .list (← Formula.evalAll model frame (Term.formulas items)) := by
  simp only [Term.formula]
  split
  · next cs hcs => simp [Formula.evalAll_of_constants? hcs, Formula.eval, Constant.value]
  · simp [Formula.eval]

theorem Formula.eval_field (model : Model ρ) (frame : Frame ρ) (object : Formula) (name : String) :
    (Formula.field object name).eval model frame =
      object.eval model frame >>= model.access name := by
  simp only [Formula.eval]
  rfl

theorem Formula.eval_method (model : Model ρ) (frame : Frame ρ) (object : Formula) (name : String)
    (args : List Formula) :
    (Formula.method object name args).eval model frame =
      (do
        let o ← object.eval model frame
        let args ← Formula.evalAll model frame args
        model.invoke name o args) := by
  simp only [Formula.eval]
  rfl

namespace Expr

variable {oracle : Oracle} {model : Model ρ} {env : Environment ρ} {frame : Frame ρ}

theorem interpret_builtin {m : Mark} {object : Expr} {o : Term} {name : String} {b : Builtin}
    {returns : Ty} (ho : object.Elaborates oracle env.scope o)
    (hfound : BuiltinMethod.find? o.type name = some (.plain b returns)) :
    ((Expr.call m object name []).interpret oracle model env : Interp ρ ω (Value ρ)) =
      (do
        let v ← object.interpret oracle model env
        Interp.compute (.builtin b) [v] (Eval.given (b.apply v))) := by
  simp only [interpret, interpretAll, typeIn_of_elaborates ho, pure_bind]
  generalize o.type = type at hfound
  cases type with
  | record owner => cases hfound
  | _ => simp only [hfound]

theorem interpret_contains {m : Mark} {object needle : Expr} {o : Term} {name : String}
    {element : Ty} (ho : object.Elaborates oracle env.scope o)
    (hfound : BuiltinMethod.find? o.type name = some (.contains element)) :
    ((Expr.call m object name [needle]).interpret oracle model env : Interp ρ ω (Value ρ)) =
      (do
        let v ← object.interpret oracle model env
        let w ← needle.interpret oracle model env
        Interp.compute .contains [v] (Eval.given (v.contains w))) := by
  simp only [interpret, interpretAll, typeIn_of_elaborates ho, pure_bind, bind_assoc]
  generalize o.type = type at hfound
  cases type with
  | record owner => cases hfound
  | _ => simp only [hfound]

mutual

theorem agrees_interpret (hR : Lockstep R) (hframe : frame.Holds env) :
    ∀ {e : Expr} {t : Term}, e.Elaborates oracle env.scope t →
      Agrees R (ofEval (t.formula.eval model frame)) (e.interpret oracle model env)
  | _, _, .literal _ value => by
      simp only [Term.formula, Formula.eval, Constant.value, interpret, ofEval_pure]
      exact .pure _
  | _, _, .name found => by
      obtain ⟨x, hx, _, hslot⟩ := Environment.get?_of_find? found
      simp only [Term.formula, Formula.eval, hslot frame hframe, interpret, hx, ofEval_pure]
      exact .pure _
  | _, _, .list items _ => by
      rw [Term.eval_list, interpret, ofEval_bind]
      exact .bind (agree_interpretAll hR hframe items) fun vs => .pure _
  | _, _, .field object _ _ => by
      rw [Term.formula, Formula.eval_field, ofEval_bind, interpret]
      exact .bind (agrees_interpret hR hframe object) fun o => hR.compute _ _ _
  | _, _, .method object typed _ args _ => by
      rw [Term.formula, Formula.eval_method, ofEval_bind, interpret]
      simp only [ofEval_bind, typeIn_of_elaborates object, typed]
      exact .bind (agrees_interpret hR hframe object) fun o =>
        .bind (agree_interpretAll hR hframe args) fun vs => hR.compute _ _ _
  | _, _, @Elaborates.builtin _ _ m object o method b returns ho found => by
      rw [Term.formula, Formula.eval, ofEval_bind, interpret_builtin ho found]
      exact .bind (agrees_interpret hR hframe ho) fun v => hR.compute _ _ _
  | _, _, .contains object found needle _ => by
      rw [Term.formula, Formula.eval, interpret_contains object found]
      simp only [ofEval_bind]
      exact .bind (agrees_interpret hR hframe object) fun v =>
        .bind (agrees_interpret hR hframe needle) fun w => hR.compute _ _ _
  | _, _, @Elaborates.unary _ _ m .not _ t _ operand _ => by
      rw [Term.formula, Formula.eval, interpret]
      simp only [ofEval_bind, ofEval_given]
      exact .bind (agrees_interpret hR hframe operand) fun v =>
        .bind (hR.truth _ v) fun b => .pure _
  | _, _, @Elaborates.unary _ _ m .negate _ t _ operand _ => by
      rw [Term.formula, Formula.eval, interpret, ofEval_bind]
      exact .bind (agrees_interpret hR hframe operand) fun v => hR.compute _ _ _
  | _, _, @Elaborates.binary _ _ m .and _ _ _ _ _ lhs rhs _ => by
      rw [Term.formula, Formula.eval, interpret]
      simp only [ofEval_bind, ofEval_given]
      refine .bind (agrees_interpret hR hframe lhs) fun v => .bind (hR.truth _ v) fun b => ?_
      cases b with
      | false => exact .pure _
      | true =>
          simp only [if_true, ofEval_bind, ofEval_given]
          exact .bind (agrees_interpret hR hframe rhs) fun w =>
            .bind (hR.truth _ w) fun c => .pure _
  | _, _, @Elaborates.binary _ _ m .or _ _ _ _ _ lhs rhs _ => by
      rw [Term.formula, Formula.eval, interpret]
      simp only [ofEval_bind, ofEval_given]
      refine .bind (agrees_interpret hR hframe lhs) fun v => .bind (hR.truth _ v) fun b => ?_
      cases b with
      | true => exact .pure _
      | false =>
          simp only [Bool.false_eq_true, if_false, ofEval_bind, ofEval_given]
          exact .bind (agrees_interpret hR hframe rhs) fun w =>
            .bind (hR.truth _ w) fun c => .pure _
  | _, _, @Elaborates.binary _ _ m (.equality op) _ _ _ _ _ lhs rhs _ => by
      rw [Term.formula, Formula.eval, interpret]
      simp only [ofEval_bind]
      exact .bind (agrees_interpret hR hframe lhs) fun v =>
        .bind (agrees_interpret hR hframe rhs) fun w => .pure _
  | _, _, @Elaborates.binary _ _ m (.order op) _ _ _ _ _ lhs rhs _ => by
      rw [Term.formula, Formula.eval, interpret]
      simp only [ofEval_bind]
      exact .bind (agrees_interpret hR hframe lhs) fun v =>
        .bind (agrees_interpret hR hframe rhs) fun w => hR.compute _ _ _
  | _, _, @Elaborates.binary _ _ m (.arithmetic op) _ _ _ _ _ lhs rhs _ => by
      rw [Term.formula, Formula.eval, interpret]
      simp only [ofEval_bind]
      exact .bind (agrees_interpret hR hframe lhs) fun v =>
        .bind (agrees_interpret hR hframe rhs) fun w => hR.compute _ _ _

theorem agree_interpretAll (hR : Lockstep R) (hframe : frame.Holds env) :
    ∀ {es : List Expr} {ts : List Term}, ElaborateAll oracle env.scope es ts →
      Agrees R (ofEval (Formula.evalAll model frame (Term.formulas ts)))
        (interpretAll oracle model env es)
  | _, _, .nil => .pure _
  | _, _, .cons first rest => by
      simp only [Term.formulas, Formula.evalAll, interpretAll, ofEval_bind]
      exact .bind (agrees_interpret hR hframe first) fun v =>
        .bind (agree_interpretAll hR hframe rest) fun vs => .pure _

end

end Expr

-- The arguments of an inclusion: there is one for each parameter, or none.
theorem Argument.relates_interpretFrom {oracle : Oracle} (model : Model ρ) {env : Environment ρ}
    {frame : Frame ρ} (hR : Lockstep R) (hframe : frame.Holds env) {schema : Schema}
    {args : List Argument} {i : Nat} {params : List Parameter} {ts : List (Option Term)}
    (h : Fill oracle env.scope schema args i params ts) :
    Relates R R (With (fun vs ws => vs = ws ∧ vs.length = params.length) R)
      (ofEval (Formula.evalGiven model frame (ts.map (·.map Term.formula))))
      (interpretFrom oracle model env schema args i params) := by
  induction h with
  | nil => exact .pure fun e e' he => ⟨⟨rfl, rfl⟩, he⟩
  | omitted absent _ _ ih =>
      simp only [List.map_cons, Option.map_none, Formula.evalGiven, interpretFrom, absent,
        pure_bind, ofEval_bind]
      refine Relates.bind ih fun vs ws => .of_values ?_
      rintro ⟨rfl, hlength⟩
      exact .pure fun e e' he => ⟨⟨rfl, by simp [hlength]⟩, he⟩
  | given found elaborates _ _ ih =>
      simp only [List.map_cons, Option.map_some, Formula.evalGiven, interpretFrom, found,
        bind_assoc, map_eq_pure_bind, pure_bind, ofEval_bind]
      refine (Expr.agrees_interpret hR hframe elaborates).bind_relates fun v => ?_
      refine Relates.bind ih fun vs ws => .of_values ?_
      rintro ⟨rfl, hlength⟩
      exact .pure fun e e' he => ⟨⟨rfl, by simp [hlength]⟩, he⟩

end Stencil
