import Stencil.Proofs.Meaning.Expressions
import Stencil.Proofs.Soundness.Operations

/-!
Interpretations that end well: with a value of which something is known, or with an error that is
accounted for. All that they log keeps to the types that expressions were given. Expressions that
pass their check do so, in an environment that fits its types.
-/

namespace Stencil

open Run

variable {ρ ω : Type} {α β : Type}

-- Errors that a render may end with, given what was logged. An error in the template itself is that
-- of the last operation.
inductive RenderError.Sanctioned (log : List (Operation ρ)) : RenderError → Prop
  | operation {o : Operation ρ} {rest : List (Operation ρ)} {err : RenderError}
    (last : log = o :: rest) (failed : o.result = .error err)
    (excused : err.ExcusedBy o.operands) : Sanctioned log err
  | unresolvedInclusion (target reason : String) :
    Sanctioned log (.unresolvedInclusion target reason)
  | recursionLimit (target : String) : Sanctioned log (.recursionLimit target)
  | inside (target : String) {cause : RenderError} :
    Sanctioned log cause → Sanctioned log (.inside target cause)

-- Arithmetic on operands that are not `null` is what the type of the expression makes it.
def Operation.Lawful (o : Operation ρ) : Prop :=
  .null ∉ o.operands →
  match o.task with
  | .arithmetic op type => ∃ t a b, type = some t ∧ o.operands = [a, b] ∧ op.Computes t a b o.result
  | .negation type => ∃ t a, type = some t ∧ o.operands = [a] ∧ Value.Negates t a o.result
  | _ => True

def Operation.Blames (o : Operation ρ) : Prop :=
  ∀ err, o.result = .error err → err.Blames o.operands

def Ledger.Lawful (ledger : Ledger ρ ω) : Prop :=
  ∀ o ∈ ledger.operations, o.Lawful ∧ o.Blames

namespace Interp

-- How an interpretation may end. `S` is what is known of its value.
inductive Ends (S : α → Prop) : Except RenderError α × Effects ρ (Ledger ρ ω) → Prop
  | ok {a : α} {e : Effects ρ (Ledger ρ ω)} (lawful : e.links.Lawful) (holds : S a) :
    Ends S (.ok a, e)
  | error {err : RenderError} {e : Effects ρ (Ledger ρ ω)} (lawful : e.links.Lawful)
    (sanctioned : err.Sanctioned e.links.operations) : Ends S (.error err, e)

def Safe (S : α → Prop) (x : Interp ρ ω α) : Prop :=
  ∀ e : Effects ρ (Ledger ρ ω), e.links.Lawful → Ends S (exec x e)

namespace Safe

variable {S : α → Prop} {T : β → Prop} {x : Interp ρ ω α}

theorem pure {a : α} (h : S a) : Safe S (Pure.pure a : Interp ρ ω α) :=
  fun _ he => .ok he h

theorem bind {f : α → Interp ρ ω β} (hx : Safe S x) (hf : ∀ a, S a → Safe T (f a)) :
    Safe T (x >>= f) := by
  intro e he
  rw [exec_bind]
  have hends := hx e he
  generalize exec x e = r at hends ⊢
  cases hends with
  | ok lawful holds => exact hf _ holds _ lawful
  | error lawful sanctioned => exact .error lawful sanctioned

theorem emit (p : Piece) : Safe (fun _ => True) (Run.emit p : Interp ρ ω Unit) :=
  fun _ he => .ok he trivial

-- An error that is not one of an operation.
theorem throw {err : RenderError} (h : ∀ log : List (Operation ρ), err.Sanctioned log) :
    Safe S (MonadExcept.throw err : Interp ρ ω α) :=
  fun _ he => .error he (h _)

-- A task that comes to what it may, and keeps to the types.
theorem perform {task : Task} {operands : List (Value ρ)} {asValue : α → Value ρ} {y : Eval ρ α}
    (hcomes : ∀ requests, Task.Comes operands S (y.run requests).1)
    (hlawful : ∀ requests,
      Operation.Lawful ⟨task, operands, (y.run requests).1.map asValue⟩) :
    Safe S (Interp.perform task operands asValue y : Interp ρ ω α) := by
  intro e he
  rw [exec_perform]
  have hcomes := hcomes e.requests
  have hlawful := hlawful e.requests
  generalize y.run e.requests = r at hcomes hlawful ⊢
  obtain ⟨r, requests⟩ := r
  have hblames : Operation.Blames ⟨task, operands, r.map asValue⟩ := by
    intro err herr
    cases hcomes with
    | ok holds => cases herr
    | error excused blames => exact Except.error.inj herr ▸ blames
  have hledger : Ledger.Lawful
      { e.links with operations := ⟨task, operands, r.map asValue⟩ :: e.links.operations } := by
    intro o ho
    obtain rfl | ho := List.mem_cons.mp ho
    · exact ⟨hlawful, hblames⟩
    · exact he o ho
  cases hcomes with
  | ok holds => exact .ok hledger holds
  | error excused _ => exact .error hledger (.operation rfl rfl excused)

-- The same for a task that makes no requests.
theorem given {task : Task} {operands : List (Value ρ)} {asValue : α → Value ρ}
    {r : Except RenderError α} (hcomes : Task.Comes operands S r)
    (hlawful : Operation.Lawful ⟨task, operands, r.map asValue⟩) :
    Safe S (Interp.perform task operands asValue (Eval.given r) : Interp ρ ω α) :=
  perform (fun _ => hcomes) fun _ => hlawful

-- An evaluation that succeeds, and is no task.
theorem ofEval {y : Eval ρ α} (h : ∀ requests, ∃ a, (y.run requests).1 = .ok a ∧ S a) :
    Safe S (Run.ofEval y : Interp ρ ω α) := by
  intro e he
  obtain ⟨a, ha, hS⟩ := h e.requests
  rw [exec_ofEval, ha]
  exact .ok he hS

theorem truth (name : String) {isA : String → ρ → Prop} {v : Value ρ} (h : v.Fits isA .bool) :
    Safe (fun _ => True) (Interp.truth name v : Interp ρ ω Bool) :=
  given (Value.comes_truth name h) fun _ => trivial

theorem adapt_inside (target : String) (hx : Safe S x) : Safe S (x.adapt (.inside target)) := by
  intro e he
  rw [exec_adapt]
  have hends := hx e he
  generalize exec x e = r at hends ⊢
  cases hends with
  | ok lawful holds => exact .ok lawful holds
  | error lawful sanctioned => exact .error lawful (.inside target sanctioned)

theorem forEach {f : Unit → Nat → Value ρ → Interp ρ ω Unit} {items : List (Value ρ)} {i : Nat}
    (hf : ∀ i, ∀ v ∈ items, Safe (fun _ => True) (f () i v)) :
    Safe (fun _ => True) (Run.forEach f () i items) := by
  induction items generalizing i with
  | nil => exact pure trivial
  | cons v items ih =>
      refine bind (hf i v (by simp)) fun _ _ => ?_
      exact ih fun i w hw => hf i w (by simp [hw])

end Safe

end Interp

open Interp (Safe)

variable {isA : String → ρ → Prop}

-- All variables have values that fit.
def Environment.Fit (isA : String → ρ → Prop) (env : Environment ρ) : Prop :=
  ∀ x ∈ env, ∃ type, x.type = some type ∧ x.value.Fits isA type

theorem Environment.Fit.of_find? {env : Environment ρ} (henv : env.Fit isA) {name : String}
    {slot : Nat} {type : Ty} (h : env.scope.find? name = some (slot, some type)) :
    ∃ x, env.get? name = some x ∧ x.value.Fits isA type := by
  obtain ⟨x, hx, htype, -⟩ := Environment.get?_of_find? h
  obtain ⟨t, ht, hfits⟩ := henv x (List.mem_of_find?_eq_some hx)
  rw [htype] at ht
  obtain rfl := Option.some.inj ht
  exact ⟨x, hx, hfits⟩

theorem Environment.Fit.inLoop {env : Environment ρ} (henv : env.Fit isA) (element : Binding)
    (index : Option Binding) {type : Ty} {item : Value ρ} (hitem : item.Fits isA type) (i : Nat) :
    (env.inLoop element index (some type) item i).Fit isA := by
  have helement : Environment.Fit isA (⟨⟨element.name, some type⟩, item⟩ :: env) := by
    intro x hx
    obtain rfl | hx := List.mem_cons.mp hx
    · exact ⟨type, rfl, hitem⟩
    · exact henv x hx
  cases index with
  | none => exact helement
  | some index =>
      intro x hx
      obtain rfl | hx := List.mem_cons.mp hx
      · exact ⟨.int, rfl, .int _⟩
      · exact helement x hx

theorem Value.exists_term_of_mem {vs : List (Value ρ)} {ts : List Term}
    (h : List.Forall₂ (fun v t => v.Fits isA t.type) vs ts) {v : Value ρ} (hv : v ∈ vs) :
    ∃ t ∈ ts, v.Fits isA t.type := by
  induction h with
  | nil => cases hv
  | cons first _ ih =>
      obtain rfl | hv := List.mem_cons.mp hv
      · exact ⟨_, by simp, first⟩
      · obtain ⟨t, ht, hfits⟩ := ih hv
        exact ⟨t, by simp [ht], hfits⟩

-- Arguments fit the parameters that accept their types.
theorem Value.fit_accepted {vs : List (Value ρ)} {ts : List Term} {params : List Ty}
    (h : List.Forall₂ (fun v t => v.Fits isA t.type) vs ts)
    (haccepted : List.Forall₂ (fun param t => param.accepts t.type = true) params ts) :
    List.Forall₂ (Value.Fits isA) vs params := by
  induction h generalizing params with
  | nil =>
      obtain rfl := List.forall₂_nil_right_iff.mp haccepted
      exact .nil
  | cons first _ ih =>
      obtain ⟨param, rest, haccepts, hrest, rfl⟩ := List.forall₂_cons_right_iff.mp haccepted
      exact .cons (first.of_accepts haccepts) (ih hrest)

variable [DecidableEq ρ] {oracle : Oracle} {model : Model ρ} {env : Environment ρ}

namespace Expr

-- The value of an operand, then what is done to it.
theorem safe_interpret_unary (m : Mark) (op : UnaryOp) {operand : Expr} {t : Term} {type : Ty}
    (ho : operand.Elaborates oracle env.scope t) (htype : op.type? t.type = some type)
    (hsafe : Safe (·.Fits isA t.type)
      (operand.interpret oracle model env : Interp ρ ω (Value ρ))) :
    Safe (·.Fits isA type)
      ((Expr.unary m op operand).interpret oracle model env : Interp ρ ω (Value ρ)) := by
  have htyped : (Expr.unary m op operand).typeIn oracle env.scope = some type :=
    typeIn_of_elaborates (.unary ho htype)
  cases op with
  | not =>
      rw [interpret]
      have hbool : t.type = .bool ∧ type = .bool := by
        generalize t.type = u at htype
        cases u <;> simp_all [UnaryOp.type?]
      refine hsafe.bind fun v hv => (Safe.truth _ (hbool.1 ▸ hv)).bind fun b _ => ?_
      exact .pure (hbool.2 ▸ .bool _)
  | negate =>
      rw [interpret]
      refine hsafe.bind fun v hv => .given (v.comes_negate htype hv) fun hnull => ?_
      have hnegates := Value.negates_of_fits htype hv hnull
      refine ⟨type, v, htyped, rfl, ?_⟩
      simpa using hnegates

theorem type?_logical {op : BinaryOp} (hop : op = .and ∨ op = .or) {a b type : Ty}
    (h : op.type? a b = some type) : a = .bool ∧ b = .bool ∧ type = .bool := by
  obtain rfl | rfl := hop <;>
  · simp only [BinaryOp.type?] at h
    split at h
    · next hab => exact ⟨hab.1, hab.2, (Option.some.inj h).symm⟩
    · cases h

theorem type?_order {op : OrderOp} {a b type : Ty}
    (h : (BinaryOp.order op).type? a b = some type) : type = .bool := by
  simp only [BinaryOp.type?] at h
  split at h
  · exact (Option.some.inj h).symm
  · obtain ⟨_, _, h⟩ := Option.map_eq_some_iff.mp h
    exact h.symm

theorem safe_interpret_binary (m : Mark) (op : BinaryOp) {lhs rhs : Expr} {a b : Term} {type : Ty}
    (hlhs : lhs.Elaborates oracle env.scope a) (hrhs : rhs.Elaborates oracle env.scope b)
    (htype : op.type? a.type b.type = some type)
    (hsafe : Safe (·.Fits isA a.type) (lhs.interpret oracle model env : Interp ρ ω (Value ρ)))
    (hsafe' : Safe (·.Fits isA b.type) (rhs.interpret oracle model env : Interp ρ ω (Value ρ))) :
    Safe (·.Fits isA type)
      ((Expr.binary m op lhs rhs).interpret oracle model env : Interp ρ ω (Value ρ)) := by
  have htyped : (Expr.binary m op lhs rhs).typeIn oracle env.scope = some type :=
    typeIn_of_elaborates (.binary hlhs hrhs htype)
  cases op with
  | and =>
      obtain ⟨hta, htb, rfl⟩ := type?_logical (.inl rfl) htype
      rw [interpret]
      refine hsafe.bind fun v hv => (Safe.truth _ (hta ▸ hv)).bind fun holds _ => ?_
      cases holds with
      | false => exact .pure (.bool _)
      | true =>
          exact hsafe'.bind fun w hw => (Safe.truth _ (htb ▸ hw)).bind fun b _ => .pure (.bool _)
  | or =>
      obtain ⟨hta, htb, rfl⟩ := type?_logical (.inr rfl) htype
      rw [interpret]
      refine hsafe.bind fun v hv => (Safe.truth _ (hta ▸ hv)).bind fun holds _ => ?_
      cases holds with
      | true => exact .pure (.bool _)
      | false =>
          exact hsafe'.bind fun w hw => (Safe.truth _ (htb ▸ hw)).bind fun b _ => .pure (.bool _)
  | equality op =>
      obtain ⟨_, _, rfl⟩ := Option.map_eq_some_iff.mp htype
      rw [interpret]
      refine hsafe.bind fun v _ => hsafe'.bind fun w _ => .pure ?_
      cases op <;> exact .bool _
  | order op =>
      obtain rfl := type?_order htype
      rw [interpret]
      exact hsafe.bind fun v _ => hsafe'.bind fun w _ =>
        .given (Value.comes_order op v w) fun _ => trivial
  | arithmetic op =>
      rw [interpret]
      refine hsafe.bind fun v hv => hsafe'.bind fun w hw =>
        .given (op.comes_apply htype hv hw) fun hnull => ?_
      have hcomputes := op.computes_of_fits htype hv hw hnull
      refine ⟨type, v, w, htyped, rfl, ?_⟩
      simpa using hcomputes

-- The induction is on how expressions stand for terms.
mutual

theorem safe_interpret (hmodel : model.Conforms oracle isA) (henv : env.Fit isA) :
    ∀ {e : Expr} {t : Term}, e.Elaborates oracle env.scope t →
      Safe (·.Fits isA t.type) (e.interpret oracle model env : Interp ρ ω (Value ρ))
  | _, _, .literal _ value => .pure (Value.fits_literal value)
  | _, _, .name found => by
      obtain ⟨x, hx, hfits⟩ := Environment.Fit.of_find? henv found
      simp only [interpret, hx]
      exact .pure hfits
  | _, _, @Elaborates.list _ _ m items ts element hitems joined => by
      rw [interpret]
      refine (safe_interpretAll hmodel henv hitems).bind fun vs hvs => .pure (.list fun v hv => ?_)
      obtain ⟨t, ht, hfits⟩ := Value.exists_term_of_mem hvs hv
      exact hfits.of_accepts (Ty.accepts_of_join joined t.type (List.mem_map_of_mem ht))
  | _, _, .field object typed found => by
      rw [interpret]
      refine (safe_interpret hmodel henv object).bind fun v hv =>
        .perform (fun requests => ?_) fun _ _ => trivial
      exact hmodel.comes_access (typed ▸ hv) found requests
  | _, _, .method object typed found args accepted => by
      rw [interpret]
      simp only [typeIn_of_elaborates object, typed]
      refine (safe_interpret hmodel henv object).bind fun v hv =>
        (safe_interpretAll hmodel henv args).bind fun vs hvs =>
          .perform (fun requests => ?_) fun _ _ => trivial
      exact hmodel.comes_invoke (typed ▸ hv) found (Value.fit_accepted hvs accepted) requests
  | _, _, .builtin object found => by
      rw [interpret_builtin object found]
      exact (safe_interpret hmodel henv object).bind fun v hv =>
        .given (Value.comes_builtin hv found) fun _ => trivial
  | _, _, .contains object found needle accepted => by
      rw [interpret_contains object found]
      exact (safe_interpret hmodel henv object).bind fun v hv =>
        (safe_interpret hmodel henv needle).bind fun w hw =>
          .given (Value.comes_contains hv found hw accepted) fun _ => trivial
  | _, _, @Elaborates.unary _ _ m op _ _ _ operand typed =>
      safe_interpret_unary m op operand typed (safe_interpret hmodel henv operand)
  | _, _, @Elaborates.binary _ _ m op _ _ _ _ _ lhs rhs typed =>
      safe_interpret_binary m op lhs rhs typed (safe_interpret hmodel henv lhs)
        (safe_interpret hmodel henv rhs)

theorem safe_interpretAll (hmodel : model.Conforms oracle isA) (henv : env.Fit isA) :
    ∀ {es : List Expr} {ts : List Term}, ElaborateAll oracle env.scope es ts →
      Safe (fun vs => List.Forall₂ (fun v t => v.Fits isA t.type) vs ts)
        (interpretAll oracle model env es : Interp ρ ω (List (Value ρ)))
  | _, _, .nil => .pure .nil
  | _, _, .cons first rest => by
      rw [interpretAll]
      exact (safe_interpret hmodel henv first).bind fun v hv =>
        (safe_interpretAll hmodel henv rest).bind fun vs hvs => .pure (.cons hv hvs)

end

end Expr

-- The arguments of an inclusion that passes fit the parameters of its target.
theorem Argument.safe_interpretFrom (hmodel : model.Conforms oracle isA) (henv : env.Fit isA)
    {schema : Schema} {args : List Argument} {i : Nat} {params : List Parameter}
    {ts : List (Option Term)} (h : Fill oracle env.scope schema args i params ts) :
    Safe (Argument.Fit isA · params)
      (interpretFrom oracle model env schema args i params : Interp ρ ω _) := by
  induction h with
  | nil => exact .pure .nil
  | omitted absent default _ ih =>
      simp only [interpretFrom, absent, pure_bind]
      exact ih.bind fun vs hvs => .pure (.cons default hvs)
  | given found elaborates accepts _ ih =>
      simp only [interpretFrom, found, bind_assoc, map_eq_pure_bind, pure_bind]
      exact (Expr.safe_interpret hmodel henv elaborates).bind fun v hv =>
        ih.bind fun vs hvs => .pure (.cons (hv.of_accepts accepts) hvs)

end Stencil
