import Stencil.Proofs.Render.Blame
import Stencil.Proofs.Soundness.Operations

/-!
Which errors say that inclusions nest too deep: that of the limit itself, and what a model may
answer. Nothing else in a render does.
-/

namespace Stencil

open Run

variable {ρ κ ω α β : Type}

-- An error that says so, of these templates or of what they include.
def RenderError.Limited : RenderError → Prop
  | .recursionLimit _ => True
  | .inside _ cause => cause.Limited
  | _ => False

-- The names of inclusions around an error do not tell.
theorem RenderError.limited_foldr {targets : List String} {err : RenderError} :
    (targets.foldr .inside err).Limited ↔ err.Limited := by
  induction targets with
  | nil => rfl
  | cons target targets ih => exact ih

-- A method of a model answers with an error.
def Model.Answers (model : Model ρ) (err : RenderError) : Prop :=
  ∃ asked ref name args, model.call asked ref name args = .error err

-- A result that does not say so.
def Unlimited (r : Except RenderError α) : Prop := ∀ err, r = .error err → ¬ err.Limited

namespace Unlimited

theorem ok (a : α) : Unlimited (.ok a) := fun _ h => nomatch h

theorem error {err : RenderError} (h : ¬ err.Limited) :
    Unlimited (.error err : Except RenderError α) := by
  rintro _ ⟨⟩
  exact h

theorem map {r : Except RenderError α} (h : Unlimited r) (f : α → β) : Unlimited (r.map f) :=
  fun err herr => h err (eq_error_of_map herr)

theorem shown (v : Value ρ) : Unlimited v.shown := by
  cases v with
  | list | record => exact .error id
  | _ => exact .ok _

theorem truth (name : String) (v : Value ρ) : Unlimited (v.truth name) := by
  cases v with
  | bool b => exact .ok b
  | _ => exact .error id

theorem negate (v : Value ρ) : Unlimited v.negate := by
  cases v with
  | int n =>
      rw [Value.negate]
      cases Number.word? (-n.toInt) with
      | some w => exact .ok _
      | none => exact .error id
  | float x => exact .ok _
  | _ => exact .error id

theorem noMethod (name : String) (v : Value ρ) :
    Unlimited (v.noMethod name : Except RenderError α) := by
  cases v with
  | _ => exact .error id

theorem builtin (b : Builtin) (v : Value ρ) : Unlimited (b.apply v) := by
  unfold Builtin.apply
  split
  case h_8 => exact noMethod _ v
  all_goals exact .ok _

theorem contains [DecidableEq ρ] (v w : Value ρ) : Unlimited (v.contains w) := by
  unfold Value.contains
  split
  case h_3 => exact .error id
  case h_5 => exact noMethod _ v
  all_goals exact .ok _

theorem order (op : OrderOp) (v w : Value ρ) : Unlimited (op.apply v w) := by
  unfold OrderOp.apply
  split
  · exact .error id
  · exact .ok _

theorem arithmetic (op : ArithmeticOp) (v w : Value ρ) : Unlimited (op.apply v w) := by
  have hnumbers : Unlimited (op.onNumbers v w) := by
    unfold ArithmeticOp.onNumbers
    split
    · next a b =>
      refine map ?_ _
      obtain ⟨k, hk⟩ | hk | hk := op.onInts_cases a b <;> rw [hk]
      · exact .ok k
      · exact .error id
      · exact .error id
    · split
      · next a b _ _ =>
        refine map ?_ _
        obtain ⟨z, hz⟩ | hz := op.onFloats_cases a b <;> rw [hz]
        · exact .ok z
        · exact .error id
      · exact .error id
      · exact .error id
  unfold ArithmeticOp.apply
  split
  · exact .ok _
  · exact hnumbers

theorem defaultValue (p : Parameter) :
    Unlimited (p.defaultValue : Except RenderError (Value ρ)) := by
  unfold Parameter.defaultValue
  cases p.default with
  | some c => exact .ok _
  | none => exact .error id

theorem bindArgs (params : List Parameter) (args : List (Option (Value ρ))) :
    Unlimited (Stencil.bindArgs params args) := by
  induction params generalizing args with
  | nil => exact .ok _
  | cons p params ih =>
      cases args with
      | nil => exact .ok _
      | cons arg args =>
          have htake : Unlimited (p.take arg) := by
            cases arg with
            | some v => exact .ok _
            | none => exact (defaultValue p).map _
          rw [bindArgs_cons]
          cases harg : p.take arg with
          | error err =>
              rw [harg] at htake
              exact .error (htake err rfl)
          | ok v => exact (ih args).map (v :: ·)

theorem read (p : Parameter) (model : Model ρ) (asked : Nat) (root : ρ) :
    Unlimited (p.read model asked root) := by
  unfold Parameter.read
  cases model.field asked root p.name with
  | none => exact (defaultValue p).map _
  | some v =>
      dsimp only
      split
      · exact .ok _
      · exact .error id

theorem reading {model : Model ρ} {root : ρ} {n : Nat} {params asked : List Parameter}
    {result : Except RenderError (List (Value ρ))}
    (h : Parameter.Reading model root n params asked result) : Unlimited result := by
  induction h with
  | nil => exact .ok _
  | @fails n p _ err first => exact .error (read p model n root err first)
  | reads _ _ ih => exact ih.map _

end Unlimited

-- An evaluation that says so only where the model does.
def Eval.LimitedBy (model : Model ρ) (x : Eval ρ α) : Prop :=
  ∀ requests, ∀ err, (x.run requests).1 = .error err → err.Limited → model.Answers err

namespace Eval.LimitedBy

variable {model : Model ρ} {x : Eval ρ α}

theorem pure (a : α) : Eval.LimitedBy model (Pure.pure a) := fun _ _ h => nomatch h

theorem bind {f : α → Eval ρ β} (hx : x.LimitedBy model) (hf : ∀ a, (f a).LimitedBy model) :
    (x >>= f).LimitedBy model := by
  intro requests err h
  rw [run_bind] at h
  have hxr := hx requests err
  generalize x.run requests = r at h hxr
  obtain ⟨err' | a, requests'⟩ := r
  · obtain rfl := Except.error.inj h
    exact hxr rfl
  · exact hf a requests' err h

theorem given {r : Except RenderError α} (h : Unlimited r) :
    (Eval.given r : Eval ρ α).LimitedBy model :=
  fun _ err herr hlimited => absurd hlimited (h err herr)

theorem receiver (name : String) (v : Value ρ) : (v.receiver name).LimitedBy model := by
  cases v with
  | record ref => exact pure ref
  | _ => exact given (.error id)

theorem askField (ref : ρ) (name : String) : (model.askField ref name).LimitedBy model :=
  fun _ _ h => nomatch h

theorem askCall (ref : ρ) (name : String) (args : List (Value ρ)) :
    (model.askCall ref name args).LimitedBy model :=
  fun _ _ h _ => ⟨_, ref, name, args, h⟩

end Eval.LimitedBy

open Eval.LimitedBy in
mutual

theorem Formula.limitedBy_eval [DecidableEq ρ] (model : Model ρ) (frame : Frame ρ) :
    ∀ code : Formula, (code.eval model frame).LimitedBy model
  | .constant c => pure _
  | .slot index => pure _
  | .list items => .bind (Formula.limitedBy_evalAll model frame items) fun _ => pure _
  | .field object name =>
      .bind (Formula.limitedBy_eval model frame object) fun v => .bind (receiver name v) fun ref =>
        .bind (askField ref name) fun v => by
          cases v with
          | some v => exact pure v
          | none => exact given (.error id)
  | .method object name args =>
      .bind (Formula.limitedBy_eval model frame object) fun v =>
        .bind (Formula.limitedBy_evalAll model frame args) fun args =>
          .bind (receiver name v) fun ref => askCall ref name args
  | .builtin object b =>
      .bind (Formula.limitedBy_eval model frame object) fun v => given (.builtin b v)
  | .contains object needle =>
      .bind (Formula.limitedBy_eval model frame object) fun v =>
        .bind (Formula.limitedBy_eval model frame needle) fun w => given (.contains v w)
  | .not operand =>
      .bind (Formula.limitedBy_eval model frame operand) fun v =>
        .bind (given (.truth "!" v)) fun _ => pure _
  | .negate operand =>
      .bind (Formula.limitedBy_eval model frame operand) fun v => given (.negate v)
  | .and lhs rhs =>
      .bind (Formula.limitedBy_eval model frame lhs) fun v => .bind (given (.truth "&&" v))
        fun holds => by
          cases holds with
          | true =>
              exact .bind (Formula.limitedBy_eval model frame rhs) fun w =>
                .bind (given (.truth "&&" w)) fun _ => pure _
          | false => exact pure _
  | .or lhs rhs =>
      .bind (Formula.limitedBy_eval model frame lhs) fun v => .bind (given (.truth "||" v))
        fun holds => by
          cases holds with
          | true => exact pure _
          | false =>
              exact .bind (Formula.limitedBy_eval model frame rhs) fun w =>
                .bind (given (.truth "||" w)) fun _ => pure _
  | .equality op lhs rhs =>
      .bind (Formula.limitedBy_eval model frame lhs) fun v =>
        .bind (Formula.limitedBy_eval model frame rhs) fun w => pure _
  | .order op lhs rhs =>
      .bind (Formula.limitedBy_eval model frame lhs) fun v =>
        .bind (Formula.limitedBy_eval model frame rhs) fun w => given (.order op v w)
  | .arithmetic op lhs rhs =>
      .bind (Formula.limitedBy_eval model frame lhs) fun v =>
        .bind (Formula.limitedBy_eval model frame rhs) fun w => given (.arithmetic op v w)

theorem Formula.limitedBy_evalAll [DecidableEq ρ] (model : Model ρ) (frame : Frame ρ) :
    ∀ codes : List Formula, (Formula.evalAll model frame codes).LimitedBy model
  | [] => pure _
  | code :: codes =>
      .bind (Formula.limitedBy_eval model frame code) fun _ =>
        .bind (Formula.limitedBy_evalAll model frame codes) fun _ => pure _

end

theorem Formula.limitedBy_evalGiven [DecidableEq ρ] (model : Model ρ) (frame : Frame ρ) :
    ∀ codes : List (Option Formula), (Formula.evalGiven model frame codes).LimitedBy model
  | [] => .pure _
  | none :: codes => .bind (Formula.limitedBy_evalGiven model frame codes) fun _ => .pure _
  | some code :: codes =>
      .bind (Formula.limitedBy_eval model frame code) fun _ =>
        .bind (Formula.limitedBy_evalGiven model frame codes) fun _ => .pure _

variable [DecidableEq ρ]

namespace Linker

variable {linker : Linker κ ω} {model : Model ρ} {m : Moment κ ρ ω} {err : RenderError}

-- Where it is raised at a moment that inclusions nest too deep.
theorem Raises.limited (h : linker.Raises model m err) (hlimited : err.Limited)
    (hlink : ∀ self site target links, Unlimited (linker.link self site target links).1) :
    (m.depth = 0 ∧ ∃ site target args ops, m.ops = .inclusion site target args :: ops ∧
      err = .recursionLimit target) ∨ model.Answers err := by
  cases h with
  | value _ _ value =>
      exact .inr (Formula.limitedBy_eval model _ _ _ err (congrArg Prod.fst value) hlimited)
  | shown _ _ _ shown => exact absurd hlimited (Unlimited.shown _ err shown)
  | truth _ _ truth => exact absurd hlimited (Unlimited.truth "condition" _ err truth)
  | notIterable => exact absurd hlimited id
  | limit first depth => exact .inl ⟨depth, _, _, _, _, first, rfl⟩
  | link _ _ linked => exact absurd hlimited (hlink _ _ _ _ err (congrArg Prod.fst linked))
  | args _ _ value =>
      exact .inr (Formula.limitedBy_evalGiven model _ _ _ err (congrArg Prod.fst value) hlimited)
  | bound _ _ _ bound =>
      have hcause : ¬ RenderError.Limited _ := Unlimited.bindArgs _ _ _ bound
      exact absurd hlimited hcause

-- The inclusion that comes next where no more may be entered.
theorem exec_of_limit {site : Nat} {target : String} {args : List (Option Formula)}
    (h : m.depth = 0) :
    exec ((Op.inclusion site target args).run model (linker.openerAt model m) m.frame) m.effects =
      (.error (.recursionLimit target), m.effects) := by
  rw [openerAt, h]
  rfl

variable {self : κ} {root : ρ} {sink : Sink} {links : ω} {values : List (Value ρ)}
  {requests : Array (Request ρ)}

-- A render fails as its body does, once its parameters are read.
theorem outcome_eq_error_iff (hmode : (linker.program self).mode = sink.mode)
    (hread : (readParams model root (linker.program self).schema.params).run #[] =
      (.ok values, requests)) :
    (render linker self model root sink links).outcome = .error err ↔
      linker.Fails model ⟨self, maxInclusionDepth, (linker.program self).frame values,
        ⟨requests, #[], links⟩, (linker.program self).body⟩ err := by
  rw [render_of_read hmode hread, Fails]
  dsimp only [openerAt]
  generalize (exec (Op.runAll model (linker.opener model maxInclusionDepth self)
    ((linker.program self).frame values) (linker.program self).body) ⟨requests, #[], links⟩).1 = r
  cases r <;> simp [Except.map]

-- Too deep an inclusion fails the render, under the names of all inclusions around it.
theorem ReachesIn.outcome {targets : List String} {site : Nat} {target : String}
    {args : List (Option Formula)} {ops : List Op}
    (h : linker.ReachesIn model root self links targets m)
    (hlength : targets.length = maxInclusionDepth)
    (hfirst : m.ops = .inclusion site target args :: ops)
    (hmode : (linker.program self).mode = sink.mode) :
    (render linker self model root sink links).outcome =
      .error (targets.foldr .inside (.recursionLimit target)) := by
  have hdepth : m.depth = 0 := by
    have hlevels := h.depth
    omega
  obtain ⟨values, requests, hread, hway⟩ := h
  rw [outcome_eq_error_iff hmode hread]
  exact hway.fails (fails_of_first hfirst (congrArg Prod.fst (exec_of_limit hdepth)))

-- Else no render says that inclusions nest too deep, unless the model does.
theorem outcome_limited (hlink : ∀ self site target links,
      Unlimited (linker.link self site target links).1)
    (h : (render linker self model root sink links).outcome = .error err)
    (hlimited : err.Limited) :
    (∃ targets m site target args ops, linker.ReachesIn model root self links targets m ∧
      targets.length = maxInclusionDepth ∧ m.ops = .inclusion site target args :: ops ∧
      err = targets.foldr .inside (.recursionLimit target)) ∨
    ∃ (targets : List String) (err' : RenderError), model.Answers err' ∧
      err = targets.foldr .inside err' := by
  by_cases hmode : (linker.program self).mode = sink.mode
  swap
  · simp only [render, hmode, if_false] at h
    obtain rfl := Except.error.inj h
    exact absurd hlimited id
  obtain ⟨asked, hreading, -⟩ :=
    Parameter.reading_readParams model root (linker.program self).schema.params #[]
  cases hread : (readParams model root (linker.program self).schema.params).run #[] with
  | mk r requests =>
  rw [hread] at hreading
  cases r with
  | error err' =>
      rw [render_of_unread hmode hread] at h
      obtain rfl := Except.error.inj h
      exact absurd hlimited (Unlimited.reading hreading err' rfl)
  | ok values =>
      rw [outcome_eq_error_iff hmode hread] at h
      obtain ⟨targets, m, err', hway, hraises, rfl⟩ := h.exists_raises
      obtain ⟨hdepth, site, target, args, ops, hfirst, rfl⟩ | hanswers :=
        hraises.limited (RenderError.limited_foldr.mp hlimited) hlink
      · refine .inl ⟨targets, m, site, target, args, ops, ⟨values, requests, hread, hway⟩, ?_,
          hfirst, rfl⟩
        have hlevels := hway.depth
        rw [hdepth] at hlevels
        exact hlevels
      · exact .inr ⟨targets, err', hanswers, rfl⟩

end Linker

end Stencil
