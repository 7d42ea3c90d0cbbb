import Stencil.Proofs.Render.Parameters
import Stencil.Proofs.Render.Renaming

/-!
A program rendered from two models that answer alike, of which one knows the records by other names.
It does the same to the output and to the links, and makes corresponding requests.
-/

namespace Stencil

open Run

variable {ρ ρ' κ ω : Type} {α β γ δ : Type}

def Request.rename (f : ρ → ρ') : Request ρ → Request ρ'
  | .field ref name => .field (f ref) name
  | .call ref name args => .call (f ref) name (args.map (Value.rename f))

-- Models that answer alike from some request on: one after `asked` others, one after `asked'`.
structure Model.Mirrors (f : ρ → ρ') (asked asked' : Nat) (model : Model ρ) (model' : Model ρ') :
    Prop where
  field : ∀ n ref name, model'.field (asked' + n) (f ref) name =
    (model.field (asked + n) ref name).map (Value.rename f)
  call : ∀ n ref name args, model'.call (asked' + n) (f ref) name (args.map (Value.rename f)) =
    (model.call (asked + n) ref name args).map (Value.rename f)

-- Effects of two runs that did the same since they began.
structure Effects.Mirrors (f : ρ → ρ') (start : Effects ρ ω) (start' : Effects ρ' ω)
    (e : Effects ρ ω) (e' : Effects ρ' ω) : Prop where
  requests : ∃ later, e.requests = start.requests ++ later ∧
    e'.requests = start'.requests ++ later.map (Request.rename f)
  pieces : ∃ later, e.pieces = start.pieces ++ later ∧ e'.pieces = start'.pieces ++ later
  links : e.links = e'.links

-- Runs that keep a relation between effects, and of which the second gives what corresponds to the
-- value of the first.
def Run.Mirrors (R : Effects ρ ω → Effects ρ' ω → Prop) (g : α → β) (x : Run ρ ω α)
    (y : Run ρ' ω β) : Prop :=
  Relates R R (With (fun a b => b = g a) R) x y

namespace Run.Mirrors

variable {R : Effects ρ ω → Effects ρ' ω → Prop} {x : Run ρ ω α} {y : Run ρ' ω β}

theorem pure {g : α → β} {a : α} {b : β} (h : b = g a) :
    Mirrors R g (Pure.pure a) (Pure.pure b) :=
  Relates.pure fun _ _ he => ⟨h, he⟩

theorem throw {g : α → β} (err : RenderError) :
    Mirrors R g (throw err : Run ρ ω α) (MonadExcept.throw err : Run ρ' ω β) :=
  Relates.throw fun _ _ he => he

theorem given {g : α → β} {r : Except RenderError α} {r' : Except RenderError β}
    (h : r' = r.map g) : Mirrors R g (Run.given r) (Run.given r') := by
  subst h
  cases r with
  | ok a => exact pure rfl
  | error err => exact throw err

theorem bind {g : α → β} {h : γ → δ} {k : α → Run ρ ω γ} {k' : β → Run ρ' ω δ}
    (hxy : Mirrors R g x y) (hk : ∀ a, Mirrors R h (k a) (k' (g a))) :
    Mirrors R h (x >>= k) (y >>= k') := by
  refine Relates.bind hxy fun a b => .of_values ?_
  rintro rfl
  exact hk a

theorem adapt {g : α → β} (mark : RenderError → RenderError) (h : Mirrors R g x y) :
    Mirrors R g (x.adapt mark) (y.adapt mark) := Relates.adapt mark h

-- Runs that give the same values end alike.
theorem exec_eq {x : Run ρ ω α} {y : Run ρ' ω α} (h : Mirrors R id x y) {e : Effects ρ ω}
    {e' : Effects ρ' ω} (he : R e e') :
    (exec x e).1 = (exec y e').1 ∧ R (exec x e).2 (exec y e').2 := by
  generalize hx : exec x e = r, hy : exec y e' = r'
  have hends : Ends R (With (fun a b => b = id a) R) r r' := by
    simpa [hx, hy] using h e e' he
  cases hends with
  | ok hends => exact ⟨congrArg Except.ok hends.1.symm, hends.2⟩
  | error hR => exact ⟨rfl, hR⟩

end Run.Mirrors

variable {f : ρ → ρ'} {start : Effects ρ ω} {start' : Effects ρ' ω} {model : Model ρ}
  {model' : Model ρ'}

theorem Effects.Mirrors.begin (h : start.links = start'.links) :
    Effects.Mirrors f start start' start start' :=
  ⟨⟨#[], by simp⟩, ⟨#[], by simp⟩, h⟩

theorem Run.Mirrors.emit (p : Piece) :
    Run.Mirrors (Effects.Mirrors f start start') id (Run.emit p) (Run.emit p) := by
  intro e e' he
  obtain ⟨later, hpieces, hpieces'⟩ := he.pieces
  refine .ok ⟨rfl, he.requests, ⟨later.push p, ?_, ?_⟩, he.links⟩
  · simp [hpieces]
  · simp [hpieces']

theorem Run.Mirrors.ofLink (x : ω → Except RenderError α × ω) :
    Run.Mirrors (Effects.Mirrors f start start') id (Run.ofLink x) (Run.ofLink x) := by
  refine Relates.ofLink ?_ ?_ ?_ x
  · exact fun _ => rfl
  · exact fun he => he.links
  · exact fun _ he => ⟨he.requests, he.pieces, rfl⟩

-- A request that is made of both models is one that was made of both.
theorem Effects.Mirrors.push {e : Effects ρ ω} {e' : Effects ρ' ω}
    (h : Effects.Mirrors f start start' e e') (request : Request ρ) :
    Effects.Mirrors f start start' { e with requests := e.requests.push request }
      { e' with requests := e'.requests.push (request.rename f) } := by
  obtain ⟨later, hrequests, hrequests'⟩ := h.requests
  exact ⟨⟨later.push request, by simp [hrequests], by simp [hrequests']⟩, h.pieces, h.links⟩

-- Both have made as many requests since they began.
theorem Effects.Mirrors.asked {e : Effects ρ ω} {e' : Effects ρ' ω}
    (h : Effects.Mirrors f start start' e e') :
    ∃ n, e.requests.size = start.requests.size + n ∧
      e'.requests.size = start'.requests.size + n := by
  obtain ⟨later, hrequests, hrequests'⟩ := h.requests
  exact ⟨later.size, by simp [hrequests], by simp [hrequests']⟩

section Evaluation

variable (hmodel : model.Mirrors f start.requests.size start'.requests.size model')

include hmodel

theorem Model.Mirrors.askField (ref : ρ) (name : String) :
    Run.Mirrors (Effects.Mirrors f start start') (Option.map (Value.rename f))
      (ofEval (model.askField ref name)) (ofEval (model'.askField (f ref) name)) := by
  intro e e' he
  obtain ⟨n, hsize, hsize'⟩ := he.asked
  have hanswer := hmodel.field n ref name
  rw [← hsize, ← hsize'] at hanswer
  exact .ok ⟨hanswer, he.push (.field ref name)⟩

theorem Model.Mirrors.askCall (ref : ρ) (name : String) (args : List (Value ρ)) :
    Run.Mirrors (Effects.Mirrors f start start') (Value.rename f)
      (ofEval (model.askCall ref name args))
      (ofEval (model'.askCall (f ref) name (args.map (Value.rename f)))) := by
  intro e e' he
  obtain ⟨n, hsize, hsize'⟩ := he.asked
  have hanswer := hmodel.call n ref name args
  rw [← hsize, ← hsize'] at hanswer
  have hpush := he.push (.call ref name args)
  change Ends _ _ (model.call e.requests.size ref name args, _)
    (model'.call e'.requests.size (f ref) name (args.map (Value.rename f)), _)
  rw [hanswer]
  cases model.call e.requests.size ref name args with
  | ok v => exact .ok ⟨rfl, hpush⟩
  | error err => exact .error hpush

end Evaluation

theorem Value.mirrors_receiver {R : Effects ρ ω → Effects ρ' ω → Prop} (name : String)
    (v : Value ρ) :
    Run.Mirrors R f (ofEval (v.receiver name)) (ofEval ((v.rename f).receiver name)) := by
  cases v with
  | record ref => exact .pure rfl
  | _ => exact .throw _

theorem Run.Mirrors.truth {R : Effects ρ ω → Effects ρ' ω → Prop} (name : String) (v : Value ρ) :
    Run.Mirrors R id (Run.given (v.truth name)) (Run.given ((v.rename f).truth name)) := by
  rw [Value.truth_rename]
  refine .given ?_
  cases v.truth name <;> rfl

theorem Frame.map_store (frame : Frame ρ) (element : Nat) (index : Option Nat) (v : Value ρ)
    (i : Nat) : (frame.store element index v i).map (Value.rename f) =
      Frame.store (frame.map (Value.rename f)) element index (v.rename f) i := by
  cases index <;> simp [Frame.store, List.map_set, Value.rename]

theorem Value.mirrors_shown {R : Effects ρ ω → Effects ρ' ω → Prop} (v : Value ρ) :
    Run.Mirrors R id (Run.given v.shown) (Run.given (v.rename f).shown) := by
  rw [v.shown_rename f]
  refine .given ?_
  cases v.shown <;> rfl

-- Arguments, where they are given.
def renameGiven (f : ρ → ρ') (args : List (Option (Value ρ))) : List (Option (Value ρ')) :=
  args.map (Option.map (Value.rename f))

theorem Parameter.take_rename (p : Parameter) (arg : Option (Value ρ)) :
    p.take (arg.map (Value.rename f)) = (p.take arg).map (Value.rename f) := by
  cases arg with
  | some v => exact congrArg Except.ok (v.widen_rename f p.type)
  | none =>
      simp only [Option.map_none, take, defaultValue]
      cases p.default with
      | none => rfl
      | some c =>
          change Except.ok (c.value.widen p.type) = Except.ok ((c.value.widen p.type).rename f)
          rw [← Value.widen_rename, c.rename_value f]

theorem bindArgs_rename (params : List Parameter) (args : List (Option (Value ρ))) :
    bindArgs params (renameGiven f args) =
      (bindArgs params args).map (List.map (Value.rename f)) := by
  induction params generalizing args with
  | nil => rfl
  | cons p params ih =>
      cases args with
      | nil => rfl
      | cons arg args =>
          change bindArgs (p :: params) (arg.map (Value.rename f) :: renameGiven f args) = _
          rw [bindArgs_cons, bindArgs_cons, p.take_rename, ih]
          cases p.take arg with
          | error err => rfl
          | ok v => cases bindArgs params args <;> rfl

-- Inclusions that are opened alike and, with corresponding arguments, rendered alike.
def Opener.Mirrors (R : Effects ρ ω → Effects ρ' ω → Prop) (f : ρ → ρ') (opener : Opener ρ ω)
    (opener' : Opener ρ' ω) : Prop :=
  ∀ site target, Relates R R
    (With (fun enter enter' => ∀ args, Run.Mirrors R id (enter args) (enter' (renameGiven f args)))
      R) (opener site target) (opener' site target)

theorem Opener.Mirrors.inclusion {R : Effects ρ ω → Effects ρ' ω → Prop} {opener : Opener ρ ω}
    {opener' : Opener ρ' ω} (h : Opener.Mirrors R f opener opener') (site : Nat) (target : String)
    {args : Run ρ ω (List (Option (Value ρ)))} {args' : Run ρ' ω (List (Option (Value ρ')))}
    (hargs : Run.Mirrors R (renameGiven f) args args') :
    Run.Mirrors R id (Run.inclusion opener site target args)
      (Run.inclusion opener' site target args') := by
  refine Relates.bind (h site target) fun enter enter' => .of_values fun henter => ?_
  exact Run.Mirrors.bind hargs fun vs => (henter vs).adapt _

variable [DecidableEq ρ] [DecidableEq ρ']

mutual

theorem Formula.mirrors_eval (hf : Function.Injective f)
    (hmodel : model.Mirrors f start.requests.size start'.requests.size model') (frame : Frame ρ) :
    ∀ c : Formula, Run.Mirrors (Effects.Mirrors f start start') (Value.rename f)
      (ofEval (c.eval model frame)) (ofEval (c.eval model' (frame.map (Value.rename f))))
  | .constant c => .pure (c.rename_value f).symm
  | .slot index => .pure (by
      rw [List.getElem?_map]
      cases frame[index]? <;> rfl)
  | .list items => by
      simp only [Formula.eval, ofEval_bind]
      exact (Formula.mirrors_evalAll hf hmodel frame items).bind fun vs => .pure (by simp)
  | .field object name => by
      simp only [Formula.eval, ofEval_bind]
      refine (Formula.mirrors_eval hf hmodel frame object).bind fun v => ?_
      refine (v.mirrors_receiver name).bind fun ref => ?_
      refine (hmodel.askField ref name).bind fun answer => ?_
      cases answer with
      | some v => exact .pure rfl
      | none => exact .throw _
  | .method object name args => by
      simp only [Formula.eval, ofEval_bind]
      refine (Formula.mirrors_eval hf hmodel frame object).bind fun v => ?_
      refine (Formula.mirrors_evalAll hf hmodel frame args).bind fun vs => ?_
      exact (v.mirrors_receiver name).bind fun ref => hmodel.askCall ref name vs
  | .builtin object b => by
      simp only [Formula.eval, ofEval_bind]
      exact (Formula.mirrors_eval hf hmodel frame object).bind fun v => .given (b.apply_rename f v)
  | .contains object needle => by
      simp only [Formula.eval, ofEval_bind]
      refine (Formula.mirrors_eval hf hmodel frame object).bind fun v => ?_
      refine (Formula.mirrors_eval hf hmodel frame needle).bind fun w => ?_
      exact .given (Value.contains_rename hf v w)
  | .not operand => by
      simp only [Formula.eval, ofEval_bind]
      refine (Formula.mirrors_eval hf hmodel frame operand).bind fun v => ?_
      exact (Run.Mirrors.truth "!" v).bind fun b => .pure rfl
  | .negate operand => by
      simp only [Formula.eval, ofEval_bind]
      exact (Formula.mirrors_eval hf hmodel frame operand).bind fun v => .given (v.negate_rename f)
  | .and lhs rhs => by
      simp only [Formula.eval, ofEval_bind]
      refine (Formula.mirrors_eval hf hmodel frame lhs).bind fun v => ?_
      refine (Run.Mirrors.truth "&&" v).bind fun holds => ?_
      cases holds with
      | false => exact .pure rfl
      | true =>
          simp only [id, if_true, ofEval_bind]
          refine (Formula.mirrors_eval hf hmodel frame rhs).bind fun w => ?_
          exact (Run.Mirrors.truth "&&" w).bind fun b => .pure rfl
  | .or lhs rhs => by
      simp only [Formula.eval, ofEval_bind]
      refine (Formula.mirrors_eval hf hmodel frame lhs).bind fun v => ?_
      refine (Run.Mirrors.truth "||" v).bind fun holds => ?_
      cases holds with
      | true => exact .pure rfl
      | false =>
          simp only [id, Bool.false_eq_true, if_false, ofEval_bind]
          refine (Formula.mirrors_eval hf hmodel frame rhs).bind fun w => ?_
          exact (Run.Mirrors.truth "||" w).bind fun b => .pure rfl
  | .equality op lhs rhs => by
      simp only [Formula.eval, ofEval_bind]
      refine (Formula.mirrors_eval hf hmodel frame lhs).bind fun v => ?_
      refine (Formula.mirrors_eval hf hmodel frame rhs).bind fun w => ?_
      exact .pure (op.apply_rename hf v w)
  | .order op lhs rhs => by
      simp only [Formula.eval, ofEval_bind]
      refine (Formula.mirrors_eval hf hmodel frame lhs).bind fun v => ?_
      refine (Formula.mirrors_eval hf hmodel frame rhs).bind fun w => ?_
      exact .given (op.apply_rename f v w)
  | .arithmetic op lhs rhs => by
      simp only [Formula.eval, ofEval_bind]
      refine (Formula.mirrors_eval hf hmodel frame lhs).bind fun v => ?_
      refine (Formula.mirrors_eval hf hmodel frame rhs).bind fun w => ?_
      exact .given (op.apply_rename f v w)

theorem Formula.mirrors_evalAll (hf : Function.Injective f)
    (hmodel : model.Mirrors f start.requests.size start'.requests.size model') (frame : Frame ρ) :
    ∀ cs : List Formula, Run.Mirrors (Effects.Mirrors f start start') (List.map (Value.rename f))
      (ofEval (Formula.evalAll model frame cs))
      (ofEval (Formula.evalAll model' (frame.map (Value.rename f)) cs))
  | [] => .pure rfl
  | c :: cs => by
      simp only [Formula.evalAll, ofEval_bind]
      refine (Formula.mirrors_eval hf hmodel frame c).bind fun v => ?_
      exact (Formula.mirrors_evalAll hf hmodel frame cs).bind fun vs => .pure rfl

end

theorem Formula.mirrors_evalGiven (hf : Function.Injective f)
    (hmodel : model.Mirrors f start.requests.size start'.requests.size model') (frame : Frame ρ)
    (cs : List (Option Formula)) :
    Run.Mirrors (Effects.Mirrors f start start') (renameGiven f)
      (ofEval (Formula.evalGiven model frame cs))
      (ofEval (Formula.evalGiven model' (frame.map (Value.rename f)) cs)) := by
  induction cs with
  | nil => exact .pure rfl
  | cons c cs ih =>
      cases c with
      | none =>
          simp only [Formula.evalGiven, ofEval_bind]
          exact ih.bind fun vs => .pure rfl
      | some c =>
          simp only [Formula.evalGiven, ofEval_bind]
          exact (c.mirrors_eval hf hmodel frame).bind fun v => ih.bind fun vs => .pure rfl

section Operations

variable {opener : Opener ρ ω} {opener' : Opener ρ' ω}

mutual

theorem Op.mirrors_run (hf : Function.Injective f)
    (hmodel : model.Mirrors f start.requests.size start'.requests.size model')
    (hopener : Opener.Mirrors (Effects.Mirrors f start start') f opener opener')
    (frame : Frame ρ) : ∀ op : Op,
      Run.Mirrors (Effects.Mirrors f start start') (List.map (Value.rename f))
        (op.run model opener frame) (op.run model' opener' (frame.map (Value.rename f)))
  | .literal t => (Run.Mirrors.emit _).bind fun _ => .pure rfl
  | .escaped code => by
      refine (code.mirrors_eval hf hmodel frame).bind fun v => ?_
      exact v.mirrors_shown.bind fun s => (Run.Mirrors.emit _).bind fun _ => .pure rfl
  | .raw code => by
      refine (code.mirrors_eval hf hmodel frame).bind fun v => ?_
      exact v.mirrors_shown.bind fun s => (Run.Mirrors.emit _).bind fun _ => .pure rfl
  | .branch arms otherwise => by
      refine (Op.mirrors_runArms hf hmodel hopener frame arms).bind fun left => ?_
      cases left with
      | some frame' => exact .pure rfl
      | none => exact Op.mirrors_runAll hf hmodel hopener frame otherwise
  | .loop iterable element index body otherwise => by
      refine (iterable.mirrors_eval hf hmodel frame).bind fun v => ?_
      cases v with
      | list items =>
          cases items with
          | nil => exact Op.mirrors_runAll hf hmodel hopener frame otherwise
          | cons head tail =>
              simp only [Value.rename_list, List.map_cons]
              rw [← List.map_cons]
              refine Relates.forEach_map (fun left left' i v _ hleft => ?_) rfl
              subst hleft
              rw [← Frame.map_store]
              exact Op.mirrors_runAll hf hmodel hopener _ body
      | _ => exact .throw _
  | .inclusion site target args =>
      (hopener.inclusion site target (Formula.mirrors_evalGiven hf hmodel frame args)).bind
        fun _ => .pure rfl

theorem Op.mirrors_runAll (hf : Function.Injective f)
    (hmodel : model.Mirrors f start.requests.size start'.requests.size model')
    (hopener : Opener.Mirrors (Effects.Mirrors f start start') f opener opener')
    (frame : Frame ρ) : ∀ ops : List Op,
      Run.Mirrors (Effects.Mirrors f start start') (List.map (Value.rename f))
        (Op.runAll model opener frame ops)
        (Op.runAll model' opener' (frame.map (Value.rename f)) ops)
  | [] => .pure rfl
  | op :: ops => (Op.mirrors_run hf hmodel hopener frame op).bind fun left =>
      Op.mirrors_runAll hf hmodel hopener left ops

theorem Op.mirrors_runArms (hf : Function.Injective f)
    (hmodel : model.Mirrors f start.requests.size start'.requests.size model')
    (hopener : Opener.Mirrors (Effects.Mirrors f start start') f opener opener')
    (frame : Frame ρ) : ∀ arms : List OpArm,
      Run.Mirrors (Effects.Mirrors f start start') (Option.map (List.map (Value.rename f)))
        (Op.runArms model opener frame arms)
        (Op.runArms model' opener' (frame.map (Value.rename f)) arms)
  | [] => .pure rfl
  | .mk test body :: arms => by
      refine (test.mirrors_eval hf hmodel frame).bind fun v => ?_
      refine (Run.Mirrors.truth "condition" v).bind fun holds => ?_
      cases holds with
      | true => exact (Op.mirrors_runAll hf hmodel hopener frame body).bind fun left => .pure rfl
      | false => exact Op.mirrors_runArms hf hmodel hopener frame arms

end

theorem Program.mirrors_run (hf : Function.Injective f)
    (hmodel : model.Mirrors f start.requests.size start'.requests.size model')
    (hopener : Opener.Mirrors (Effects.Mirrors f start start') f opener opener') (p : Program)
    (values : List (Value ρ)) :
    Run.Mirrors (Effects.Mirrors f start start') id (p.run model opener values)
      (p.run model' opener' (values.map (Value.rename f))) := by
  have hframe : p.frame (values.map (Value.rename f)) = (p.frame values).map (Value.rename f) := by
    simp [Program.frame]
  unfold Program.run
  rw [hframe]
  exact (Op.mirrors_runAll hf hmodel hopener (p.frame values) p.body).bind fun _ => .pure rfl

end Operations

-- Inclusions of a program are rendered alike, however deep they are.
theorem Linker.mirrors_opener (hf : Function.Injective f)
    (hmodel : model.Mirrors f start.requests.size start'.requests.size model')
    (linker : Linker κ ω) (depth : Nat) (self : κ) :
    Opener.Mirrors (Effects.Mirrors f start start') f (linker.opener model depth self)
      (linker.opener model' depth self) := by
  induction depth generalizing self with
  | zero => exact fun site target => Relates.throw fun _ _ he => he
  | succ depth ih =>
      intro site target
      refine Relates.bind (Run.Mirrors.ofLink _) fun callee callee' => .of_values ?_
      rintro (rfl : callee' = callee)
      refine Relates.pure fun e e' he => ⟨fun args => ?_, he⟩
      refine Run.Mirrors.bind (.given (bindArgs_rename _ args)) fun values => ?_
      exact Program.mirrors_run hf hmodel (ih callee') _ values

end Stencil
