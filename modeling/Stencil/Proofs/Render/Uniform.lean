import Stencil.Proofs.Output.Content
import Stencil.Proofs.Render.Relates

/-!
What a run does from some point on does not depend on where the output before that point was cut
into pieces.
-/

namespace Stencil

open Run

variable {ρ κ ω : Type}

-- The same effects, up to where fixed text was cut.
structure Effects.Same (e e' : Effects ρ ω) : Prop where
  requests : e.requests = e'.requests
  pieces : Piece.merged e.pieces.toList = Piece.merged e'.pieces.toList
  links : e.links = e'.links

-- A run that does the same from the same effects.
def Run.Uniform {α : Type} (x : Run ρ ω α) : Prop := Agrees Effects.Same x x

namespace Run.Uniform

variable {α β : Type}

theorem bind {x : Run ρ ω α} {f : α → Run ρ ω β} (hx : x.Uniform) (hf : ∀ a, (f a).Uniform) :
    (x >>= f).Uniform :=
  Agrees.bind hx hf

theorem ofEval (x : Eval ρ α) : (Run.ofEval x : Run ρ ω α).Uniform := by
  intro e e' he
  rw [exec_ofEval, exec_ofEval, ← he.requests]
  cases (x.run e.requests).1 with
  | ok a => exact .ok ⟨rfl, rfl, he.pieces, he.links⟩
  | error err => exact .error ⟨rfl, he.pieces, he.links⟩

theorem ofLink (x : ω → Except RenderError α × ω) : (Run.ofLink x : Run ρ ω α).Uniform :=
  Relates.ofLink (fun _ => rfl) (·.links) (fun _ he => ⟨he.requests, he.pieces, rfl⟩) x

theorem emit (p : Piece) : (Run.emit p : Run ρ ω Unit).Uniform := by
  intro e e' he
  refine .ok ⟨rfl, he.requests, ?_, he.links⟩
  simpa using Piece.merged_append_congr he.pieces [p]

theorem forEach {σ : Type} {f : σ → Nat → Value ρ → Run ρ ω σ} (hf : ∀ s i v, (f s i v).Uniform)
    (s : σ) (i : Nat) (items : List (Value ρ)) : (Run.forEach f s i items).Uniform := by
  refine Relates.forEach (fun s t i v _ hst => ?_) rfl
  obtain rfl := hst
  exact hf s i v

end Run.Uniform

-- Inclusions that do the same from the same effects: they are opened alike, and what is opened is
-- rendered alike.
def Opener.Uniform (opener : Opener ρ ω) : Prop :=
  ∀ site target, Relates Effects.Same Effects.Same
    (With (fun enter enter' => enter = enter' ∧ ∀ args, (enter args).Uniform) Effects.Same)
    (opener site target) (opener site target)

theorem Opener.Uniform.inclusion {opener : Opener ρ ω} (h : Opener.Uniform opener) (site : Nat)
    (target : String) {args : Run ρ ω (List (Option (Value ρ)))} (hargs : args.Uniform) :
    (Run.inclusion opener site target args).Uniform := by
  refine Relates.bind (h site target) fun enter enter' => .of_values ?_
  rintro ⟨rfl, henter⟩
  exact Agrees.bind hargs fun vs => Agrees.adapt _ (henter vs)

variable [DecidableEq ρ] {model : Model ρ} {opener : Opener ρ ω}

mutual

theorem Op.uniform_run (hopener : opener.Uniform) (frame : Frame ρ) :
    ∀ op : Op, (op.run model opener frame).Uniform
  | .literal t => .bind (.emit _) fun _ => Agrees.pure _
  | .escaped code =>
      .bind (.ofEval _) fun v => .bind (Agrees.given _) fun s => .bind (.emit _) fun _ =>
        Agrees.pure _
  | .raw code =>
      .bind (.ofEval _) fun v => .bind (Agrees.given _) fun s => .bind (.emit _) fun _ =>
        Agrees.pure _
  | .branch arms otherwise => by
      refine .bind (Op.uniform_runArms hopener frame arms) fun left => ?_
      cases left with
      | some frame' => exact Agrees.pure _
      | none => exact Op.uniform_runAll hopener frame otherwise
  | .loop iterable element index body otherwise => by
      refine .bind (.ofEval _) fun v => ?_
      cases v with
      | list items =>
          cases items with
          | nil => exact Op.uniform_runAll hopener frame otherwise
          | cons head tail =>
              exact .forEach (fun frame i v => Op.uniform_runAll hopener _ body) _ _ _
      | _ => exact Agrees.throw _
  | .inclusion site target args =>
      .bind (hopener.inclusion site target (.ofEval _)) fun _ => Agrees.pure _

theorem Op.uniform_runAll (hopener : opener.Uniform) (frame : Frame ρ) :
    ∀ ops : List Op, (Op.runAll model opener frame ops).Uniform
  | [] => Agrees.pure _
  | op :: ops =>
      .bind (Op.uniform_run hopener frame op) fun frame' => Op.uniform_runAll hopener frame' ops

theorem Op.uniform_runArms (hopener : opener.Uniform) (frame : Frame ρ) :
    ∀ arms : List OpArm, (Op.runArms model opener frame arms).Uniform
  | [] => Agrees.pure _
  | .mk test body :: arms => by
      refine .bind (.ofEval _) fun v => .bind (Agrees.given _) fun holds => ?_
      cases holds with
      | true => exact .bind (Op.uniform_runAll hopener frame body) fun left => Agrees.pure _
      | false => exact Op.uniform_runArms hopener frame arms

end

theorem Program.uniform_run (p : Program) (hopener : opener.Uniform) (values : List (Value ρ)) :
    (p.run model opener values).Uniform :=
  .bind (Op.uniform_runAll hopener _ _) fun _ => Agrees.pure _

theorem Linker.uniform_opener (linker : Linker κ ω) (model : Model ρ) (depth : Nat) (self : κ) :
    (linker.opener model depth self).Uniform := by
  induction depth generalizing self with
  | zero => exact fun site target => Relates.throw fun _ _ he => he
  | succ depth ih =>
      intro site target
      refine (Run.Uniform.ofLink _).bind_relates fun callee => ?_
      refine Relates.pure fun e e' he => ⟨⟨rfl, fun args => ?_⟩, he⟩
      exact .bind (Agrees.given _) fun values => Program.uniform_run _ (ih callee) values

end Stencil
