import Mathlib.Logic.Relation
import Stencil.Proofs.Render.Relates

/-!
A run changes the links of a session only by opening inclusions, one after the other.
-/

namespace Stencil

open Relation Run

variable {ρ κ ω : Type} {step : ω → ω → Prop}

-- A run that changes links by steps.
def Run.Steps {α : Type} (step : ω → ω → Prop) (x : Run ρ ω α) : Prop :=
  ∀ e, ReflTransGen step e.links (exec x e).2.links

namespace Run.Steps

variable {α β : Type}

theorem pure (a : α) : Steps step (Pure.pure a : Run ρ ω α) := fun _ => .refl

theorem throw (err : RenderError) : Steps step (MonadExcept.throw err : Run ρ ω α) :=
  fun _ => .refl

theorem given (r : Except RenderError α) : Steps step (Run.given r : Run ρ ω α) := fun _ => .refl

theorem ofEval (x : Eval ρ α) : Steps step (Run.ofEval x : Run ρ ω α) := fun _ => .refl

theorem emit (p : Piece) : Steps step (Run.emit p : Run ρ ω Unit) := fun _ => .refl

theorem ofLink {x : ω → Except RenderError α × ω} (h : ∀ links, step links (x links).2) :
    Steps step (Run.ofLink x : Run ρ ω α) :=
  fun e => .single (h e.links)

-- What follows is only run on values that there are.
theorem bind_of_exec {x : Run ρ ω α} {f : α → Run ρ ω β} (hx : Steps step x)
    (hf : ∀ e a e', exec x e = (.ok a, e') → Steps step (f a)) : Steps step (x >>= f) := by
  intro e
  have hfirst := hx e
  rw [exec_bind]
  generalize hrun : exec x e = r at hfirst ⊢
  obtain ⟨result, e'⟩ := r
  cases result with
  | error err => exact hfirst
  | ok a => exact hfirst.trans (hf e a e' hrun e')

theorem bind {x : Run ρ ω α} {f : α → Run ρ ω β} (hx : Steps step x)
    (hf : ∀ a, Steps step (f a)) : Steps step (x >>= f) :=
  hx.bind_of_exec fun _ a _ _ => hf a

theorem adapt {x : Run ρ ω α} (h : Steps step x) (mark : RenderError → RenderError) :
    Steps step (x.adapt mark) := h

theorem forEach {σ : Type} {f : σ → Nat → Value ρ → Run ρ ω σ}
    (hf : ∀ s i v, Steps step (f s i v)) (s : σ) (i : Nat) (items : List (Value ρ)) :
    Steps step (Run.forEach f s i items) := by
  induction items generalizing s i with
  | nil => exact pure s
  | cons v items ih => exact (hf s i v).bind fun s' => ih s' (i + 1)

end Run.Steps

-- Inclusions that change links by steps, when they are opened and when what was opened is rendered.
def Opener.Steps (step : ω → ω → Prop) (opener : Opener ρ ω) : Prop :=
  ∀ site target, Run.Steps step (opener site target) ∧
    ∀ e enter e', exec (opener site target) e = (.ok enter, e') →
      ∀ args, Run.Steps step (enter args)

theorem Opener.Steps.inclusion {opener : Opener ρ ω} (h : Opener.Steps step opener) (site : Nat)
    (target : String) {args : Run ρ ω (List (Option (Value ρ)))} (hargs : Run.Steps step args) :
    Run.Steps step (Run.inclusion opener site target args) := by
  obtain ⟨hopen, henter⟩ := h site target
  refine hopen.bind_of_exec fun e enter e' hrun => ?_
  exact hargs.bind fun vs => (henter e enter e' hrun vs).adapt _

variable [DecidableEq ρ] {model : Model ρ} {opener : Opener ρ ω}

mutual

theorem Op.steps_run (hopener : opener.Steps step) (frame : Frame ρ) :
    ∀ op : Op, Run.Steps step (op.run model opener frame)
  | .literal t => .bind (.emit _) fun _ => .pure _
  | .escaped code => .bind (.ofEval _) fun v => .bind (.given _) fun s => .bind (.emit _) fun _ =>
      .pure _
  | .raw code => .bind (.ofEval _) fun v => .bind (.given _) fun s => .bind (.emit _) fun _ =>
      .pure _
  | .branch arms otherwise => by
      refine .bind (Op.steps_runArms hopener frame arms) fun left => ?_
      cases left with
      | some frame' => exact .pure _
      | none => exact Op.steps_runAll hopener frame otherwise
  | .loop iterable element index body otherwise => by
      refine .bind (.ofEval _) fun v => ?_
      cases v with
      | list items =>
          cases items with
          | nil => exact Op.steps_runAll hopener frame otherwise
          | cons head tail => exact .forEach (fun _ _ _ => Op.steps_runAll hopener _ body) _ _ _
      | _ => exact .throw _
  | .inclusion site target args =>
      .bind (hopener.inclusion site target (.ofEval _)) fun _ => .pure _

theorem Op.steps_runAll (hopener : opener.Steps step) (frame : Frame ρ) :
    ∀ ops : List Op, Run.Steps step (Op.runAll model opener frame ops)
  | [] => .pure _
  | op :: ops =>
      .bind (Op.steps_run hopener frame op) fun frame' => Op.steps_runAll hopener frame' ops

theorem Op.steps_runArms (hopener : opener.Steps step) (frame : Frame ρ) :
    ∀ arms : List OpArm, Run.Steps step (Op.runArms model opener frame arms)
  | [] => .pure _
  | .mk test body :: arms => by
      refine .bind (.ofEval _) fun v => .bind (.given _) fun holds => ?_
      cases holds with
      | true => exact .bind (Op.steps_runAll hopener frame body) fun left => .pure _
      | false => exact Op.steps_runArms hopener frame arms

end

theorem Program.steps_run (p : Program) (hopener : opener.Steps step) (values : List (Value ρ)) :
    Run.Steps step (p.run model opener values) :=
  .bind (Op.steps_runAll hopener _ _) fun _ => .pure _

-- Linking one inclusion.
def Linker.Links (linker : Linker κ ω) (links links' : ω) : Prop :=
  ∃ self site target, links' = (linker.link self site target links).2

theorem Linker.steps_opener (linker : Linker κ ω) (model : Model ρ) (depth : Nat) (self : κ) :
    (linker.opener model depth self).Steps linker.Links := by
  induction depth generalizing self with
  | zero => exact fun site target => ⟨.throw _, fun e enter e' hrun => nomatch hrun⟩
  | succ depth ih =>
      intro site target
      have hlink : Run.Steps linker.Links (Run.ofLink (linker.link self site target) :
          Run ρ ω κ) := .ofLink fun links => ⟨self, site, target, rfl⟩
      refine ⟨hlink.bind fun callee => .pure _, fun e enter e' hrun args => ?_⟩
      -- Only a link that was made can have been entered.
      simp only [Linker.opener, exec_bind, exec_ofLink] at hrun
      generalize (linker.link self site target e.links).1 = result at hrun
      cases result with
      | error err => cases hrun
      | ok callee =>
          cases hrun
          exact .bind (.given _) fun values => Program.steps_run _ (ih callee) values

-- Whatever a render does to the links, it does by linking inclusions one by one.
theorem Linker.steps_render (linker : Linker κ ω) (self : κ) (model : Model ρ) (root : ρ)
    (sink : Sink) (links : ω) :
    ReflTransGen linker.Links links (render linker self model root sink links).links := by
  unfold render
  dsimp only
  split
  · have hrun : Run.Steps linker.Links (linker.run self model root) :=
      .bind (.ofEval _) fun values =>
        Program.steps_run _ (linker.steps_opener model maxInclusionDepth self) values
    exact hrun ⟨#[], #[], links⟩
  · exact .refl

end Stencil
