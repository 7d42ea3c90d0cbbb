import Stencil.Output.Sink
import Stencil.Render.Eval

/-!
Running programs. A run makes requests, emits pieces of output and may link inclusions to programs;
what it has done up to an error stays done.
-/

namespace Stencil

variable {ρ κ ω : Type}

-- What a run has done. `ω` is where links are kept.
structure Effects (ρ ω : Type) where
  requests : Array (Request ρ)
  pieces : Array Piece
  links : ω

abbrev Run (ρ ω : Type) := ExceptT RenderError (StateM (Effects ρ ω))

namespace Run

def ofEval {α : Type} (x : Eval ρ α) : Run ρ ω α := ExceptT.mk fun ⟨requests, pieces, links⟩ =>
  let (r, requests) := x.run requests
  (r, ⟨requests, pieces, links⟩)

def ofLink {α : Type} (x : ω → Except RenderError α × ω) : Run ρ ω α :=
  ExceptT.mk fun ⟨requests, pieces, links⟩ =>
    let (r, links) := x links
    (r, ⟨requests, pieces, links⟩)

def emit (p : Piece) : Run ρ ω Unit := modify fun e => { e with pieces := e.pieces.push p }

def given {α : Type} (r : Except RenderError α) : Run ρ ω α := ExceptT.mk (pure r)

end Run

-- Runs an action for each item, with its position. What one leaves is handed to the next.
def Run.forEach {σ : Type} (action : σ → Nat → Value ρ → Run ρ ω σ) :
    σ → Nat → List (Value ρ) → Run ρ ω σ
  | s, _, [] => return s
  | s, i, v :: vs => do Run.forEach action (← action s i v) (i + 1) vs

-- Inclusions, as a body sees them: given a site and the name of its target, what renders the target
-- with arguments.
abbrev Opener (ρ ω : Type) := Nat → String → Run ρ ω (List (Option (Value ρ)) → Run ρ ω Unit)

-- The target is found before the arguments are evaluated. Only errors from inside of it are marked.
def Run.inclusion (opener : Opener ρ ω) (site : Nat) (target : String)
    (args : Run ρ ω (List (Option (Value ρ)))) : Run ρ ω Unit := do
  let enter ← opener site target
  let args ← args
  (enter args).adapt (.inside target)

-- Stores what a loop binds.
def Frame.store (frame : Frame ρ) (element : Nat) (index : Option Nat) (item : Value ρ) (i : Nat) :
    Frame ρ :=
  let frame := frame.set element item
  index.elim frame fun index => frame.set index (.int (.ofNat i))

variable [DecidableEq ρ]

-- Each of these gives the frame that it leaves. What a loop stored stays there until other loops
-- store into the same slots.
mutual

def Op.run (model : Model ρ) (opener : Opener ρ ω) (frame : Frame ρ) : Op → Run ρ ω (Frame ρ)
  | .literal t => do
    Run.emit (.literal t)
    return frame
  | .escaped code => do
    let v ← Run.ofEval (code.eval model frame)
    Run.emit (.escaped (← Run.given v.shown))
    return frame
  | .raw code => do
    let v ← Run.ofEval (code.eval model frame)
    Run.emit (.raw (← Run.given v.shown))
    return frame
  | .branch arms otherwise => do
    match ← Op.runArms model opener frame arms with
    | some frame => return frame
    | none => Op.runAll model opener frame otherwise
  | .loop iterable element index body otherwise => do
    match ← Run.ofEval (iterable.eval model frame) with
    | .list [] => Op.runAll model opener frame otherwise
    | .list items =>
      Run.forEach (fun frame i item =>
        Op.runAll model opener (frame.store element index item i) body) frame 0 items
    | v => throw (.notIterable v.kind)
  | .inclusion site target args => do
    Run.inclusion opener site target (Run.ofEval (Formula.evalGiven model frame args))
    return frame

def Op.runAll (model : Model ρ) (opener : Opener ρ ω) (frame : Frame ρ) :
    List Op → Run ρ ω (Frame ρ)
  | [] => return frame
  | op :: ops => do Op.runAll model opener (← op.run model opener frame) ops

-- Runs the first arm whose test holds, if there is one.
def Op.runArms (model : Model ρ) (opener : Opener ρ ω) (frame : Frame ρ) :
    List OpArm → Run ρ ω (Option (Frame ρ))
  | [] => return none
  | .mk test body :: arms => do
    let v ← Run.ofEval (test.eval model frame)
    if ← Run.given (v.truth "condition") then return some (← Op.runAll model opener frame body)
    else Op.runArms model opener frame arms

end

-- Fills up the slots of a frame.
def Program.frame (p : Program) (values : List (Value ρ)) : Frame ρ :=
  values ++ List.replicate (p.frameSize - values.length) .null

def Parameter.defaultValue (p : Parameter) : Except RenderError (Value ρ) :=
  match p.default with
  | some c => .ok c.value
  | none => .error (.missingParameter p.name)

-- The values of parameters as arguments give them.
def bindArgs : List Parameter → List (Option (Value ρ)) → Except RenderError (List (Value ρ))
  | p :: params, arg :: args => do
    let v ← match arg with
      | some v => pure v
      | none => p.defaultValue
    return v.widen p.type :: (← bindArgs params args)
  | _, _ => .ok []

-- The values of parameters as fields of the root record of a model give them.
def readParams (model : Model ρ) (root : ρ) : List Parameter → Eval ρ (List (Value ρ))
  | [] => return []
  | p :: params => do
    let v ← match ← model.askField root p.name with
      | some v =>
        if v.conforms p.type then pure v
        else throw (.typeMismatch p.name p.type.name v.kind)
      | none => Eval.given p.defaultValue
    return v.widen p.type :: (← readParams model root params)

-- Where programs find the targets of their inclusions. `κ` names programs.
structure Linker (κ ω : Type) where
  program : κ → Program
  link : κ → Nat → String → ω → Except RenderError κ × ω

-- Runs a program with the values of its parameters.
def Program.run (p : Program) (model : Model ρ) (opener : Opener ρ ω) (values : List (Value ρ)) :
    Run ρ ω Unit := do
  let _ ← Op.runAll model opener (p.frame values) p.body

-- The inclusions of a program. `depth` more may be entered, one inside the other.
def Linker.opener (linker : Linker κ ω) (model : Model ρ) : Nat → κ → Opener ρ ω
  | 0, _, _, target => throw (.recursionLimit target)
  | depth + 1, self, site, target => do
    let callee ← Run.ofLink (linker.link self site target)
    return fun args => do
      let values ← Run.given (bindArgs (linker.program callee).schema.params args)
      (linker.program callee).run model (linker.opener model depth callee) values

-- Renders the body of a program, with parameters from the root record of a model.
def Linker.run (linker : Linker κ ω) (self : κ) (model : Model ρ) (root : ρ) : Run ρ ω Unit := do
  let values ← Run.ofEval (readParams model root (linker.program self).schema.params)
  (linker.program self).run model (linker.opener model maxInclusionDepth self) values

-- What a render did, and how it ended.
structure Rendering (ρ ω : Type) where
  outcome : Except RenderError Unit
  -- what was appended to the sink
  pieces : List Piece
  sink : Sink
  requests : List (Request ρ)
  links : ω

-- Renders a program into a sink of its mode.
def render (linker : Linker κ ω) (self : κ) (model : Model ρ) (root : ρ) (sink : Sink) (links : ω) :
    Rendering ρ ω :=
  let mode := (linker.program self).mode
  if mode = sink.mode then
    let (outcome, effects) := (linker.run self model root).run ⟨#[], #[], links⟩
    let pieces := effects.pieces.toList
    ⟨outcome, pieces, sink.appendAll pieces, effects.requests.toList, effects.links⟩
  else ⟨.error (.modeMismatch mode sink.mode), [], sink, [], links⟩

-- Programs outside of any registry: their inclusions have nowhere to be looked up.
def unlinked : Linker Program Unit where
  program := id
  link _ _ target _ := (.error (.unresolvedInclusion target "no registry is available"), ())

end Stencil
