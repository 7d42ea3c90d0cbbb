import Stencil.Proofs.Meaning.Bodies
import Stencil.Proofs.Render.Parameters
import Stencil.Proofs.Render.Uniform

/-!
Rendering a program does what interpreting its template does.
-/

namespace Stencil

open Run

variable {ρ κ ω ω' : Type} {α : Type}

namespace Frame

-- The variables of an environment, the outermost first, against the slots.
theorem holds_iff {frame : Frame ρ} {env : Environment ρ} :
    frame.Holds env ↔ ∀ (i : Nat) x, env.reverse[i]? = some x → frame[i]? = some x.value := by
  induction env with
  | nil => simp [Holds]
  | cons y outer ih =>
      constructor
      · rintro ⟨hlast, houter⟩ i x hx
        rw [List.reverse_cons] at hx
        by_cases hi : i < outer.length
        · rw [List.getElem?_append_left (by simpa using hi)] at hx
          exact ih.mp houter i x hx
        · obtain rfl : i = outer.length := by
            have hlt := (List.getElem?_eq_some_iff.mp hx).1
            simp at hlt
            omega
          obtain rfl : y = x := by simpa using hx
          exact hlast
      · intro h
        refine ⟨h outer.length y (by simp), ih.mpr fun i x hx => h i x ?_⟩
        have hlt := (List.getElem?_eq_some_iff.mp hx).1
        rw [List.reverse_cons, List.getElem?_append_left hlt, hx]

end Frame

namespace Schema

variable {schema : Schema} {values : List (Value ρ)}

theorem map_toLocal_zipWith {params : List Parameter} (h : values.length = params.length) :
    (List.zipWith (fun p v => (⟨p.variable, v⟩ : Variable ρ)) params values).map
      Variable.toLocal = params.map Parameter.variable := by
  induction params generalizing values with
  | nil => simp
  | cons p params ih =>
      cases values with
      | nil => cases h
      | cons v values => simpa using ih (by simpa using h)

theorem scope_environment (h : values.length = schema.params.length) :
    (schema.environment values).scope = schema.scope := by
  simp [environment, Environment.scope, scope, ← map_toLocal_zipWith h]

theorem holds_environment (pad : List (Value ρ)) :
    Frame.Holds (values ++ pad) (schema.environment values) := by
  rw [Frame.holds_iff]
  intro i x hx
  rw [environment, List.reverse_reverse] at hx
  obtain ⟨p, v, _, hv, rfl⟩ := List.getElem?_zipWith_eq_some.mp hx
  have hlt := (List.getElem?_eq_some_iff.mp hv).1
  rw [List.getElem?_append_left hlt, hv]

end Schema

-- A program against its template, with the same values of parameters.
theorem Program.run_of_template [DecidableEq ρ] {interp : Interpreter ρ ω'} {opener : Opener ρ ω}
    {mode : Mode} {form : Piece → Piece} {L : ω → ω' → Prop} {t : Template}
    {checked : CheckedTemplate} {name : String} {values : List (Value ρ)}
    (hp : Parallel interp opener mode form L t.targets)
    (ht : t.Elaborates interp.context checked)
    (hvalues : values.length = checked.schema.params.length) :
    Agrees (Tally form L []) ((checked.program name mode).run interp.model opener values)
      (t.interpret interp checked.schema values) := by
  have hscope := Schema.scope_environment hvalues
  have hframe : Frame.Holds ((checked.program name mode).frame values)
      (checked.schema.environment values) := Schema.holds_environment _
  have hroom : Statement.slotsOfAll checked.schema.size checked.body ≤
      ((checked.program name mode).frame values).length := by
    have hsize : (checked.program name mode).frameSize =
        Statement.slotsOfAll checked.schema.size checked.body := rfl
    simp only [Program.frame, List.length_append, List.length_replicate]
    omega
  have hsites : Node.targetsOfAll t.body <+: t.targets.drop 0 := List.prefix_rfl
  have hrun := (hp.ops_of_nodes "" hscope hframe hroom hsites ht.body).of_empty
  have hdone := Relates.bind (g := fun u => pure u) hrun fun frame' u =>
    (.pure fun e e' he => ⟨rfl, he.2⟩ : Relates _ _ (With Eq (Tally form L [])) (pure ()) (pure u))
  simpa [Agrees, Program.run, Template.interpret, CheckedTemplate.program] using hdone

-- The same, with parameters from the root record of a model.
theorem Program.runRoot_of_template [DecidableEq ρ] {interp : Interpreter ρ ω'}
    {opener : Opener ρ ω} {mode : Mode} {form : Piece → Piece} {L : ω → ω' → Prop} {t : Template}
    {checked : CheckedTemplate} (hp : Parallel interp opener mode form L t.targets)
    (ht : t.Elaborates interp.context checked) (name : String) (root : ρ) :
    Agrees (Tally form L [])
      (do
        let values ← ofEval (readParams interp.model root checked.schema.params)
        (checked.program name mode).run interp.model opener values)
      (t.interpretRoot interp checked.schema root) := by
  have hread := Tally.lockstep.same (R := Tally form L [])
    (S := fun values => values.length = checked.schema.params.length)
    (readParams interp.model root checked.schema.params) fun requests values hvalues => by
      obtain ⟨asked, hreading, _⟩ :=
        Parameter.reading_readParams interp.model root checked.schema.params requests
      exact hreading.length hvalues
  refine Relates.bind hread fun values values' => .of_values ?_
  rintro ⟨rfl, hlength⟩
  exact Program.run_of_template hp ht hlength

-- Runs inside of an interpretation. What they do is not logged.
def Interp.ofRun (x : Run ρ ω α) : Interp ρ ω α := ExceptT.mk fun e =>
  let (r, after) := exec x ⟨e.requests, e.pieces, e.links.links⟩
  (r, ⟨after.requests, after.pieces, ⟨after.links, e.links.operations⟩⟩)

-- Inclusions, as an interpretation sees them that does not look into them.
def Opener.inside (opener : Opener ρ ω) : Opener ρ (Ledger ρ ω) := fun site target => do
  let enter ← Interp.ofRun (opener site target)
  return fun args => Interp.ofRun (enter args)

-- The effects of a program and those of an interpretation that writes the same.
abbrev Tally.Plain : Effects ρ ω → Effects ρ (Ledger ρ ω) → Prop := Tally id Eq []

theorem Interp.exec_ofRun (x : Run ρ ω α) (e : Effects ρ (Ledger ρ ω)) :
    exec (Interp.ofRun x) e =
      ((exec x ⟨e.requests, e.pieces, e.links.links⟩).1,
        ⟨(exec x ⟨e.requests, e.pieces, e.links.links⟩).2.requests,
          (exec x ⟨e.requests, e.pieces, e.links.links⟩).2.pieces,
          ⟨(exec x ⟨e.requests, e.pieces, e.links.links⟩).2.links, e.links.operations⟩⟩) := rfl

theorem Run.Relates.ofRun {x y : Run ρ ω α} {S : α → α → Prop}
    (h : Relates Effects.Same Effects.Same (With S Effects.Same) x y) :
    Relates Tally.Plain Tally.Plain (With S Tally.Plain) x (Interp.ofRun y) := by
  intro e e' he
  have hsame : Effects.Same e ⟨e'.requests, e'.pieces, e'.links.links⟩ :=
    ⟨he.requests, by simpa using he.pieces, he.links⟩
  have hends := h _ _ hsame
  rw [Interp.exec_ofRun]
  generalize exec x e = r at hends ⊢
  generalize exec y ⟨e'.requests, e'.pieces, e'.links.links⟩ = r' at hends ⊢
  cases hends with
  | ok hends => exact .ok ⟨hends.1, hends.2.requests, by simpa using hends.2.pieces, hends.2.links⟩
  | error hends => exact .error ⟨hends.requests, by simpa using hends.pieces, hends.links⟩

theorem Parallel.inside [DecidableEq ρ] {opener : Opener ρ ω} (hopener : opener.Uniform)
    (context : CheckContext) (mode : Mode) (model : Model ρ) (targets : List String) :
    Parallel (⟨context, mode, model, opener.inside⟩ : Interpreter ρ ω) opener mode id Eq
      targets where
  formed := ⟨fun _ => rfl, fun _ => rfl, fun _ => rfl⟩
  inclusion {site target _ x y} _ _ hargs := by
    simp only [Run.inclusion, Opener.inside, bind_assoc, pure_bind]
    refine Relates.bind (hopener site target).ofRun fun enter enter' => .of_values ?_
    rintro ⟨rfl, henter⟩
    refine Relates.bind (hargs Eq) fun vs ws => .of_values ?_
    rintro ⟨rfl, _⟩
    exact Agrees.adapt _ (Relates.ofRun (henter vs))

-- A rendering does what an interpretation does. Where fixed text is cut does not count.
structure Rendering.Does (r : Rendering ρ ω)
    (x : Except RenderError Unit × Effects ρ (Ledger ρ ω)) : Prop where
  outcome : r.outcome = x.1
  pieces : Piece.merged r.pieces = Piece.merged x.2.pieces.toList
  requests : r.requests = x.2.requests.toList
  links : r.links = x.2.links.links

-- Before a render has done anything.
def Effects.start (links : ω) : Effects ρ ω := ⟨#[], #[], links⟩

theorem Rendering.does_of_ends {S : Unit → Unit → Prop}
    {x : Except RenderError Unit × Effects ρ ω}
    {y : Except RenderError Unit × Effects ρ (Ledger ρ ω)}
    (h : Ends Tally.Plain (With S Tally.Plain) x y) (sink : Sink) :
    Rendering.Does ⟨x.1, x.2.pieces.toList, sink, x.2.requests.toList, x.2.links⟩ y := by
  cases h with
  | ok h => exact ⟨rfl, by simpa using h.2.pieces, by rw [h.2.requests], h.2.links⟩
  | error h => exact ⟨rfl, by simpa using h.pieces, by rw [h.requests], h.links⟩

-- A render into a sink of its mode is a run.
theorem render_of_mode [DecidableEq ρ] {linker : Linker κ ω} {self : κ} {sink : Sink}
    (h : (linker.program self).mode = sink.mode) (model : Model ρ) (root : ρ) (links : ω) :
    let x := exec (linker.run self model root) (.start links)
    render linker self model root sink links =
      ⟨x.1, x.2.pieces.toList, sink.appendAll x.2.pieces.toList, x.2.requests.toList,
        x.2.links⟩ := by
  simp only [render, h, if_true]
  rfl

-- Compiling preserves meaning. A template that passes its check is rendered as it is interpreted,
-- with inclusions that do the same. The interpretation first reads the declared parameters, in
-- order and up to the first that fails; it asks the root record for each of these and for nothing
-- else.
theorem render_does_interpretRoot [DecidableEq ρ] (linker : Linker κ ω) (self : κ)
    (model : Model ρ) (root : ρ) (sink : Sink) (links : ω) {context : CheckContext}
    {source : String} {t : Template} {checked : CheckedTemplate} (name : String) (mode : Mode)
    (hbind : t.bind context source = .ok checked)
    (hself : linker.program self = checked.program name mode) :
    let interp : Interpreter ρ ω :=
      ⟨context, mode, model, (linker.opener model maxInclusionDepth self).inside⟩
    let meaning := exec (t.interpretRoot interp checked.schema root) (.start ⟨links, []⟩)
    (if sink.mode = mode then
      (render linker self model root sink links).Does meaning ∧
        (render linker self model root sink links).sink =
          sink.appendAll (render linker self model root sink links).pieces
    else
      render linker self model root sink links =
        ⟨.error (.modeMismatch mode sink.mode), [], sink, [], links⟩) ∧
    List.Forall₂ (ParamDecl.Declares context.oracle) t.params checked.schema.params ∧
    ∃ asked result, Parameter.Reading model root 0 checked.schema.params asked result ∧
      let after : Effects ρ (Ledger ρ ω) :=
        ⟨(asked.map fun p => Request.field root p.name).toArray, #[], ⟨links, []⟩⟩
      meaning =
        match result with
        | .error err => (.error err, after)
        | .ok values => exec (t.interpret interp checked.schema values) after := by
  intro interp meaning
  have ht : t.Elaborates interp.context checked := t.elaborates_of_bind hbind
  refine ⟨?_, ht.params, ?_⟩
  · have hmode : (linker.program self).mode = mode := by rw [hself]; rfl
    by_cases hsink : sink.mode = mode
    · have hp := Parallel.inside (linker.uniform_opener model maxInclusionDepth self) context mode
        model t.targets
      have hends := Program.runRoot_of_template hp ht name root
        (.start links) (.start ⟨links, []⟩) ⟨rfl, rfl, rfl⟩
      have hrender := render_of_mode (hmode.trans hsink.symm) model root links
      have hrun : linker.run self model root = (do
          let values ← ofEval (readParams model root checked.schema.params)
          (checked.program name mode).run model (linker.opener model maxInclusionDepth self)
            values) := by
        simp only [Linker.run, hself]
        rfl
      rw [if_pos hsink, hrender, hrun]
      exact ⟨Rendering.does_of_ends hends _, rfl⟩
    · rw [if_neg hsink]
      simp only [render, hmode, Ne.symm hsink, if_false]
  · obtain ⟨asked, hreading, hrequests⟩ :=
      Parameter.reading_readParams model root checked.schema.params #[]
    refine ⟨asked, _, hreading, ?_⟩
    change exec (ofEval (readParams model root checked.schema.params) >>=
      t.interpret interp checked.schema) (.start ⟨links, []⟩) = _
    simp only [exec_bind, exec_ofEval, Effects.start, hrequests]
    rcases (readParams model root checked.schema.params).run #[] with ⟨_ | _, _⟩ <;> simp

-- Two loops, one in the other, whose elements have one name. The inner one has used its slot by the
-- time the outer element is shown again.
def nestedLoops : Template where
  params := [⟨"xs", .list (.named "int"), none, default⟩]
  body :=
    [.loop ⟨default, "x"⟩ (some ⟨default, "i"⟩) (.name default "xs")
      [.loop ⟨default, "x"⟩ none (.name default "xs")
          [.interpolation false (.name default "x") default] none default,
        .interpolation false (.name default "x") default,
        .interpolation false (.name default "i") default]
      (some [.text "none" default]) default]
  idCount := 0

def nestedLoopsChecked : CheckedTemplate where
  schema := ⟨[⟨"xs", .list .int, none⟩]⟩
  body :=
    [.loop (.slot ⟨0, .list .int⟩ 0) 1 (some 2)
      [.loop (.slot ⟨0, .list .int⟩ 0) 3 none [.interpolation false (.slot ⟨0, .int⟩ 3)] [],
        .interpolation false (.slot ⟨0, .int⟩ 1),
        .interpolation false (.slot ⟨0, .int⟩ 2)]
      [.text "none"]]

theorem render_nestedLoops :
    let program := nestedLoopsChecked.program "" .text
    let model : Model Nat := .ofFields fun _ _ => some (.list [.int 5, .int 7])
    let interp : Interpreter Nat Unit :=
      ⟨.bare, .text, model, (unlinked.opener model maxInclusionDepth program).inside⟩
    let rendering := render unlinked program model 0 (.empty .text .plain) ()
    nestedLoops.bind .bare "" = .ok nestedLoopsChecked ∧ unlinked.program program = program ∧
      rendering.Does (exec (nestedLoops.interpretRoot interp nestedLoopsChecked.schema 0)
        (.start ⟨(), []⟩)) ∧
      rendering.sink = .text ⟨.plain, "57505771"⟩ := by
  intro program model interp rendering
  have hbind : nestedLoops.bind .bare "" = .ok nestedLoopsChecked := rfl
  have hdoes := (render_does_interpretRoot unlinked program model 0 (.empty .text .plain) () ""
    .text hbind rfl).1
  have hmode : (Sink.empty .text .plain).mode = .text := rfl
  rw [if_pos hmode] at hdoes
  exact ⟨hbind, rfl, hdoes.1, rfl⟩

end Stencil
