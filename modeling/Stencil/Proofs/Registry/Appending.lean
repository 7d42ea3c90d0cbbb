import Stencil.Proofs.Output.Escaping
import Stencil.Proofs.Render.Nesting
import Stencil.Registry.Session

/-!
Rendering only appends. What is in a sink before a render stays in front of what the render writes,
and does not matter to it: a sink may be used again.
-/

namespace Stencil

section Moments

open Relation Run

namespace Sink

-- A sink with the content of another of its mode behind its own.
def followedBy : Sink → Sink → Sink
  | text s, text t => text { s with content := s.content ++ t.content }
  | bytes s, bytes t => bytes { s with content := s.content ++ t.content }
  | s, _ => s

theorem appendAll_append (s : Sink) (ps qs : List Piece) :
    s.appendAll (ps ++ qs) = (s.appendAll ps).appendAll qs := by
  cases s with
  | text s => simp [appendAll, String.append_assoc]
  | bytes s => simp [appendAll]

theorem appendAll_singleton (s : Sink) (p : Piece) : s.appendAll [p] = s.append p := by
  cases s with
  | text s => simp [appendAll, append, TextSink.append]
  | bytes s => simp [appendAll, append, ByteSink.append]

-- Pieces are appended one at a time.
theorem appendAll_eq_foldl (s : Sink) (ps : List Piece) : s.appendAll ps = ps.foldl append s := by
  induction ps generalizing s with
  | nil => cases s <;> simp [appendAll]
  | cons p ps ih =>
      rw [List.foldl_cons, ← ih, ← appendAll_singleton, ← appendAll_append, List.singleton_append]

-- What is appended does not depend on what is there.
theorem appendAll_eq_followedBy (s : Sink) (ps : List Piece) :
    s.appendAll ps = s.followedBy ((empty s.mode s.contentType).appendAll ps) := by
  cases s with
  | text s => simp [appendAll, followedBy, empty, mode, contentType]
  | bytes s => simp [appendAll, followedBy, empty, mode, contentType]

theorem followedBy_empty (s : Sink) : s.followedBy (empty s.mode s.contentType) = s := by
  cases s with
  | text s => simp [followedBy, empty, mode]
  | bytes s => simp [followedBy, empty, mode]

theorem mode_empty (mode : Mode) (contentType : ContentType) :
    (empty mode contentType).mode = mode := by
  cases mode <;> rfl

theorem contentType_empty (mode : Mode) (contentType : ContentType) :
    (empty mode contentType).contentType = contentType := by
  cases mode <;> rfl

theorem contentType_appendAll (s : Sink) (ps : List Piece) :
    (s.appendAll ps).contentType = s.contentType := by
  cases s <;> rfl

theorem mode_appendAll (s : Sink) (ps : List Piece) : (s.appendAll ps).mode = s.mode := by
  cases s <;> rfl

end Sink

variable {ρ κ ω : Type}

-- All that was written at first is still there later, in front.
def Effects.Before (e e' : Effects ρ ω) : Prop := e.pieces.toList <+: e'.pieces.toList

theorem Effects.Before.refl (e : Effects ρ ω) : e.Before e := List.prefix_refl _

theorem Effects.Before.trans {e e' e'' : Effects ρ ω} (h : e.Before e') (h' : e'.Before e'') :
    e.Before e'' :=
  List.IsPrefix.trans h h'

variable [DecidableEq ρ]

namespace Linker

variable {linker : Linker κ ω} {model : Model ρ} {m m' : Moment κ ρ ω}

-- The effects at the end of the body that is run at a moment.
def ending (linker : Linker κ ω) (model : Model ρ) (m : Moment κ ρ ω) : Effects ρ ω :=
  (exec (Op.runAll model (linker.openerAt model m) m.frame m.ops) m.effects).2

theorem tracks_before : linker.Tracks model fun m e => m.effects.Before e where
  asks _ _ := .refl _
  prints _ _ := by simp [Effects.Before, Effects.wrote, Effects.asked]
  links _ _ _ _ := .refl _
  leads _ h h' := h.trans h'

theorem before_runAll (model : Model ρ) (depth : Nat) (self : κ) (frame : Frame ρ) (ops : List Op)
    (e : Effects ρ ω) :
    e.Before (exec (Op.runAll model (linker.opener model depth self) frame ops) e).2 :=
  tracks_before.runAll (⟨self, depth, frame, e, ops⟩ : Moment κ ρ ω)

theorem before_forEach (m : Moment κ ρ ω) (element : Nat) (index : Option Nat) (body : List Op)
    (frame : Frame ρ) (i : Nat) (items : List (Value ρ)) (e : Effects ρ ω) :
    e.Before (exec (Run.forEach (Op.runItem model (linker.openerAt model m) element index body) frame
      i items) e).2 := by
  induction items generalizing frame i e with
  | nil => exact .refl e
  | cons v items ih =>
      have hitem : e.Before (exec (Op.runItem model (linker.openerAt model m) element index body
          frame i v) e).2 :=
        before_runAll model m.depth m.self (frame.store element index v i) body e
      rw [Run.forEach, exec_bind]
      generalize exec (Op.runItem model (linker.openerAt model m) element index body frame i v) e = r
        at hitem ⊢
      obtain ⟨_ | frame', e'⟩ := r
      · exact hitem
      · exact hitem.trans (ih frame' (i + 1) e')

-- The first operation of a body is not all of it.
theorem before_ending {op : Op} {ops : List Op} (hfirst : m.ops = op :: ops) :
    (exec (op.run model (linker.openerAt model m) m.frame) m.effects).2.Before
      (linker.ending model m) := by
  rw [ending, hfirst, Op.runAll, exec_bind]
  generalize exec (op.run model (linker.openerAt model m) m.frame) m.effects = r
  obtain ⟨_ | frame, e⟩ := r
  · exact .refl e
  · exact before_runAll model m.depth m.self frame ops e

-- What is written by the end of a later moment is written by the end of an earlier one.
theorem Leads.ending_before (h : linker.Leads model m m') :
    (linker.ending model m').Before (linker.ending model m) := by
  cases h with
  | @next op ops frame e first ran =>
      have hend : linker.ending model m = linker.ending model (m.later frame e ops) := by
        rw [ending, first, Op.runAll, exec_bind, ran]
        rfl
      exact hend ▸ .refl _
  | arm first value holds =>
      refine .trans ?_ (before_ending first)
      rw [Op.exec_branch_cons, value]
      simp only [holds]
      exact .refl _
  | @nextArm test body arms otherwise ops v requests first value fails =>
      have hend : linker.ending model m = linker.ending model
          (m.later m.frame (m.effects.asked requests) (.branch arms otherwise :: ops)) := by
        rw [ending, first, Op.runAll, exec_bind, Op.exec_branch_cons, value]
        simp only [fails]
        rw [ending, Moment.later, Op.runAll, exec_bind]
        rfl
      exact hend ▸ .refl _
  | otherwise first =>
      refine .trans ?_ (before_ending first)
      rw [Op.run_branch_nil]
      exact .refl _
  | @item _ element index body _ _ before after v _ frame e first value ran =>
      refine .trans ?_ (before_ending first)
      rw [exec_loop_of_items (by simp) value, Run.forEach_append, exec_bind, ran]
      dsimp only
      rw [Run.forEach, exec_bind, Nat.zero_add]
      have hitem : linker.ending model (m.later (frame.store element index v before.length) e body) =
          (exec (Op.runItem model (linker.openerAt model m) element index body frame before.length v)
            e).2 := rfl
      rw [hitem]
      generalize exec (Op.runItem model (linker.openerAt model m) element index body frame
        before.length v) e = r
      obtain ⟨_ | frame', e'⟩ := r
      · exact .refl e'
      · exact before_forEach m element index body frame' _ after e'
  | empty first value =>
      refine .trans ?_ (before_ending first)
      rw [Op.exec_loop, value]
      exact .refl _
  | enter first within linked value bound =>
      refine .trans ?_ (before_ending first)
      rw [openerAt, within, linker.exec_inclusion _ linked, value]
      simp only [bound]
      rw [Program.exec_run]
      exact .refl _

-- So what is written at any moment of a render is there in the end.
theorem Reaches.before {root : ρ} {self : κ} {sink : Sink} {links : ω}
    (h : linker.Reaches model root self links m) (hmode : (linker.program self).mode = sink.mode) :
    m.effects.pieces.toList <+: (render linker self model root sink links).pieces := by
  obtain ⟨values, requests, hread, hreached⟩ := h
  have hend : (linker.ending model m).Before (linker.ending model
      ⟨self, maxInclusionDepth, (linker.program self).frame values, ⟨requests, #[], links⟩,
        (linker.program self).body⟩) := by
    induction hreached with
    | refl => exact .refl _
    | tail _ hm ih => exact hm.ending_before.trans ih
  rw [render_of_read hmode hread]
  exact (before_runAll model m.depth m.self m.frame m.ops m.effects).trans hend

end Linker

end Moments

variable {ρ κ ω : Type} [DecidableEq ρ]

-- What a render does with a sink, against what it does with an empty one.
theorem render_eq_fresh (linker : Linker κ ω) (self : κ) (model : Model ρ) (root : ρ) (sink : Sink)
    (links : ω) :
    let fresh := render linker self model root (.empty sink.mode sink.contentType) links
    render linker self model root sink links =
      { fresh with sink := sink.followedBy fresh.sink } := by
  intro fresh
  by_cases hmode : (linker.program self).mode = sink.mode
  · have hempty : (linker.program self).mode = (Sink.empty sink.mode sink.contentType).mode := by
      rw [hmode, Sink.mode_empty]
    simp only [fresh, render_of_mode hmode, render_of_mode hempty]
    rw [Sink.appendAll_eq_followedBy]
  · simp [fresh, render, Sink.mode_empty, hmode, Sink.followedBy_empty]

namespace Session

-- A render by name into a sink at hand.
theorem renderInto_appends (s : Session) (name : String) (model : Model ρ) (root : ρ) (sink : Sink) :
    s.renderInto name model root sink =
      (s.renderInto name model root (.empty sink.mode sink.contentType)).map fun o =>
        { o with result := o.result.map sink.followedBy } := by
  unfold renderInto renderKey
  rw [Sink.mode_empty]
  obtain ⟨_ | (e | c), s'⟩ := s.request (Workshop.getOrCompile ⟨name, sink.mode⟩)
  · rfl
  · rfl
  · dsimp only
    rw [renderProgram, render_eq_fresh]
    simp only [Option.map_some, renderProgram]
    generalize render linker c model root (.empty sink.mode sink.contentType) s' = fresh
    obtain ⟨_ | _, _, _, _, _⟩ := fresh <;> rfl

end Session

-- What is in a sink before a render is in front of what the render puts into an empty sink, and
-- nothing else depends on it, whether the render succeeds or fails. All is appended piece by piece,
-- and what was appended up to some moment stays. A render into a sink of another mode asks for
-- nothing and appends nothing, and one whose parameters are not all there, or not all of their
-- types, asks for parameters only, up to the first such, and appends nothing.
theorem render_appends (linker : Linker κ ω) (self : κ) (model : Model ρ) (root : ρ) (sink : Sink)
    (links : ω) :
    let program := linker.program self
    let r := render linker self model root sink links
    let fresh := render linker self model root (.empty sink.mode sink.contentType) links
    (r.sink = sink.followedBy fresh.sink ∧ fresh.sink.mode = sink.mode ∧
      fresh.sink.contentType = sink.contentType ∧ r.outcome = fresh.outcome ∧
      r.pieces = fresh.pieces ∧ r.requests = fresh.requests ∧ r.links = fresh.links) ∧
    r.sink = r.pieces.foldl Sink.append sink ∧
    (program.mode = sink.mode → ∀ m, linker.Reaches model root self links m →
      m.effects.pieces.toList <+: r.pieces) ∧
    (program.mode ≠ sink.mode →
      r = ⟨.error (.modeMismatch program.mode sink.mode), [], sink, [], links⟩) ∧
    (program.mode = sink.mode → ∀ i p err, program.schema.params[i]? = some p →
      p.Refused model i root err →
      ∃ j q err', j ≤ i ∧ program.schema.params[j]? = some q ∧ q.Refused model j root err' ∧
        r = ⟨.error err', [], sink,
          (program.schema.params.take (j + 1)).map fun p => .field root p.name, links⟩) ∧
    ∀ (s : Session) (name : String), s.renderInto name model root sink =
      (s.renderInto name model root (.empty sink.mode sink.contentType)).map fun o =>
        { o with result := o.result.map sink.followedBy } := by
  intro program r fresh
  have hfresh : r = { fresh with sink := sink.followedBy fresh.sink } :=
    render_eq_fresh linker self model root sink links
  have hnone : sink.appendAll [] = sink := Sink.appendAll_eq_foldl sink []
  refine ⟨?_, ?_, fun hmode m hm => hm.before hmode, fun hmode => if_neg hmode, ?_,
    fun s name => s.renderInto_appends name model root sink⟩
  · have hsink : fresh.sink = (Sink.empty sink.mode sink.contentType).appendAll fresh.pieces :=
      Rendering.sink_render
    rw [hfresh]
    refine ⟨rfl, ?_, ?_, rfl, rfl, rfl, rfl⟩
    · rw [hsink, Sink.mode_appendAll, Sink.mode_empty]
    · rw [hsink, Sink.contentType_appendAll, Sink.contentType_empty]
  · rw [← Sink.appendAll_eq_foldl]
    exact Rendering.sink_render
  · intro hmode i p err hp hrefused
    obtain ⟨j, q, err', hj, hq, hrefused', hrun⟩ :=
      readParams_of_refused #[] hp (by simpa using hrefused)
    refine ⟨j, q, err', hj, hq, by simpa using hrefused', ?_⟩
    have hr := Linker.render_of_unread hmode hrun links
    rw [hnone] at hr
    simpa using hr

-- A model that gives the second of two parameters as a text.
def mistypedModel : Model Nat := .ofFields fun _ name =>
  some (if name = "a" then .int 1 else .text "2")

theorem render_appends_mistyped :
    let sink := Sink.text ⟨.html, "old "⟩
    ∃ p, compileInline "@param int a\n@param int b\n${a}/${b}" .text = .ok p ∧
      (render unlinked p (.ofFields fun _ _ => some (.int 7)) 0 sink ()).sink =
        .text ⟨.html, "old 7/7"⟩ ∧
      ∃ j err, j ≤ 1 ∧ render unlinked p mistypedModel 0 sink () =
        ⟨.error err, [], sink, (p.schema.params.take (j + 1)).map fun p => .field 0 p.name, ()⟩ := by
  intro sink
  have hcompiled :
      (compileInline "@param int a\n@param int b\n${a}/${b}" .text).toOption.map (fun p =>
      (p.mode, p.schema.params.map fun q => (q.name, q.type),
        (render unlinked p (.ofFields fun (_ : Nat) _ => some (.int 7)) 0 sink ()).sink)) =
      some (.text, [("a", .int), ("b", .int)], .text ⟨.html, "old 7/7"⟩) := by decide +kernel
  obtain ⟨p, hp, hseen⟩ := Option.map_eq_some_iff.mp hcompiled
  obtain ⟨hmode, hparams, hsink⟩ : p.mode = .text ∧
      p.schema.params.map (fun q => (q.name, q.type)) = [("a", .int), ("b", .int)] ∧ _ = _ := by
    simpa only [Prod.mk.injEq] using hseen
  obtain ⟨q, hq, hnamed⟩ : ∃ q, p.schema.params[1]? = some q ∧ (q.name, q.type) = ("b", .int) := by
    have hsecond := congrArg (·[1]?) hparams
    simpa using hsecond
  obtain ⟨hname, htype⟩ := Prod.mk.inj hnamed
  have hrefused : q.Refused mistypedModel 1 0 (.typeMismatch q.name q.type.name .text) := by
    refine .mistyped (v := .text "2") ?_ ?_
    · rw [hname]
      rfl
    · rw [htype]
      rfl
  obtain ⟨-, -, -, -, hparameters, -⟩ := render_appends unlinked p mistypedModel 0 sink ()
  obtain ⟨j, q', err, hj, -, -, hr⟩ := hparameters hmode 1 q _ hq hrefused
  exact ⟨p, eq_ok_of_toOption hp, hsink, j, err, hj, hr⟩

end Stencil
