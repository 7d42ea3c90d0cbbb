import Stencil.Proofs.Output.Content
import Stencil.Proofs.Text.Utf8

/-!
A sink is a log. Whatever is done with a byte sink, what it has written out and what it still holds
are what was appended to it, in order. A text sink holds all that was appended and writes it out
anew each time. Steps that fail leave no trace in either.
-/

namespace Stencil

theorem Text.decodeLossy_encode (s : String) : decodeLossy (encode s) = s := by
  simp [decodeLossy, encode, readChars_encode, Function.comp_def]

namespace Sink

variable {ρ σ : Type}

-- What a step comes to: the bytes that it writes out, if it can be done.
abbrev Outcome := Except RenderError (List UInt8)

-- All that is written out.
def writtenOut (outcomes : List Outcome) : List UInt8 :=
  outcomes.flatMap fun outcome => outcome.toOption.getD []

theorem writtenOut_ok (written : List UInt8) (outcomes : List Outcome) :
    writtenOut (.ok written :: outcomes) = written ++ writtenOut outcomes := rfl

theorem writtenOut_error (e : RenderError) (outcomes : List Outcome) :
    writtenOut (.error e :: outcomes) = writtenOut outcomes := rfl

-- The outcomes of steps that are done one after the other, and what they lead to. A step that fails
-- does not end the run.
def runAll (perform : Step ρ → ExceptT RenderError (StateM σ) (List UInt8)) :
    σ → List (Step ρ) → List Outcome × σ
  | s, [] => ([], s)
  | s, step :: steps =>
    let (outcome, next) := (perform step).run s
    let (outcomes, last) := runAll perform next steps
    (outcome :: outcomes, last)

namespace Step

-- What a step appends, if it can be done.
def piece? : Step ρ → Option Piece
  | literal t => some (.literal t)
  | escaped v => v.shown.toOption.map .escaped
  | raw v => v.shown.toOption.map .raw
  | flush => none

-- All that steps append.
def pieces (steps : List (Step ρ)) : List Piece := steps.filterMap piece?

-- Fixed text in encoded form is the encoded form of some text.
def Readable (step : Step ρ) : Prop :=
  ∀ bytes, step = literal (.encoded bytes) → ∃ text, bytes = Text.encode text

theorem literal_of_piece? {step : Step ρ} {t : StaticText}
    (h : step.piece? = some (.literal t)) : step = literal t := by
  cases step with
  | literal u =>
    obtain rfl := Piece.literal.inj (Option.some.inj h)
    rfl
  | escaped v | raw v =>
    obtain ⟨_, -, hliteral⟩ := Option.map_eq_some_iff.mp h
    cases hliteral
  | flush => cases h

-- A value without a text form is refused before anything is appended.
theorem run_shown (append : σ → Piece → σ) (toPiece : String → Piece) (v : Value ρ) (s : σ) :
    let action : ExceptT RenderError (StateM σ) (List UInt8) := do
      let text ← ExceptT.mk (pure v.shown)
      modify (append · (toPiece text))
      return []
    (∃ p, v.shown.toOption.map toPiece = some p ∧ action.run s = (.ok [], append s p)) ∨
      (v.shown.toOption.map toPiece = none ∧ ∃ e, action.run s = (.error e, s)) := by
  cases hshown : v.shown with
  | ok text => exact .inl ⟨toPiece text, rfl, rfl⟩
  | error e => exact .inr ⟨rfl, e, rfl⟩

-- All that a step can do, whatever the sink is.
theorem run_cases (append : σ → Piece → σ) (writeOut : σ → List UInt8 × σ) (step : Step ρ) (s : σ) :
    (step = flush ∧ (step.perform append writeOut).run s = (.ok (writeOut s).1, (writeOut s).2)) ∨
      (∃ p, step.piece? = some p ∧ (step.perform append writeOut).run s = (.ok [], append s p)) ∨
      (step ≠ flush ∧ step.piece? = none ∧
        ∃ e, (step.perform append writeOut).run s = (.error e, s)) := by
  cases step with
  | literal t => exact .inr (.inl ⟨.literal t, rfl, rfl⟩)
  | escaped v => exact .inr ((run_shown append .escaped v s).imp_right fun h => ⟨nofun, h⟩)
  | raw v => exact .inr ((run_shown append .raw v s).imp_right fun h => ⟨nofun, h⟩)
  | flush => exact .inl ⟨rfl, rfl⟩

-- A step other than a flush appends nothing just if it fails, and then the sink stays as it is.
theorem fails_iff (append : σ → Piece → σ) (writeOut : σ → List UInt8 × σ) (step : Step ρ) (s : σ) :
    let done := (step.perform append writeOut).run s
    (step.piece? = none ↔ step = flush ∨ ∃ e, done.1 = .error e) ∧
      ∀ e, done.1 = .error e → done.2 = s := by
  obtain ⟨rfl, hrun⟩ | ⟨p, hp, hrun⟩ | ⟨-, hp, e, hrun⟩ := step.run_cases append writeOut s
  · rw [hrun]
    exact ⟨⟨fun _ => .inl rfl, fun _ => rfl⟩, nofun⟩
  · rw [hrun, hp]
    refine ⟨⟨nofun, ?_⟩, nofun⟩
    rintro (rfl | ⟨e, he⟩)
    · cases hp
    · cases he
  · rw [hrun, hp]
    exact ⟨⟨fun _ => .inr ⟨e, rfl⟩, fun _ => rfl⟩, fun _ _ => rfl⟩

end Step

section Texts

variable {s : TextSink}

-- A text sink holds all that was appended.
theorem runAll_text (steps : List (Step ρ)) : (runAll TextSink.perform s steps).2 =
    { s with content := s.content ++ Piece.content s.contentType (Step.pieces steps) } := by
  induction steps generalizing s with
  | nil => simp [runAll, Step.pieces, Piece.content]
  | cons step steps ih =>
    obtain ⟨rfl, hrun⟩ | ⟨p, hp, hrun⟩ | ⟨-, hp, e, hrun⟩ :=
      step.run_cases TextSink.append TextSink.flush s
    · have hnext : (TextSink.perform (.flush : Step ρ)).run s =
          (.ok (Text.encode s.content), s) := hrun
      simp only [runAll, hnext, ih]
      rfl
    · have hnext : (TextSink.perform step).run s = (.ok [], s.append p) := hrun
      simp only [runAll, hnext, ih]
      simp [TextSink.append, Step.pieces, hp, String.append_assoc]
    · have hnext : (TextSink.perform step).run s = (.error e, s) := hrun
      simp only [runAll, hnext, ih]
      simp [Step.pieces, hp]

end Texts

section Bytes

variable {s : ByteSink}

-- What a byte sink has written out and what it holds are all that was appended.
theorem runAll_bytes (steps : List (Step ρ)) :
    writtenOut (runAll ByteSink.perform s steps).1 ++ (runAll ByteSink.perform s steps).2.content =
      s.content ++ (Step.pieces steps).flatMap (Piece.bytes s.contentType) := by
  induction steps generalizing s with
  | nil => simp [runAll, Step.pieces, writtenOut]
  | cons step steps ih =>
    obtain ⟨rfl, hrun⟩ | ⟨p, hp, hrun⟩ | ⟨-, hp, e, hrun⟩ :=
      step.run_cases ByteSink.append ByteSink.flush s
    · have hnext : (ByteSink.perform (.flush : Step ρ)).run s =
          (.ok s.content, { s with content := [] }) := hrun
      simp only [runAll, hnext, writtenOut_ok, List.append_assoc, ih]
      rfl
    · have hnext : (ByteSink.perform step).run s = (.ok [], s.append p) := hrun
      simp only [runAll, hnext, writtenOut_ok, List.nil_append, ih]
      simp [ByteSink.append, Step.pieces, hp]
    · have hnext : (ByteSink.perform step).run s = (.error e, s) := hrun
      simp only [runAll, hnext, writtenOut_error, ih]
      simp [Step.pieces, hp]

end Bytes

-- The bytes of a piece are its text, encoded.
theorem encode_text {p : Piece} (contentType : ContentType)
    (h : ∀ bytes, p = .literal (.encoded bytes) → ∃ text, bytes = Text.encode text) :
    Text.encode (p.text contentType) = p.bytes contentType := by
  cases p with
  | literal t =>
    cases t with
    | text text => rfl
    | encoded bytes =>
      obtain ⟨text, rfl⟩ := h bytes rfl
      exact congrArg Text.encode (Text.decodeLossy_encode text)
  | escaped text => exact (contentType.encode_pieces text).symm
  | raw text => rfl

theorem encode_content {steps : List (Step ρ)} (h : ∀ step ∈ steps, step.Readable)
    (contentType : ContentType) : Text.encode (Piece.content contentType (Step.pieces steps)) =
      (Step.pieces steps).flatMap (Piece.bytes contentType) := by
  induction steps with
  | nil => rfl
  | cons step steps ih =>
    obtain ⟨hfirst, hrest⟩ := List.forall_mem_cons.mp h
    cases hp : step.piece? with
    | none => simpa [Step.pieces, hp] using ih hrest
    | some p =>
      have hpiece := encode_text contentType (p := p) fun bytes hliteral =>
        hfirst bytes (Step.literal_of_piece? (hliteral ▸ hp))
      have hcons : Step.pieces (step :: steps) = p :: Step.pieces steps := by
        simp [Step.pieces, hp]
      rw [hcons, Piece.content_cons, Text.encode_append, List.flatMap_cons, hpiece, ih hrest]

-- Through a sink of either kind.
theorem runAll_of_text (s : TextSink) (steps : List (Step ρ)) :
    runAll perform (text s) steps =
      ((runAll TextSink.perform s steps).1, text (runAll TextSink.perform s steps).2) := by
  induction steps generalizing s with
  | nil => rfl
  | cons step steps ih => exact congrArg (Prod.map (_ :: ·) id) (ih _)

theorem runAll_of_bytes (s : ByteSink) (steps : List (Step ρ)) :
    runAll perform (bytes s) steps =
      ((runAll ByteSink.perform s steps).1, bytes (runAll ByteSink.perform s steps).2) := by
  induction steps generalizing s with
  | nil => rfl
  | cons step steps ih => exact congrArg (Prod.map (_ :: ·) id) (ih _)

theorem runAll_concat (perform : Step ρ → ExceptT RenderError (StateM σ) (List UInt8)) (s : σ)
    (steps : List (Step ρ)) (step : Step ρ) : runAll perform s (steps ++ [step]) =
      let (outcomes, held) := runAll perform s steps
      let (outcome, last) := (perform step).run held
      (outcomes ++ [outcome], last) := by
  induction steps generalizing s with
  | nil => rfl
  | cons first steps ih => exact congrArg (Prod.map (_ :: ·) id) (ih _)

theorem fails_iff_of_either (s : Sink) (step : Step ρ) :
    (step.piece? = none ↔ step = .flush ∨ ∃ e, ((perform step).run s).1 = .error e) ∧
      ∀ e, ((perform step).run s).1 = .error e → ((perform step).run s).2 = s := by
  cases s with
  | text s =>
    obtain ⟨hfails, hstays⟩ := step.fails_iff TextSink.append TextSink.flush s
    exact ⟨hfails, fun e he => congrArg text (hstays e he)⟩
  | bytes s =>
    obtain ⟨hfails, hstays⟩ := step.fails_iff ByteSink.append ByteSink.flush s
    exact ⟨hfails, fun e he => congrArg bytes (hstays e he)⟩

-- Sinks keep one log, that of the pieces that were appended. A byte sink has written out or still
-- holds the bytes of all pieces, in order. A text sink holds the text of all pieces, and writes out
-- all of it whenever it is written out. Both are the same, encoded, unless bytes that are no text
-- are appended. A step that fails leaves a sink as it was. All this is so too through a sink of
-- either kind.
theorem keep_one_log :
    (∀ (s : Sink) (step : Step ρ),
      (step.piece? = none ↔ step = .flush ∨ ∃ e, ((perform step).run s).1 = .error e) ∧
        ∀ e, ((perform step).run s).1 = .error e → ((perform step).run s).2 = s) ∧
    (∀ (s : ByteSink) (steps : List (Step ρ)),
      writtenOut (runAll ByteSink.perform s steps).1 ++
          (runAll ByteSink.perform s steps).2.content =
        s.content ++ (Step.pieces steps).flatMap (Piece.bytes s.contentType)) ∧
    (∀ (s : TextSink) (steps : List (Step ρ)),
      let held := s.content ++ Piece.content s.contentType (Step.pieces steps)
      runAll TextSink.perform s steps =
          ((runAll TextSink.perform s steps).1, { s with content := held }) ∧
        runAll TextSink.perform s (steps ++ [.flush]) =
          ((runAll TextSink.perform s steps).1 ++ [.ok (Text.encode held)],
            { s with content := held })) ∧
    (∀ (s : TextSink) (b : ByteSink) (steps : List (Step ρ)),
      s.contentType = b.contentType → Text.encode s.content = b.content →
      (∀ step ∈ steps, step.Readable) →
        Text.encode (runAll TextSink.perform s steps).2.content =
          writtenOut (runAll ByteSink.perform b steps).1 ++
            (runAll ByteSink.perform b steps).2.content) ∧
    (∀ (s : TextSink) (steps : List (Step ρ)), runAll perform (text s) steps =
      ((runAll TextSink.perform s steps).1, text (runAll TextSink.perform s steps).2)) ∧
    ∀ (s : ByteSink) (steps : List (Step ρ)), runAll perform (bytes s) steps =
      ((runAll ByteSink.perform s steps).1, bytes (runAll ByteSink.perform s steps).2) := by
  refine ⟨fails_iff_of_either, fun s => runAll_bytes, fun s steps => ⟨?_, ?_⟩,
    fun s b steps hsame hcontent hsteps => ?_, runAll_of_text, runAll_of_bytes⟩
  · rw [← runAll_text]
  · calc
      runAll TextSink.perform s (steps ++ [.flush]) =
          ((runAll TextSink.perform s steps).1 ++
            [.ok (Text.encode (runAll TextSink.perform s steps).2.content)],
            (runAll TextSink.perform s steps).2) := runAll_concat _ _ _ _
      _ = _ := by rw [runAll_text]
  · rw [runAll_text, runAll_bytes, Text.encode_append, hcontent, encode_content hsteps, hsame]

-- Two flushes among appends, one of which fails.
def mixedSteps : List (Step Unit) :=
  [.literal (.text "<b>"), .escaped (.text "A & B"), .flush, .raw (.list []),
    .literal (.encoded (Text.encode "</b>")), .flush, .raw (.int 7)]

theorem keep_one_log_mixed :
    let shown := (runAll TextSink.perform ⟨.html, ""⟩ mixedSteps).2.content
    let (outcomes, held) := runAll ByteSink.perform ⟨.html, []⟩ mixedSteps
    shown = "<b>A &amp; B</b>7" ∧ held.content = Text.encode "7" ∧
      Text.encode shown = writtenOut outcomes ++ held.content := by
  have hsteps : ∀ step ∈ mixedSteps, step.Readable := by
    intro step hstep bytes hencoded
    subst hencoded
    have hbytes : bytes = Text.encode "</b>" := by simpa [mixedSteps] using hstep
    exact ⟨"</b>", hbytes⟩
  have hagree := keep_one_log.2.2.2.1 ⟨.html, ""⟩ ⟨.html, []⟩ mixedSteps rfl rfl hsteps
  exact ⟨by decide +kernel, by decide +kernel, hagree⟩

end Sink

end Stencil
