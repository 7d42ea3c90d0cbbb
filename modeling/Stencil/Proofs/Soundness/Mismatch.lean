import Stencil.Proofs.Soundness.Arithmetic

/-!
Whom a mismatch of types names. Where the model keeps to the declared types it is `null`, the only
operand that can be at fault, with one exception: a sum of a text and `null` names the text.
-/

namespace Stencil

variable {ρ ω : Type}

-- All values that the root record of a model has for parameters fit. Some may be missing.
def Model.Suits (model : Model ρ) (isA : String → ρ → Prop) (root : ρ) (params : List Parameter) :
    Prop :=
  ∀ p ∈ params, ∀ n v, model.field n root p.name = some v → v.Fits isA p.type

variable {isA : String → ρ → Prop} {model : Model ρ} {root : ρ}

theorem Parameter.Reading.fit_or_missing {n : Nat} {params asked : List Parameter}
    {result : Except RenderError (List (Value ρ))}
    (h : Parameter.Reading model root n params asked result)
    (hdefaults : ∀ p ∈ params, p.DefaultFits) (hmodel : model.Suits isA root params) :
    (∃ values, result = .ok values ∧ Schema.Fit isA values params) ∨
      ∃ name, result = .error (.missingParameter name) := by
  induction h with
  | nil => exact .inl ⟨[], rfl, .nil⟩
  | @fails n p params err first =>
      obtain ⟨v, hv, -⟩ | ⟨hmissing, -, -⟩ := Parameter.read_fits_or_missing
        (hdefaults p (by simp)) (hmodel p (by simp) n)
      · rw [first] at hv
        cases hv
      · obtain rfl := Except.error.inj (first.symm.trans hmissing)
        exact .inr ⟨p.name, rfl⟩
  | @reads n p params asked v result first rest ih =>
      obtain ⟨values, rfl, hfit⟩ | ⟨name, rfl⟩ :=
        ih (fun q hq => hdefaults q (by simp [hq])) fun q hq => hmodel q (by simp [hq])
      · obtain ⟨w, hw, hfits⟩ | ⟨hmissing, -, -⟩ := Parameter.read_fits_or_missing
          (hdefaults p (by simp)) (hmodel p (by simp) n)
        · obtain rfl := Except.ok.inj (first.symm.trans hw)
          exact .inl ⟨v :: values, rfl, .cons hfits hfit⟩
        · rw [first] at hmissing
          cases hmissing
      · exact .inr ⟨name, rfl⟩

-- The error itself, without the templates that it came through.
def RenderError.origin : RenderError → RenderError
  | .inside _ cause => cause.origin
  | err => err

theorem RenderError.ExcusedBy.origin_eq {operands : List (Value ρ)} {err : RenderError}
    (h : err.ExcusedBy operands) : err.origin = err := by
  cases h <;> rfl

-- `null` was to be added to a text.
def Operation.AddsNull (o : Operation ρ) : Prop :=
  ∃ s expected found, o.operands = [.text s, .null] ∧
    o.result = .error (.typeMismatch ArithmeticOp.add.symbol expected found)

theorem Operation.Blames.found {o : Operation ρ} (h : o.Blames) {name expected : String}
    {found : Kind} (hresult : o.result = .error (.typeMismatch name expected found)) :
    (found = .null ↔ ¬o.AddsNull) ∧ (found = .text ↔ o.AddsNull) := by
  obtain ⟨hkinds, htext⟩ := h _ hresult
  have hadds : (name = ArithmeticOp.add.symbol ∧ ∃ s, o.operands = [.text s, .null]) ↔
      o.AddsNull := by
    constructor
    · rintro ⟨rfl, s, hs⟩
      exact ⟨s, expected, found, hs, hresult⟩
    · rintro ⟨s, _, _, hs, hresult'⟩
      rw [hresult] at hresult'
      simp only [Except.error.injEq, RenderError.typeMismatch.injEq] at hresult'
      exact ⟨hresult'.1, s, hs⟩
  rw [hadds] at htext
  refine ⟨?_, htext⟩
  rw [← htext]
  obtain rfl | rfl := hkinds <;> simp

-- A mismatch in the end is one of the last operation.
theorem RenderError.Sanctioned.last {log : List (Operation ρ)} {err : RenderError}
    (h : err.Sanctioned log) {name expected : String} {found : Kind}
    (horigin : err.origin = .typeMismatch name expected found) :
    ∃ o rest, log = o :: rest ∧ o.result = .error (.typeMismatch name expected found) := by
  induction h with
  | @operation o rest err last failed excused =>
      rw [excused.origin_eq] at horigin
      exact ⟨o, rest, last, horigin ▸ failed⟩
  | unresolvedInclusion target reason => cases horigin
  | recursionLimit target => cases horigin
  | inside target _ ih => exact ih horigin

variable [DecidableEq ρ]

-- What a template means ends well, unless a parameter is missing.
theorem Shelf.InOrder.ends_or_missing {shelf : Shelf} (h : shelf.InOrder) {t : Template}
    {checked : CheckedTemplate} (ht : t.Elaborates shelf.context checked)
    (hmodel : model.Conforms shelf.context.oracle isA)
    (hroot : model.Suits isA root checked.schema.params) :
    Interp.Ends (fun _ => True) (shelf.meaning t checked.schema model root) ∨
      ∃ name, (shelf.meaning t checked.schema model root).1 = .error (.missingParameter name) := by
  unfold Shelf.meaning Template.interpretRoot
  rw [Run.exec_bind, Run.exec_ofEval]
  obtain ⟨asked, hreading, -⟩ :=
    Parameter.reading_readParams model root checked.schema.params #[]
  have hstart : (Effects.start (ρ := ρ) (⟨(), []⟩ : Ledger ρ Unit)).requests = #[] := rfl
  simp only [Shelf.interpreter, hstart]
  obtain ⟨values, hvalues, hfit⟩ | ⟨name, hname⟩ := hreading.fit_or_missing ht.defaults_fit hroot
  · have hsafe := Template.safe_interpret (h.sound hmodel maxInclusionDepth) ht hfit
    rw [hvalues]
    exact .inl (hsafe _ fun _ ho => absurd ho List.not_mem_nil)
  · rw [hname]
    exact .inr ⟨name, rfl⟩

-- A rendering follows a meaning. A mismatch that it ends with, at whatever depth of inclusions, is
-- one of the last operation; it names the text where that adds `null` to a text, and otherwise
-- `null`.
structure Rendering.Blames (r : Rendering ρ ω) (mode : Mode)
    (meaning : Except RenderError Unit × Effects ρ (Ledger ρ Unit)) : Prop where
  follows : r.Follows mode meaning
  mismatch : ∀ err name expected found, r.outcome = .error err →
    err.origin = .typeMismatch name expected found →
    ∃ o rest, meaning.2.links.operations = o :: rest ∧
      o.result = .error (.typeMismatch name expected found) ∧
      (found = .null ↔ ¬o.AddsNull) ∧ (found = .text ↔ o.AddsNull)

omit [DecidableEq ρ] in
theorem Rendering.blames_of_ends {r : Rendering ρ ω} {mode : Mode}
    {meaning : Except RenderError Unit × Effects ρ (Ledger ρ Unit)}
    (hfollows : r.Follows mode meaning)
    (h : Interp.Ends (fun _ => True) meaning ∨
      ∃ name, meaning.1 = .error (.missingParameter name)) : r.Blames mode meaning := by
  refine ⟨hfollows, fun err name expected found herr horigin => ?_⟩
  rw [hfollows.outcome] at herr
  obtain hends | ⟨missing, hmissing⟩ := h
  · cases hends with
    | ok _ _ => cases herr
    | error lawful sanctioned =>
        obtain rfl := Except.error.inj herr
        obtain ⟨o, rest, hlog, hresult⟩ := sanctioned.last horigin
        have hblames : o.Blames := (lawful o (by simp [hlog])).2
        exact ⟨o, rest, hlog, hresult, hblames.found hresult⟩
  · obtain rfl := Except.error.inj (hmissing.symm.trans herr)
    cases horigin

-- Whom mismatches name, in templates that stand alone and in templates served by a registry, where
-- all values of the model keep to the declared types, as far as there are any. It is `null` but in
-- sums of a text and `null`, which name the text.
theorem render_blames (model : Model ρ) (isA : String → ρ → Prop) (root : ρ) (sink : Sink) :
    (∀ (t : NamedTemplate) (context : CheckContext) (p : Program),
      t.compile context sink.mode = .ok p →
      model.Conforms context.oracle isA → model.Suits isA root p.schema.params →
      (render unlinked p model root sink ()).Blames sink.mode
        ((Shelf.bare context).meaning t.template p.schema model root)) ∧
    ∀ (lib : Library) (s : Session) (name : String) (c : Compiled) (s' : Session),
      Session.Reachable lib s →
      s.request (Workshop.getOrCompile ⟨name, sink.mode⟩) = (some (.ok c), s') →
      model.Conforms lib.oracle isA → model.Suits isA root c.program.schema.params →
      ∃ t, lib.template name = .ok t ∧
        (s'.renderProgram c model root sink).Blames sink.mode
          (lib.shelf.meaning t.template c.program.schema model root) := by
  refine ⟨fun t context p hp hmodel hroot => ?_, fun lib s name c s' hs hrequest hmodel hroot => ?_⟩
  · obtain ⟨checked, ht, hschema, hfollows⟩ := NamedTemplate.follows_of_compile hp model root
    have hends := (Shelf.inOrder_bare context).ends_or_missing ht hmodel (hschema ▸ hroot)
    rw [hschema] at hends
    exact Rendering.blames_of_ends hfollows hends
  · obtain ⟨t, checked, ht, helaborates, hschema, hfollows⟩ :=
      hs.follows_of_request hrequest model root
    have hends := lib.inOrder_shelf.ends_or_missing helaborates hmodel (hschema ▸ hroot)
    rw [hschema] at hends
    exact ⟨t, ht, Rendering.blames_of_ends hfollows hends⟩

-- Greets someone by name.
def greeting : NamedTemplate where
  name := "greeting"
  template :=
    { params := [⟨"who", .named "string", none, default⟩]
      body :=
        [.interpolation false
          (.binary default (.arithmetic .add) (.literal default (.text "Hello "))
            (.name default "who")) default]
      idCount := 0 }
  source := ""

def greetingChecked : CheckedTemplate where
  schema := ⟨[⟨"who", .text, none⟩]⟩
  body :=
    [.interpolation false
      (.binary ⟨0, .text⟩ (.arithmetic .add) (.literal ⟨0, .text⟩ (.text "Hello "))
        (.slot ⟨0, .text⟩ 0))]

-- A model in which no one has a name.
def namelessModel : Model Nat := .ofFields fun _ _ => some .null

theorem namelessModel_conforms {isA : String → Nat → Prop} :
    namelessModel.Conforms CheckContext.bare.oracle isA where
  field hfound := nomatch hfound
  call hfound := nomatch hfound

theorem namelessModel_suits {isA : String → Nat → Prop} {params : List Parameter} :
    namelessModel.Suits isA 0 params := by
  intro p _ n v hv
  obtain rfl := Option.some.inj hv
  exact .null _

theorem render_blames_greeting :
    let program := greetingChecked.program "greeting" .text
    let sink : Sink := .text ⟨.plain, ""⟩
    greeting.compile .bare sink.mode = .ok program ∧
      namelessModel.Conforms CheckContext.bare.oracle IsPerson ∧
      namelessModel.Suits IsPerson 0 program.schema.params ∧
      (render unlinked program namelessModel 0 sink ()).Blames .text
        ((Shelf.bare .bare).meaning greeting.template program.schema namelessModel 0) := by
  intro program sink
  have hcompile : greeting.compile .bare sink.mode = .ok program := rfl
  have hmodel : namelessModel.Conforms CheckContext.bare.oracle IsPerson := namelessModel_conforms
  have hroot : namelessModel.Suits IsPerson 0 program.schema.params := namelessModel_suits
  exact ⟨hcompile, hmodel, hroot, (render_blames namelessModel IsPerson 0 sink).1 greeting .bare
    program hcompile hmodel hroot⟩

-- The mismatch names the text, which is of the type that the sum was checked for, and not `null`.
theorem greeting_names_text :
    let program := greetingChecked.program "greeting" .text
    let sink : Sink := .text ⟨.plain, ""⟩
    greeting.compile .bare sink.mode = .ok program ∧
      namelessModel.Conforms CheckContext.bare.oracle IsPerson ∧
      namelessModel.Suits IsPerson 0 program.schema.params ∧
      (render unlinked program namelessModel 0 sink ()).outcome =
        .error (.typeMismatch "+" "number" .text) :=
  ⟨rfl, namelessModel_conforms, namelessModel_suits, rfl⟩

end Stencil
