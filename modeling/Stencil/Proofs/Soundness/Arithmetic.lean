import Stencil.Proofs.Soundness.Rendering

/-!
Arithmetic and the types that the check recorded for it. The types decide, except where all operands
of an expression of type `float` are integers. These are not made floats, and it is done with
integers. Parameters are made floats, so that such integers come from elsewhere.
-/

namespace Stencil

variable {ρ : Type}

namespace Operation

-- The type recorded for arithmetic.
def type? (o : Operation ρ) : Option Ty :=
  match o.task with
  | .arithmetic _ type | .negation type => type
  | _ => none

-- What arithmetic comes to when it is done with integers, if the operands are integers.
def inInts? (o : Operation ρ) : Option (Except RenderError Int64) :=
  match o.task, o.operands with
  | .arithmetic op _, [a, b] => do return op.onInts (← a.int?) (← b.int?)
  | .negation _, [a] => do
    match Number.word? (-(← a.int?).toInt) with
    | some n => return .ok n
    | none => return .error (.overflow "-")
  | _, _ => none

-- What it comes to when it is done with floats, where integers are made floats.
def inFloats? (o : Operation ρ) : Option (Except RenderError Float) :=
  match o.task, o.operands with
  | .arithmetic op _, [a, b] => do return op.onFloats (← a.float?) (← b.float?)
  | .negation _, [a] => do return .ok (-(← a.float?))
  | _, _ => none

-- What arithmetic comes to, by the type that was recorded. Operations on `null` are left out.
structure ByType (o : Operation ρ) : Prop where
  int : o.type? = some .int → .null ∉ o.operands →
    ∃ r, o.inInts? = some r ∧ o.result = r.map .int
  float : o.type? = some .float → .null ∉ o.operands → (∃ v ∈ o.operands, v.int? = none) →
    ∃ r, o.inFloats? = some r ∧ o.result = r.map .float
  -- The type does not decide here.
  ints_for_floats : o.type? = some .float → (∀ v ∈ o.operands, v.int? ≠ none) →
    ∃ r, o.inInts? = some r ∧ o.result = r.map .int

-- Success gives a number of the type that was recorded, and arithmetic of type `float` is done with
-- floats.
structure KeepsToType (o : Operation ρ) : Prop where
  int : o.type? = some .int → .null ∉ o.operands → ∀ v, o.result = .ok v → ∃ n, v = .int n
  float : o.type? = some .float → .null ∉ o.operands →
    (∀ v, o.result = .ok v → ∃ x, v = .float x ∧ o.inFloats? = some (.ok x)) ∧
      ∀ name, o.result ≠ .error (.overflow name)

-- Integers in the place of floats, except for a division by zero, which fails the same with both.
structure TakesIntsForFloats (o : Operation ρ) : Prop where
  type : o.type? = some .float
  ints : ∀ v ∈ o.operands, v.int? ≠ none
  result : o.result ≠ .error .divisionByZero

-- `null` is no integer.
theorem not_null_of_ints {o : Operation ρ} (h : ∀ v ∈ o.operands, v.int? ≠ none) :
    .null ∉ o.operands :=
  fun hnull => h _ hnull rfl

theorem ByType.of_not_null {o : Operation ρ} (h : .null ∉ o.operands → o.ByType) : o.ByType where
  int htype hnull := (h hnull).int htype hnull
  float htype hnull := (h hnull).float htype hnull
  ints_for_floats htype hints := (h (not_null_of_ints hints)).ints_for_floats htype hints

theorem byType_of_computes {op : ArithmeticOp} {type : Ty} {a b : Value ρ}
    {r : Except RenderError (Value ρ)} (h : op.Computes type a b r) :
    ByType ⟨.arithmetic op (some type), [a, b], r⟩ := by
  cases h with
  | texts s t _ => exact ⟨nofun, nofun, nofun⟩
  | ints m n => exact ⟨fun _ _ => ⟨_, rfl, rfl⟩, nofun, nofun⟩
  | floats lhs rhs mixed =>
      refine ⟨nofun, fun _ _ _ => ⟨_, by simp [inFloats?, lhs, rhs], rfl⟩, fun _ hints => ?_⟩
      obtain hint | hint := mixed
      · exact absurd hint (hints a (by simp))
      · exact absurd hint (hints b (by simp))
  | intsForFloats m n =>
      refine ⟨nofun, fun _ _ hmixed => ?_, fun _ _ => ⟨_, rfl, rfl⟩⟩
      obtain ⟨v, hv, hint⟩ := hmixed
      simp only [List.mem_cons, List.not_mem_nil, or_false] at hv
      obtain rfl | rfl := hv <;> cases hint

theorem inInts?_negation (type : Option Ty) (n : Int64) (result : Except RenderError (Value ρ)) :
    ∃ r, inInts? ⟨.negation type, [.int n], result⟩ = some r ∧
      (Value.int n : Value ρ).negate = r.map .int := by
  simp only [inInts?, Value.int?, Value.negate, Option.bind_eq_bind, Option.bind_some]
  cases Number.word? (-n.toInt) with
  | some w => exact ⟨_, rfl, rfl⟩
  | none => exact ⟨_, rfl, rfl⟩

theorem byType_of_negates {type : Ty} {a : Value ρ} {r : Except RenderError (Value ρ)}
    (h : Value.Negates type a r) : ByType ⟨.negation (some type), [a], r⟩ := by
  cases h with
  | int n => exact ⟨fun _ _ => inInts?_negation _ n _, nofun, nofun⟩
  | float x =>
      refine ⟨nofun, fun _ _ _ => ⟨_, rfl, rfl⟩, fun _ hints => ?_⟩
      exact absurd rfl (hints (.float x) (by simp))
  | intForFloat n =>
      refine ⟨nofun, fun _ _ hmixed => ?_, fun _ _ => inInts?_negation _ n _⟩
      obtain ⟨v, hv, hint⟩ := hmixed
      obtain rfl := List.mem_singleton.mp hv
      cases hint

theorem Lawful.byType {o : Operation ρ} (h : o.Lawful) : o.ByType := by
  refine .of_not_null fun hnull => ?_
  have hlawful := h hnull
  obtain ⟨task, operands, result⟩ := o
  cases task with
  | arithmetic op type =>
      obtain ⟨t, a, b, rfl, rfl, hcomputes⟩ := hlawful
      exact byType_of_computes hcomputes
  | negation type =>
      obtain ⟨t, a, rfl, rfl, hnegates⟩ := hlawful
      exact byType_of_negates hnegates
  | _ => exact ⟨nofun, nofun, nofun⟩

theorem inInts?_cases {o : Operation ρ} {r : Except RenderError Int64} (h : o.inInts? = some r) :
    (∃ n, r = .ok n) ∨ r = .error .divisionByZero ∨ ∃ name, r = .error (.overflow name) := by
  unfold inInts? at h
  split at h
  · next op _ _ _ _ _ =>
      obtain ⟨m, -, h⟩ := Option.bind_eq_some_iff.mp h
      obtain ⟨n, -, h⟩ := Option.bind_eq_some_iff.mp h
      obtain rfl := Option.some.inj h
      exact (op.onInts_cases m n).imp id (·.imp id fun h => ⟨_, h⟩)
  · obtain ⟨n, -, h⟩ := Option.bind_eq_some_iff.mp h
    split at h <;> obtain rfl := Option.some.inj h
    · exact .inl ⟨_, rfl⟩
    · exact .inr (.inr ⟨_, rfl⟩)
  · cases h

theorem inFloats?_cases {o : Operation ρ} {r : Except RenderError Float}
    (h : o.inFloats? = some r) : (∃ x, r = .ok x) ∨ r = .error .divisionByZero := by
  unfold inFloats? at h
  split at h
  · next op _ _ _ _ _ =>
      obtain ⟨x, -, h⟩ := Option.bind_eq_some_iff.mp h
      obtain ⟨y, -, h⟩ := Option.bind_eq_some_iff.mp h
      obtain rfl := Option.some.inj h
      exact op.onFloats_cases x y
  · obtain ⟨x, -, h⟩ := Option.bind_eq_some_iff.mp h
    obtain rfl := Option.some.inj h
    exact .inl ⟨_, rfl⟩
  · cases h

-- Arithmetic keeps to its type exactly if it does not take integers for floats.
theorem ByType.keepsToType_iff {o : Operation ρ} (h : o.ByType) :
    o.KeepsToType ↔ ¬o.TakesIntsForFloats := by
  constructor
  · rintro hkeeps ⟨htype, hints, hresult⟩
    obtain ⟨hfloat, hoverflow⟩ := hkeeps.float htype (not_null_of_ints hints)
    obtain ⟨r, hr, heq⟩ := h.ints_for_floats htype hints
    obtain ⟨n, rfl⟩ | rfl | ⟨name, rfl⟩ := inInts?_cases hr
    · obtain ⟨x, hx, -⟩ := hfloat _ heq
      cases hx
    · exact hresult heq
    · exact hoverflow name heq
  · intro hnot
    refine ⟨fun htype hnull v hv => ?_, fun htype hnull => ?_⟩
    · obtain ⟨r, hr, heq⟩ := h.int htype hnull
      rw [hv] at heq
      cases r with
      | error err => cases heq
      | ok n => exact ⟨n, Except.ok.inj heq⟩
    · by_cases hmixed : ∃ v ∈ o.operands, v.int? = none
      · obtain ⟨r, hr, heq⟩ := h.float htype hnull hmixed
        rw [heq]
        obtain ⟨x, rfl⟩ | rfl := inFloats?_cases hr
        · refine ⟨fun v hv => ⟨x, (Except.ok.inj hv).symm, hr⟩, nofun⟩
        · exact ⟨nofun, nofun⟩
      · have hints : ∀ v ∈ o.operands, v.int? ≠ none := by simpa using hmixed
        have hzero : o.result = .error .divisionByZero := by
          by_contra hresult
          exact hnot ⟨htype, hints, hresult⟩
        rw [hzero]
        exact ⟨nofun, nofun⟩

end Operation

-- Parameters of type `float` do not have integers for values.
def Schema.Widened (params : List Parameter) (values : List (Value ρ)) : Prop :=
  ∀ pair ∈ params.zip values, pair.1.type = .float → pair.2.int? = none

theorem Schema.Widened.cons {p : Parameter} {params : List Parameter} {values : List (Value ρ)}
    (v : Value ρ) (h : Widened params values) :
    Widened (p :: params) (v.widen p.type :: values) := by
  intro pair hpair htype
  obtain rfl | hpair := List.mem_cons.mp hpair
  · have hfloat : p.type = .float := htype
    dsimp only
    rw [hfloat]
    cases v <;> rfl
  · exact h pair hpair htype

theorem bindArgs_widened {params : List Parameter} {args : List (Option (Value ρ))}
    {values : List (Value ρ)} (h : bindArgs params args = .ok values) :
    Schema.Widened params values := by
  induction params generalizing args values with
  | nil => exact fun _ hpair => nomatch hpair
  | cons p params ih =>
      cases args with
      | nil =>
          obtain rfl := Except.ok.inj h
          exact fun _ hpair => nomatch hpair
      | cons arg args =>
          obtain ⟨v, rest, hrest, rfl⟩ := bindArgs_cons_eq_ok h
          exact (ih hrest).cons v

theorem Parameter.widened_of_read {model : Model ρ} {root : ρ} {p : Parameter} {n : Nat}
    {v : Value ρ} (h : p.read model n root = .ok v) : ∃ w : Value ρ, v = w.widen p.type := by
  unfold Parameter.read at h
  split at h
  · split at h
    · exact ⟨_, (Except.ok.inj h).symm⟩
    · cases h
  · cases hdefault : p.defaultValue (ρ := ρ) with
    | error err =>
        rw [hdefault] at h
        cases h
    | ok w =>
        rw [hdefault] at h
        exact ⟨w, (Except.ok.inj h).symm⟩

theorem Parameter.Reading.widened {model : Model ρ} {root : ρ} {n : Nat}
    {params asked : List Parameter} {result : Except RenderError (List (Value ρ))}
    (h : Reading model root n params asked result) {values : List (Value ρ)}
    (hvalues : result = .ok values) : Schema.Widened params values := by
  induction h generalizing values with
  | nil => exact fun _ hpair => nomatch hpair
  | fails _ => cases hvalues
  | reads first rest ih =>
      rename_i result
      cases result with
      | error err => cases hvalues
      | ok rest =>
          obtain rfl := Except.ok.inj hvalues
          obtain ⟨w, rfl⟩ := Parameter.widened_of_read first
          exact (ih rfl).cons w

-- A rendering follows a meaning, and the types decide the arithmetic that was logged.
structure Rendering.ByType {ω : Type} (r : Rendering ρ ω) (mode : Mode)
    (meaning : Except RenderError Unit × Effects ρ (Ledger ρ Unit)) : Prop where
  follows : r.Follows mode meaning
  byType : ∀ o ∈ meaning.2.links.operations, o.ByType
  keepsToType_iff : ∀ o ∈ meaning.2.links.operations, o.KeepsToType ↔ ¬o.TakesIntsForFloats

theorem Rendering.byType_of_ends {ω : Type} {r : Rendering ρ ω} {mode : Mode}
    {meaning : Except RenderError Unit × Effects ρ (Ledger ρ Unit)}
    (h : r.Follows mode meaning ∧ Interp.Ends (fun _ => True) meaning) :
    r.ByType mode meaning := by
  obtain ⟨hfollows, hends⟩ := h
  have hbyType : ∀ o ∈ meaning.2.links.operations, o.ByType := by
    intro o ho
    cases hends with
    | ok lawful _ => exact (lawful o ho).1.byType
    | error lawful _ => exact (lawful o ho).1.byType
  exact ⟨hfollows, hbyType, fun o ho => (hbyType o ho).keepsToType_iff⟩

-- Which arithmetic the types decide, where the model keeps to the declared types: all of it but for
-- what takes integers for floats. The types are those that the check recorded. Parameters of type
-- `float` are none of these integers.
theorem arithmetic_by_type [DecidableEq ρ] (model : Model ρ) (isA : String → ρ → Prop) (root : ρ)
    (sink : Sink) :
    (∀ (oracle : Oracle) (scope : Scope) (e : Expr) (t : Term),
      e.check oracle scope = pure (some t) → e.typeIn oracle scope = some t.type) ∧
    (∀ (params : List Parameter) (requests : Array (Request ρ)) (values : List (Value ρ)),
      ((readParams model root params).run requests).1 = .ok values →
      Schema.Widened params values) ∧
    (∀ (params : List Parameter) (args : List (Option (Value ρ))) (values : List (Value ρ)),
      bindArgs params args = .ok values → Schema.Widened params values) ∧
    (∀ (t : NamedTemplate) (context : CheckContext) (p : Program),
      t.compile context sink.mode = .ok p →
      model.Conforms context.oracle isA → model.Supplies isA root p.schema.params →
      (render unlinked p model root sink ()).ByType sink.mode
        ((Shelf.bare context).meaning t.template p.schema model root)) ∧
    ∀ (lib : Library) (s : Session) (name : String) (c : Compiled) (s' : Session),
      Session.Reachable lib s →
      s.request (Workshop.getOrCompile ⟨name, sink.mode⟩) = (some (.ok c), s') →
      model.Conforms lib.oracle isA → model.Supplies isA root c.program.schema.params →
      ∃ t, lib.template name = .ok t ∧
        (s'.renderProgram c model root sink).ByType sink.mode
          (lib.shelf.meaning t.template c.program.schema model root) := by
  refine ⟨fun oracle scope e t h => ?_, fun params requests values h => ?_,
    fun params args values h => bindArgs_widened h, fun t context p hp hmodel hroot => ?_,
    fun lib s name c s' hs hrequest hmodel hroot => ?_⟩
  · exact Expr.typeIn_of_elaborates (e.elaborates_of_check h)
  · obtain ⟨asked, hreading, -⟩ := Parameter.reading_readParams model root params requests
    exact hreading.widened h
  · exact Rendering.byType_of_ends (t.ends_of_compile hp hmodel hroot)
  · obtain ⟨t, ht, hends⟩ := hs.ends_of_request hrequest hmodel hroot
    exact ⟨t, ht, Rendering.byType_of_ends hends⟩

-- Shows the halves of floats.
def halves : NamedTemplate where
  name := "halves"
  template :=
    { params := [⟨"xs", .list (.named "float"), none, default⟩]
      body :=
        [.loop ⟨default, "x"⟩ none (.name default "xs")
          [.interpolation false
            (.binary default (.arithmetic .divide) (.name default "x") (.literal default (.int 2)))
            default] none default]
      idCount := 0 }
  source := ""

def halvesChecked : CheckedTemplate where
  schema := ⟨[⟨"xs", .list .float, none⟩]⟩
  body :=
    [.loop (.slot ⟨0, .list .float⟩ 0) 1 none
      [.interpolation false
        (.binary ⟨0, .float⟩ (.arithmetic .divide) (.slot ⟨0, .float⟩ 1)
          (.literal ⟨0, .int⟩ (.int 2)))] []]

-- A model whose only float is an integer.
def oneModel : Model Nat := .ofFields fun _ _ => some (.list [.int 1])

theorem oneModel_conforms {isA : String → Nat → Prop} :
    oneModel.Conforms CheckContext.bare.oracle isA where
  field hfound := nomatch hfound
  call hfound := nomatch hfound

theorem oneModel_supplies {isA : String → Nat → Prop} :
    oneModel.Supplies isA 0 halvesChecked.schema.params where
  fits := by
    intro p hp n v hv
    obtain rfl := List.mem_singleton.mp hp
    obtain rfl := Option.some.inj hv
    exact .list fun w hw => List.mem_singleton.mp hw ▸ .intAsFloat 1
  present _ _ _ _ := rfl

theorem halves_takes_ints_for_floats :
    let program := halvesChecked.program "halves" .text
    let meaning := (Shelf.bare .bare).meaning halves.template program.schema oneModel 0
    let o : Operation Nat := ⟨.arithmetic .divide (some .float), [.int 1, .int 2], .ok (.int 0)⟩
    halves.compile .bare .text = .ok program ∧ oneModel.Conforms CheckContext.bare.oracle IsPerson ∧
      oneModel.Supplies IsPerson 0 program.schema.params ∧ meaning.1 = .ok () ∧
      o ∈ meaning.2.links.operations ∧ ¬o.KeepsToType := by
  intro program meaning o
  have hmeaning : meaning.1 = .ok () ∧
      meaning.2.links.operations[1]? = some o := ⟨rfl, rfl⟩
  refine ⟨rfl, oneModel_conforms, oneModel_supplies, hmeaning.1,
    List.mem_of_getElem? hmeaning.2, fun hkeeps => ?_⟩
  obtain ⟨x, hx, -⟩ := (hkeeps.float rfl (by simp [o])).1 _ rfl
  cases hx

theorem halves_byType :
    let program := halvesChecked.program "halves" .text
    let sink : Sink := .text ⟨.plain, ""⟩
    let rendering := render unlinked program oneModel 0 sink ()
    halves.compile .bare sink.mode = .ok program ∧
      oneModel.Conforms CheckContext.bare.oracle IsPerson ∧
      oneModel.Supplies IsPerson 0 program.schema.params ∧
      rendering.ByType .text
        ((Shelf.bare .bare).meaning halves.template program.schema oneModel 0) ∧
      rendering.sink = .text ⟨.plain, "0"⟩ := by
  intro program sink rendering
  have hcompile : halves.compile .bare sink.mode = .ok program := rfl
  have hmodel : oneModel.Conforms CheckContext.bare.oracle IsPerson := oneModel_conforms
  have hroot : oneModel.Supplies IsPerson 0 program.schema.params := oneModel_supplies
  have hbyType := (arithmetic_by_type oneModel IsPerson 0 sink).2.2.2.1 halves .bare program
    hcompile hmodel hroot
  exact ⟨hcompile, hmodel, hroot, hbyType, rfl⟩

end Stencil
