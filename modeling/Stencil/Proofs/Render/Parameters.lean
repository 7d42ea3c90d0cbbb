import Stencil.Proofs.Render.Relates

/-!
How the root record of a model, or arguments, give the values of parameters.
-/

namespace Stencil

variable {ρ : Type}

-- What the `asked`-th request tells of a parameter.
def Parameter.read (p : Parameter) (model : Model ρ) (asked : Nat) (root : ρ) :
    Except RenderError (Value ρ) :=
  match model.field asked root p.name with
  | some v =>
    if v.conforms p.type then .ok (v.widen p.type)
    else .error (.typeMismatch p.name p.type.name v.kind)
  | none => p.defaultValue.map (·.widen p.type)

-- Reading parameters in order, when `n` requests were made before: which of them are asked for, and
-- what comes of it. Nothing is asked for after the first failure.
inductive Parameter.Reading (model : Model ρ) (root : ρ) :
    Nat → List Parameter → List Parameter → Except RenderError (List (Value ρ)) → Prop
  | nil {n : Nat} : Reading model root n [] [] (.ok [])
  | fails {n : Nat} {p : Parameter} {params : List Parameter} {err : RenderError}
      (first : p.read model n root = .error err) :
    Reading model root n (p :: params) [p] (.error err)
  | reads {n : Nat} {p : Parameter} {params asked : List Parameter} {v : Value ρ}
      {result : Except RenderError (List (Value ρ))} (first : p.read model n root = .ok v)
      (rest : Reading model root (n + 1) params asked result) :
    Reading model root n (p :: params) (p :: asked) (result.map (v :: ·))

theorem Parameter.Reading.length {model : Model ρ} {root : ρ} {n : Nat}
    {params asked : List Parameter} {result : Except RenderError (List (Value ρ))}
    (h : Reading model root n params asked result) {values : List (Value ρ)}
    (hvalues : result = .ok values) : values.length = params.length := by
  induction h generalizing values with
  | nil =>
      cases hvalues
      rfl
  | fails _ => cases hvalues
  | reads _ _ ih =>
      rename_i result _ _
      cases result with
      | error err => cases hvalues
      | ok rest =>
          cases hvalues
          simp [ih rfl]

theorem Model.run_askField (model : Model ρ) (root : ρ) (name : String)
    (requests : Array (Request ρ)) :
    (model.askField root name).run requests =
      (.ok (model.field requests.size root name), requests.push (.field root name)) := rfl

theorem readParams_cons (model : Model ρ) (root : ρ) (p : Parameter) (params : List Parameter)
    (requests : Array (Request ρ)) :
    (readParams model root (p :: params)).run requests =
      match p.read model requests.size root with
      | .error err => (.error err, requests.push (.field root p.name))
      | .ok v =>
        (((readParams model root params).run (requests.push (.field root p.name))).1.map (v :: ·),
          ((readParams model root params).run (requests.push (.field root p.name))).2) := by
  -- What is done with the value, once it is there.
  have hrest (v : Value ρ) (requests : Array (Request ρ)) :
      (do return v :: (← readParams model root params) : Eval ρ _).run requests =
        (((readParams model root params).run requests).1.map (v :: ·),
          ((readParams model root params).run requests).2) := by
    rw [run_bind]
    rcases (readParams model root params).run requests with ⟨_ | _, _⟩ <;> rfl
  rw [readParams, run_bind, Model.run_askField]
  simp only [Parameter.read]
  cases model.field requests.size root p.name with
  | some v =>
      by_cases hconforms : v.conforms p.type = true
      · simp only [hconforms, if_true, pure_bind]
        exact hrest _ _
      · simp only [hconforms]
        rfl
  | none =>
      simp only
      rw [run_bind]
      cases p.defaultValue with
      | ok v => exact hrest _ _
      | error err => rfl

theorem Parameter.reading_readParams (model : Model ρ) (root : ρ) (params : List Parameter)
    (requests : Array (Request ρ)) :
    ∃ asked, Reading model root requests.size params asked
        ((readParams model root params).run requests).1 ∧
      ((readParams model root params).run requests).2 =
        requests ++ (asked.map fun p => Request.field root p.name).toArray := by
  induction params generalizing requests with
  | nil => exact ⟨[], .nil, by simp [readParams]; rfl⟩
  | cons p params ih =>
      rw [readParams_cons]
      cases hread : p.read model requests.size root with
      | error err => exact ⟨[p], .fails hread, by simp⟩
      | ok v =>
          obtain ⟨asked, hreading, hrequests⟩ := ih (requests.push (.field root p.name))
          rw [Array.size_push] at hreading
          refine ⟨p :: asked, .reads hread hreading, ?_⟩
          simp only [hrequests]
          simp

-- A parameter that is missing, or has a value of another type, and the error for it.
inductive Parameter.Refused (p : Parameter) (model : Model ρ) (asked : Nat) (root : ρ) :
    RenderError → Prop
  | missing (absent : model.field asked root p.name = none) (required : p.default = none) :
    Refused p model asked root (.missingParameter p.name)
  | mistyped {v : Value ρ} (present : model.field asked root p.name = some v)
    (other : v.conforms p.type = false) :
    Refused p model asked root (.typeMismatch p.name p.type.name v.kind)

theorem Parameter.refused_iff {p : Parameter} {model : Model ρ} {asked : Nat} {root : ρ}
    {err : RenderError} :
    p.Refused model asked root err ↔ p.read model asked root = .error err := by
  unfold read
  constructor
  · rintro (⟨absent, required⟩ | ⟨present, other⟩)
    · simp [absent, defaultValue, required]
      rfl
    · simp [present, other]
  · intro h
    cases hfield : model.field asked root p.name with
    | none =>
        simp only [hfield] at h
        cases hdefault : p.default with
        | some c => simp [defaultValue, hdefault, Except.map] at h
        | none =>
            have herr := eq_error_of_map h
            simp only [defaultValue, hdefault] at herr
            obtain rfl := Except.error.inj herr
            exact .missing hfield hdefault
    | some v =>
        simp only [hfield] at h
        cases hconforms : v.conforms p.type with
        | true => simp [hconforms] at h
        | false =>
            simp only [hconforms] at h
            obtain rfl := Except.error.inj h
            exact .mistyped hfield hconforms

-- Reading parameters of which one is refused fails at the first such, and asks for no other.
theorem readParams_of_refused {model : Model ρ} {root : ρ} {params : List Parameter} {i : Nat}
    {p : Parameter} {err : RenderError} (requests : Array (Request ρ)) (hp : params[i]? = some p)
    (hrefused : p.Refused model (requests.size + i) root err) :
    ∃ j q err', j ≤ i ∧ params[j]? = some q ∧ q.Refused model (requests.size + j) root err' ∧
      (readParams model root params).run requests =
        (.error err', requests ++ ((params.take (j + 1)).map fun p =>
          Request.field root p.name).toArray) := by
  induction params generalizing requests i with
  | nil => cases hp
  | cons first params ih =>
      rw [readParams_cons]
      cases hread : first.read model requests.size root with
      | error err' =>
          exact ⟨0, first, err', Nat.zero_le i, rfl, Parameter.refused_iff.mpr hread, by simp⟩
      | ok v =>
          cases i with
          | zero =>
              obtain rfl := Option.some.inj hp
              rw [Nat.add_zero, Parameter.refused_iff, hread] at hrefused
              cases hrefused
          | succ i =>
              have hsize : requests.size + (i + 1) =
                  (requests.push (.field root first.name)).size + i := by
                rw [Array.size_push]
                omega
              rw [hsize] at hrefused
              obtain ⟨j, q, err', hj, hq, hrefused', hrun⟩ := ih _ hp hrefused
              rw [Array.size_push, Nat.add_assoc, Nat.add_comm 1 j] at hrefused'
              refine ⟨j + 1, q, err', Nat.succ_le_succ hj, hq, hrefused', ?_⟩
              simp only [hrun]
              simp [Except.map]

-- The value that an argument, or the lack of one, gives a parameter.
def Parameter.take (p : Parameter) : Option (Value ρ) → Except RenderError (Value ρ)
  | some v => .ok (v.widen p.type)
  | none => p.defaultValue.map (·.widen p.type)

theorem bindArgs_cons (p : Parameter) (params : List Parameter) (arg : Option (Value ρ))
    (args : List (Option (Value ρ))) :
    bindArgs (p :: params) (arg :: args) = do
      let v ← p.take arg
      let rest ← bindArgs params args
      return v :: rest := by
  cases arg with
  | some v => rfl
  | none =>
      simp only [bindArgs, Parameter.take]
      cases p.defaultValue (ρ := ρ) <;> rfl

theorem bindArgs_cons_eq_ok_iff {p : Parameter} {params : List Parameter} {arg : Option (Value ρ)}
    {args : List (Option (Value ρ))} {values : List (Value ρ)} :
    bindArgs (p :: params) (arg :: args) = .ok values ↔
      ∃ v rest, p.take arg = .ok v ∧ bindArgs params args = .ok rest ∧ values = v :: rest := by
  rw [bindArgs_cons]
  constructor
  · intro h
    cases hv : p.take arg with
    | error err =>
        rw [hv] at h
        cases h
    | ok v =>
        cases hrest : bindArgs params args with
        | error err =>
            rw [hv, hrest] at h
            cases h
        | ok rest =>
            rw [hv, hrest] at h
            exact ⟨v, rest, rfl, rfl, (Except.ok.inj h).symm⟩
  · rintro ⟨v, rest, hv, hrest, rfl⟩
    rw [hv, hrest]
    rfl

-- What arguments give the first parameter, and the others.
theorem bindArgs_cons_eq_ok {p : Parameter} {params : List Parameter} {arg : Option (Value ρ)}
    {args : List (Option (Value ρ))} {values : List (Value ρ)}
    (h : bindArgs (p :: params) (arg :: args) = .ok values) :
    ∃ (v : Value ρ) (rest : List (Value ρ)),
      bindArgs params args = .ok rest ∧ values = v.widen p.type :: rest := by
  obtain ⟨v, rest, hv, hrest, rfl⟩ := bindArgs_cons_eq_ok_iff.mp h
  cases arg with
  | some w =>
      cases hv
      exact ⟨w, rest, hrest, rfl⟩
  | none =>
      simp only [Parameter.take] at hv
      cases hdefault : p.defaultValue (ρ := ρ) with
      | error err =>
          rw [hdefault] at hv
          cases hv
      | ok w =>
          rw [hdefault] at hv
          cases hv
          exact ⟨w, rest, hrest, rfl⟩

theorem bindArgs_length {params : List Parameter} {args : List (Option (Value ρ))}
    {values : List (Value ρ)} (hargs : args.length = params.length)
    (h : bindArgs params args = .ok values) : values.length = params.length := by
  induction params generalizing args values with
  | nil =>
      cases h
      rfl
  | cons p params ih =>
      cases args with
      | nil => simp at hargs
      | cons arg args =>
          obtain ⟨v, rest, hbind, rfl⟩ := bindArgs_cons_eq_ok h
          simp [ih (by simpa using hargs) hbind]

end Stencil
