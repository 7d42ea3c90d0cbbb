import Mathlib.Data.List.Forall2
import Mathlib.Data.Option.Basic
import Stencil.Proofs.Render.Mirror
import Stencil.Proofs.Typing.Arguments

/-!
An inclusion is a render. What its arguments do is what the root record of a model would do whose
fields are the arguments.
-/

namespace Stencil

open Run

variable {ρ κ ω : Type}

mutual

-- Takes the other names from the records of a value, if all of them have one.
def Value.unname? : Value (Option ρ) → Option (Value ρ)
  | .null => some .null
  | .bool b => some (.bool b)
  | .int n => some (.int n)
  | .float x => some (.float x)
  | .text s => some (.text s)
  | .list items => (Value.unnameAll? items).map .list
  | .record ref => ref.map .record

def Value.unnameAll? : List (Value (Option ρ)) → Option (List (Value ρ))
  | [] => some []
  | v :: vs => do return (← v.unname?) :: (← Value.unnameAll? vs)

end

mutual

theorem Value.unname?_rename : ∀ v : Value ρ, (v.rename some).unname? = some v
  | .list items => by
      simp [Value.unname?, Value.unnameAll?_rename items]
  | .null | .bool _ | .int _ | .float _ | .text _ | .record _ => rfl

theorem Value.unnameAll?_rename : ∀ vs : List (Value ρ),
    Value.unnameAll? (vs.map (Value.rename some)) = some vs
  | [] => rfl
  | v :: vs => by
      simp [Value.unnameAll?, Value.unname?_rename v, Value.unnameAll?_rename vs]

end

-- The argument for the parameter of a name.
def Parameter.argument? : List Parameter → List (Option (Value ρ)) → String → Option (Value ρ)
  | p :: params, arg :: args, name =>
    if p.name = name then arg else Parameter.argument? params args name
  | _, _, _ => none

-- The model of an inclusion: its root record, which has no other name, has just the arguments as
-- fields. All other records are those of the including render. `asked` requests were made before,
-- and the first ones of the inclusion are for its parameters.
def Model.supplying (model : Model ρ) (asked : Nat) (schema : Schema)
    (args : List (Option (Value ρ))) : Model (Option ρ) where
  field n ref name :=
    match ref with
    | none => (Parameter.argument? schema.params args name).map (Value.rename some)
    | some ref => (model.field (asked + (n - schema.size)) ref name).map (Value.rename some)
  call n ref name values :=
    match ref, Value.unnameAll? values with
    | some ref, some values =>
      (model.call (asked + (n - schema.size)) ref name values).map (Value.rename some)
    | _, _ => .error (.unknownMethod name)

theorem Model.mirrors_supplying (model : Model ρ) (asked : Nat) (schema : Schema)
    (args : List (Option (Value ρ))) :
    model.Mirrors some asked schema.size (model.supplying asked schema args) where
  field n ref name := by
    simp [supplying]
  call n ref name values := by
    simp [supplying, Value.unnameAll?_rename]

-- What a parameter is bound to: its argument, or its default if there is none.
def Parameter.bound (p : Parameter) (arg : Option (Value ρ)) : Option (Value ρ) :=
  (arg.or (p.default.map Constant.value)).map (Value.widen · p.type)

-- Each parameter has an argument or a default.
def Parameter.Complete {α : Type} (params : List Parameter) (args : List (Option α)) : Prop :=
  List.Forall₂ (fun p arg => arg = none → p.default.isSome = true) params args

-- The arguments fit their parameters.
def Parameter.Conform (params : List Parameter) (args : List (Option (Value ρ))) : Prop :=
  ∀ x ∈ params.zip args, ∀ v ∈ x.2, v.conforms x.1.type = true

instance (params : List Parameter) (args : List (Option (Value ρ))) :
    Decidable (Parameter.Conform params args) :=
  inferInstanceAs (Decidable (∀ x ∈ params.zip args, ∀ v ∈ x.2, v.conforms x.1.type = true))

theorem Parameter.take_of_complete {p : Parameter} {arg : Option (Value ρ)}
    (h : arg = none → p.default.isSome = true) :
    ∃ v, p.take arg = .ok v ∧ p.bound arg = some v := by
  cases arg with
  | some v => exact ⟨v.widen p.type, rfl, rfl⟩
  | none =>
      obtain ⟨c, hc⟩ := Option.isSome_iff_exists.mp (h rfl)
      refine ⟨c.value.widen p.type, ?_, by simp [bound, hc]⟩
      simp only [take, defaultValue, hc]
      rfl

-- Where nothing is missing, every parameter is bound.
theorem Parameter.Complete.bindArgs {params : List Parameter} {args : List (Option (Value ρ))}
    (h : Parameter.Complete params args) :
    ∃ values, Stencil.bindArgs params args = .ok values ∧
      List.zipWith Parameter.bound params args = values.map some := by
  induction h with
  | nil => exact ⟨[], rfl, rfl⟩
  | cons hfirst _ ih =>
      obtain ⟨values, hbind, hbound⟩ := ih
      obtain ⟨v, htake, hv⟩ := Parameter.take_of_complete hfirst
      refine ⟨v :: values, bindArgs_cons_eq_ok_iff.mpr ⟨v, values, htake, hbind, rfl⟩, ?_⟩
      simp [hbound, hv]

-- Reading a parameter from a field that conforms takes it as an argument.
theorem Parameter.read_eq_take {model : Model ρ} {root : ρ} {p : Parameter}
    {arg : Option (Value ρ)} {n : Nat} (hfield : model.field n root p.name = arg)
    (hconform : ∀ v ∈ arg, v.conforms p.type = true) :
    p.read model n root = p.take arg := by
  unfold read
  rw [hfield]
  cases arg with
  | none => rfl
  | some v =>
      dsimp only
      rw [if_pos (hconform v rfl)]
      rfl

-- So a record whose fields are the arguments gives what the arguments give.
theorem readParams_of_bindArgs {model : Model ρ} {root : ρ} {params : List Parameter}
    {args : List (Option (Value ρ))} {values : List (Value ρ)}
    (hfields : List.Forall₂ (fun p arg => ∀ n, model.field n root p.name = arg) params args)
    (hconform : Parameter.Conform params args) (hbind : bindArgs params args = .ok values)
    (requests : Array (Request ρ)) :
    (readParams model root params).run requests =
      (.ok values, requests ++ (params.map fun p => Request.field root p.name).toArray) := by
  induction hfields generalizing values requests with
  | nil =>
      cases hbind
      simp [readParams]
      rfl
  | cons hfield _ ih =>
      obtain ⟨hfirst, hconform⟩ := List.forall_mem_cons.mp hconform
      obtain ⟨v, rest, htake, hrest, rfl⟩ := bindArgs_cons_eq_ok_iff.mp hbind
      rw [readParams_cons, Parameter.read_eq_take (hfield _) hfirst, htake]
      simp only [ih hconform hrest, Except.map]
      simp

-- With names that are distinct, each argument is found under the name of its parameter.
theorem Parameter.argument?_of_distinct {params : List Parameter} {args : List (Option (Value ρ))}
    (hlength : params.length = args.length) (hnames : (params.map (·.name)).Nodup) :
    List.Forall₂ (fun p arg => argument? params args p.name = arg) params args := by
  induction params generalizing args with
  | nil =>
      obtain rfl := List.length_eq_zero_iff.mp hlength.symm
      exact .nil
  | cons p params ih =>
      cases args with
      | nil => simp at hlength
      | cons arg args =>
          obtain ⟨hfresh, hnames⟩ := List.nodup_cons.mp hnames
          refine .cons (by simp [argument?]) ?_
          have hrest := ih (by simpa using hlength) hnames
          have hother : ∀ q ∈ params, p.name ≠ q.name := by
            intro q hq hname
            exact hfresh (List.mem_map.mpr ⟨q, hq, hname.symm⟩)
          refine ((List.forall₂_and_left params args).mpr ⟨hother, hrest⟩).imp ?_
          rintro q arg' ⟨hne, hfound⟩
          rw [argument?, if_neg hne, hfound]

theorem Parameter.fields_supplying (model : Model ρ) (asked : Nat) {schema : Schema}
    {args : List (Option (Value ρ))} (hlength : schema.params.length = args.length)
    (hnames : (schema.params.map (·.name)).Nodup) :
    List.Forall₂
      (fun p arg => ∀ n, (model.supplying asked schema args).field n none p.name = arg)
      schema.params (renameGiven some args) := by
  refine List.forall₂_map_right_iff.mpr ?_
  refine (argument?_of_distinct hlength hnames).imp fun p arg hfound n => ?_
  simp only [Model.supplying, hfound]

theorem Parameter.Conform.renameGiven {params : List Parameter} {args : List (Option (Value ρ))}
    (h : Parameter.Conform params args) :
    Parameter.Conform params (Stencil.renameGiven some args) := by
  rw [Parameter.Conform, Stencil.renameGiven, List.zip_map_right, List.forall_mem_map]
  intro x hx v hv
  obtain ⟨w, hw, rfl⟩ := Option.map_eq_some_iff.mp hv
  simpa using h x hx w hw

-- The requests for parameters of a record.
def Schema.reads (schema : Schema) (root : ρ) : Array (Request ρ) :=
  (schema.params.map fun p => Request.field root p.name).toArray

theorem readParams_supplying (model : Model ρ) (asked : Nat) {schema : Schema}
    {args : List (Option (Value ρ))} {values : List (Value ρ)}
    (hlength : schema.params.length = args.length)
    (hnames : (schema.params.map (·.name)).Nodup)
    (hconform : Parameter.Conform schema.params args)
    (hbind : bindArgs schema.params args = .ok values) :
    (readParams (model.supplying asked schema args) none schema.params).run #[] =
      (.ok (values.map (Value.rename some)), schema.reads none) := by
  have hrenamed : bindArgs schema.params (renameGiven some args) =
      .ok (values.map (Value.rename some)) := by
    rw [bindArgs_rename, hbind]
    rfl
  have hrun := readParams_of_bindArgs (Parameter.fields_supplying model asked hlength hnames)
    hconform.renameGiven hrenamed #[]
  simpa [Schema.reads] using hrun

variable [DecidableEq ρ]

-- Renders a program with parameters from the root record of a model, when `depth` more inclusions
-- may be entered, one inside the other.
def Linker.runWithin (linker : Linker κ ω) (depth : Nat) (self : κ) (model : Model ρ) (root : ρ) :
    Run ρ ω Unit := do
  let values ← Run.ofEval (readParams model root (linker.program self).schema.params)
  (linker.program self).run model (linker.opener model depth self) values

theorem Linker.run_eq_runWithin (linker : Linker κ ω) (self : κ) (model : Model ρ) (root : ρ) :
    linker.run self model root = linker.runWithin maxInclusionDepth self model root := rfl

-- What was done from `e` on, as a render of its own does it that first reads its parameters.
structure Effects.Extends (e x : Effects ρ ω) (schema : Schema) (inner : Effects (Option ρ) ω) :
    Prop where
  pieces : x.pieces = e.pieces ++ inner.pieces
  requests : ∃ later, x.requests = e.requests ++ later ∧
    inner.requests = schema.reads none ++ later.map (Request.rename some)
  links : x.links = inner.links

-- A program run with the values that arguments give is rendered from the model that has these as
-- fields: it ends alike, emits the same, makes the same requests of other records, and leaves the
-- same links.
theorem Linker.run_of_supplying (linker : Linker κ ω) (depth : Nat) (self : κ) (model : Model ρ)
    {schema : Schema} (hschema : (linker.program self).schema = schema)
    {args : List (Option (Value ρ))} {values : List (Value ρ)}
    (hlength : schema.params.length = args.length) (hnames : (schema.params.map (·.name)).Nodup)
    (hconform : Parameter.Conform schema.params args)
    (hbind : bindArgs schema.params args = .ok values) (e : Effects ρ ω) :
    let x := exec ((linker.program self).run model (linker.opener model depth self) values) e
    let inner := exec (linker.runWithin depth self
      (model.supplying e.requests.size schema args) none) ⟨#[], #[], e.links⟩
    x.1 = inner.1 ∧ e.Extends x.2 schema inner.2 := by
  intro x inner
  subst hschema
  let schema := (linker.program self).schema
  let supplied := model.supplying e.requests.size schema args
  -- The render once its parameters are read.
  let begun : Effects (Option ρ) ω := ⟨schema.reads none, #[], e.links⟩
  have hinner : inner = exec ((linker.program self).run supplied
      (linker.opener supplied depth self) (values.map (Value.rename some))) begun := by
    change exec (Run.ofEval (readParams supplied none schema.params) >>= fun values =>
      (linker.program self).run supplied (linker.opener supplied depth self) values) _ = _
    rw [exec_bind, exec_ofEval,
      readParams_supplying model e.requests.size hlength hnames hconform hbind]
  have hsize : begun.requests.size = schema.size := by
    simp [begun, Schema.reads, Schema.size]
  have hmodel : model.Mirrors some e.requests.size begun.requests.size supplied := by
    rw [hsize]
    exact model.mirrors_supplying e.requests.size schema args
  have hsome : Function.Injective (some : ρ → Option ρ) := Option.some_injective ρ
  have hrun := Program.mirrors_run hsome hmodel
    (Linker.mirrors_opener hsome hmodel linker depth self) (linker.program self) values
  obtain ⟨houtcome, heffects⟩ := hrun.exec_eq (.begin rfl)
  rw [← hinner] at houtcome heffects
  obtain ⟨later, hpieces, hpieces'⟩ := heffects.pieces
  refine ⟨houtcome, ?_, heffects.requests, heffects.links⟩
  rw [hpieces, hpieces']
  simp [begun]

-- An inclusion whose target is found evaluates its arguments and runs the target with what they
-- give. Only errors from inside the target are marked, and the frame is left as it is.
theorem Linker.exec_inclusion (linker : Linker κ ω) (depth : Nat) {self callee : κ} {site : Nat}
    {target : String} {e : Effects ρ ω} {links : ω}
    (hlink : linker.link self site target e.links = (.ok callee, links)) (model : Model ρ)
    (frame : Frame ρ) (code : List (Option Formula)) :
    exec ((Op.inclusion site target code).run model (linker.opener model (depth + 1) self) frame)
        e =
      match (Formula.evalGiven model frame code).run e.requests with
      | (.error err, requests) => (.error err, ⟨requests, e.pieces, links⟩)
      | (.ok args, requests) =>
        match bindArgs (linker.program callee).schema.params args with
        | .error err => (.error (.inside target err), ⟨requests, e.pieces, links⟩)
        | .ok values =>
          let x := exec ((linker.program callee).run model (linker.opener model depth callee) values)
            ⟨requests, e.pieces, links⟩
          ((x.1.mapError (.inside target)).map fun _ => frame, x.2) := by
  simp only [Op.run, Run.inclusion, Linker.opener, exec_bind, exec_ofLink, hlink, exec_pure,
    exec_ofEval]
  generalize (Formula.evalGiven model frame code).run e.requests = given
  obtain ⟨_ | args, requests⟩ := given
  · rfl
  · simp only [exec_adapt, exec_bind, exec_given]
    cases bindArgs (linker.program callee).schema.params args with
    | error err => rfl
    | ok values =>
        dsimp only
        generalize exec _ _ = ran
        obtain ⟨_ | _, _⟩ := ran <;> rfl

end Stencil
