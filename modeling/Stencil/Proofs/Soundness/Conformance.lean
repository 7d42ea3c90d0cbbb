import Stencil.Proofs.Render.Parameters
import Stencil.Proofs.Typing.Elaboration
import Stencil.Proofs.Typing.Header

/-!
Values that fit a type all the way down, and models whose answers do.
-/

namespace Stencil

variable {ρ : Type}

-- `isA` tells of which type a record is. `null` fits every type, and an integer fits `float`.
inductive Value.Fits (isA : String → ρ → Prop) : Value ρ → Ty → Prop
  | null (type : Ty) : Fits isA .null type
  | bool (b : Bool) : Fits isA (.bool b) .bool
  | int (n : Int64) : Fits isA (.int n) .int
  | float (x : Float) : Fits isA (.float x) .float
  | intAsFloat (n : Int64) : Fits isA (.int n) .float
  | text (s : String) : Fits isA (.text s) .text
  | list {items : List (Value ρ)} {element : Ty} (items_fit : ∀ v ∈ items, Fits isA v element) :
    Fits isA (.list items) (.list element)
  | record {ref : ρ} {name : String} (is_a : isA name ref) :
    Fits isA (.record ref) (.record name)

-- A model keeps to the declared types: of a record it has every declared field, with a value that
-- fits, and a method called with arguments that fit gives such a value or fails with an error of
-- the model's own.
structure Model.Conforms (model : Model ρ) (oracle : Oracle) (isA : String → ρ → Prop) : Prop where
  field : ∀ {owner name type ref}, oracle.member owner name = some (.field type) → isA owner ref →
    ∀ n, ∃ v, model.field n ref name = some v ∧ v.Fits isA type
  call : ∀ {owner name params returns ref args},
    oracle.member owner name = some (.method params returns) → isA owner ref →
    List.Forall₂ (Value.Fits isA) args params →
    ∀ n, (∃ v, model.call n ref name args = .ok v ∧ v.Fits isA returns) ∨
      ∃ message, model.call n ref name args = .error (.model message)

-- The root record of a model has a value for each parameter without a default, and all values that
-- it has for parameters fit.
structure Model.Supplies (model : Model ρ) (isA : String → ρ → Prop) (root : ρ)
    (params : List Parameter) : Prop where
  fits : ∀ p ∈ params, ∀ n v, model.field n root p.name = some v → v.Fits isA p.type
  present : ∀ p ∈ params, p.default = none → ∀ n, (model.field n root p.name).isSome = true

namespace Value

variable {isA : String → ρ → Prop} {v : Value ρ} {a b : Ty}

theorem Fits.of_accepts (h : v.Fits isA b) (hab : a.accepts b = true) : v.Fits isA a := by
  induction h generalizing a with
  | null => exact .null a
  | list _ ih =>
      obtain h | rfl | ⟨-, h⟩ | ⟨c, d, rfl, hd, hcd⟩ := Ty.accepts_iff.mp hab
      · cases h
      · exact .list ‹_›
      · cases h
      · obtain rfl := Ty.list.inj hd
        exact .list fun w hw => ih w hw hcd
  | int n =>
      obtain h | rfl | ⟨rfl, -⟩ | ⟨_, _, -, h, -⟩ := Ty.accepts_iff.mp hab
      · cases h
      · exact .int n
      · exact .intAsFloat n
      · cases h
  | _ =>
      obtain h | rfl | ⟨-, h⟩ | ⟨_, _, -, h, -⟩ := Ty.accepts_iff.mp hab
      · cases h
      · constructor <;> assumption
      · cases h
      · cases h

-- What fits passes the shallow check of parameters.
theorem Fits.conforms (h : v.Fits isA a) : v.conforms a = true := by
  cases h <;> rfl

theorem Fits.widen (h : v.Fits isA a) : (v.widen a).Fits isA a := by
  cases h with
  | intAsFloat n => exact .float _
  | null => cases a <;> exact .null _
  | bool b => exact .bool b
  | int n => exact .int n
  | float x => exact .float x
  | text s => exact .text s
  | list items => exact .list items
  | record is_a => exact .record is_a

theorem fits_literal (l : Literal) : (l.value : Value ρ).Fits isA l.type := by
  cases l <;> constructor

mutual

theorem fits_constant {isA : String → ρ → Prop} : ∀ {c : Constant} {type : Ty},
    c.type? = some type → (c.value : Value ρ).Fits isA type
  | .literal l, _, h => by
      obtain rfl := Option.some.inj h
      exact fits_literal l
  | .list items, _, h => by
      obtain ⟨element, helement, rfl⟩ := Option.map_eq_some_iff.mp h
      exact .list (fits_constants helement).2

theorem fits_constants {isA : String → ρ → Prop} : ∀ {cs : List Constant} {t element : Ty},
    Constant.elementType? t cs = some element →
    element.accepts t = true ∧ ∀ v ∈ Constant.values cs, (v : Value ρ).Fits isA element
  | [], _, _, h => by
      obtain rfl := Option.some.inj h
      exact ⟨Ty.accepts_refl _, fun v hv => nomatch hv⟩
  | c :: cs, _, _, h => by
      simp only [Constant.elementType?] at h
      obtain ⟨u, hu, h⟩ := Option.bind_eq_some_iff.mp h
      obtain ⟨w, hw, h⟩ := Option.bind_eq_some_iff.mp h
      obtain ⟨hrest, hvalues⟩ := fits_constants h
      obtain ⟨ht, hc⟩ := Ty.accepts_of_unify hw
      refine ⟨Ty.accepts_trans hrest ht, fun v hv => ?_⟩
      obtain rfl | hv := List.mem_cons.mp hv
      · exact ((fits_constant hu).of_accepts hc).of_accepts hrest
      · exact hvalues v hv

end

end Value

-- The values of parameters.
def Schema.Fit (isA : String → ρ → Prop) (values : List (Value ρ)) (params : List Parameter) :
    Prop :=
  List.Forall₂ (fun v p => v.Fits isA p.type) values params

-- Arguments in the order of parameters. One may be missing where there is a default.
def Argument.Fit (isA : String → ρ → Prop) (args : List (Option (Value ρ)))
    (params : List Parameter) : Prop :=
  List.Forall₂ (fun arg p => arg.elim (p.default.isSome = true) (·.Fits isA p.type)) args params

variable {isA : String → ρ → Prop}

theorem Parameter.fits_default {p : Parameter} (hp : p.DefaultFits) {c : Constant}
    (hc : p.default = some c) : (c.value : Value ρ).Fits isA p.type := by
  obtain ⟨type, htype, haccepts⟩ := hp c hc
  exact (Value.fits_constant htype).of_accepts haccepts

-- Arguments that fit give values that fit.
theorem bindArgs_fit {params : List Parameter} {args : List (Option (Value ρ))}
    (hdefaults : ∀ p ∈ params, p.DefaultFits) (hargs : Argument.Fit isA args params) :
    ∃ values, bindArgs params args = .ok values ∧ Schema.Fit isA values params := by
  induction hargs with
  | nil => exact ⟨[], rfl, .nil⟩
  | @cons arg p args params harg _ ih =>
      obtain ⟨values, hvalues, hfit⟩ := ih fun q hq => hdefaults q (by simp [hq])
      cases arg with
      | some v =>
          refine ⟨v.widen p.type :: values, ?_, .cons (Value.Fits.widen harg) hfit⟩
          simp only [bindArgs, hvalues]
          rfl
      | none =>
          obtain ⟨c, hc⟩ := Option.isSome_iff_exists.mp harg
          have hfits : (c.value : Value ρ).Fits isA p.type :=
            Parameter.fits_default (hdefaults p (by simp)) hc
          refine ⟨(c.value : Value ρ).widen p.type :: values, ?_, .cons hfits.widen hfit⟩
          simp only [bindArgs, Parameter.defaultValue, hc, hvalues]
          rfl

-- A value that the model has fits where the model's own does. Without one, there is the default, or
-- nothing.
theorem Parameter.read_fits_or_missing {model : Model ρ} {root : ρ} {p : Parameter}
    (hp : p.DefaultFits) {n : Nat}
    (hfits : ∀ v, model.field n root p.name = some v → v.Fits isA p.type) :
    (∃ v, p.read model n root = .ok v ∧ v.Fits isA p.type) ∨
      p.read model n root = .error (.missingParameter p.name) ∧
        p.default = none ∧ model.field n root p.name = none := by
  unfold Parameter.read
  cases hfield : model.field n root p.name with
  | some v =>
      have hv := hfits v hfield
      exact .inl ⟨v.widen p.type, by simp [hv.conforms], hv.widen⟩
  | none =>
      cases hdefault : p.default with
      | none => exact .inr ⟨by simp [Parameter.defaultValue, hdefault, Except.map], rfl, rfl⟩
      | some c =>
          have hc : (c.value : Value ρ).Fits isA p.type := Parameter.fits_default hp hdefault
          refine .inl ⟨(c.value : Value ρ).widen p.type, ?_, hc.widen⟩
          simp [Parameter.defaultValue, hdefault, Except.map]

-- A model that supplies the parameters gives values that fit.
theorem Parameter.read_fits {model : Model ρ} {root : ρ} {p : Parameter} (hp : p.DefaultFits)
    {params : List Parameter} (h : model.Supplies isA root params) (hmem : p ∈ params) (n : Nat) :
    ∃ v, p.read model n root = .ok v ∧ v.Fits isA p.type := by
  obtain hv | ⟨-, hdefault, hfield⟩ := Parameter.read_fits_or_missing hp (h.fits p hmem n)
  · exact hv
  · have hpresent := h.present p hmem hdefault n
    simp [hfield] at hpresent

theorem readParams_fit {model : Model ρ} {root : ρ} {params : List Parameter}
    (hdefaults : ∀ p ∈ params, p.DefaultFits) (h : model.Supplies isA root params)
    (requests : Array (Request ρ)) :
    ∃ values, ((readParams model root params).run requests).1 = .ok values ∧
      Schema.Fit isA values params := by
  induction params generalizing requests with
  | nil => exact ⟨[], rfl, .nil⟩
  | cons p params ih =>
      have hrest : model.Supplies isA root params :=
        ⟨fun q hq => h.fits q (by simp [hq]), fun q hq => h.present q (by simp [hq])⟩
      obtain ⟨v, hv, hfits⟩ := p.read_fits (hdefaults p (by simp)) h (by simp) requests.size
      obtain ⟨values, hvalues, hfit⟩ := ih (fun q hq => hdefaults q (by simp [hq])) hrest
        (requests.push (.field root p.name))
      refine ⟨v :: values, ?_, .cons hfits hfit⟩
      simp only [readParams_cons, hv, hvalues]
      rfl

end Stencil
