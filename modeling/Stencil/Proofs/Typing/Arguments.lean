import Stencil.Proofs.Typing.Elaboration

/-!
Which argument of an inclusion fills which parameter of its target. A plan that is made without
complaint follows these rules.
-/

namespace Stencil

-- The position of the parameter that an argument is meant for. `index` arguments come before it.
def Argument.position? (schema : Schema) (index : Nat) (arg : Argument) : Option Nat :=
  arg.name.elim (some index) fun name => (schema.get? name).map (·.1)

-- The argument for the parameter at position `i`, among arguments that `index` others precede.
def Argument.for? (schema : Schema) (i : Nat) : Nat → List Argument → Option Argument
  | _, [] => none
  | index, arg :: args =>
    if arg.position? schema index = some i then some arg
    else Argument.for? schema i (index + 1) args

-- The terms that fill the parameters from position `i` on. Where there is none, there is a default.
inductive Argument.Fill (oracle : Oracle) (scope : Scope) (schema : Schema)
    (args : List Argument) : Nat → List Parameter → List (Option Term) → Prop
  | nil {i : Nat} : Fill oracle scope schema args i [] []
  | omitted {i : Nat} {param : Parameter} {params : List Parameter} {ts : List (Option Term)}
      (absent : Argument.for? schema i 0 args = none) (default : param.default.isSome = true)
      (rest : Fill oracle scope schema args (i + 1) params ts) :
    Fill oracle scope schema args i (param :: params) (none :: ts)
  | given {i : Nat} {param : Parameter} {params : List Parameter} {ts : List (Option Term)}
      {arg : Argument} {t : Term} (found : Argument.for? schema i 0 args = some arg)
      (elaborates : arg.value.Elaborates oracle scope t)
      (accepts : param.type.accepts t.type = true)
      (rest : Fill oracle scope schema args (i + 1) params ts) :
    Fill oracle scope schema args i (param :: params) (some t :: ts)

theorem Schema.getElem?_of_get? {schema : Schema} {name : String} {i : Nat} {param : Parameter}
    (h : schema.get? name = some (i, param)) : schema.params[i]? = some param := by
  obtain ⟨j, _, h⟩ := Option.bind_eq_some_iff.mp h
  obtain ⟨q, hq, h⟩ := Option.bind_eq_some_iff.mp h
  obtain ⟨rfl, rfl⟩ : j = i ∧ q = param := by simpa using h
  exact hq

namespace Plan

-- The arguments of an inclusion, each with what checking it gave.
def Sound (oracle : Oracle) (scope : Scope) (args : List (Argument × Option Term)) : Prop :=
  ∀ arg ∈ args, arg.1.value.check oracle scope = pure arg.2

theorem set_of_give {plan plan' : Plan} {index : Nat} {param : Parameter} {span : Span}
    {term : Option Term} (h : plan.give index param span term = pure plan') :
    (∀ given, plan[index]? ≠ some (some given)) ∧ plan' = plan.set index (some term) ∧
      ∀ t, term = some t → param.type.accepts t.type = true := by
  unfold give at h
  split at h
  · obtain ⟨_, hcomplain, _⟩ := Check.bind_eq_pure.mp h
    simp at hcomplain
  · next hfree =>
    cases term with
    | none =>
      simp only [Check.pure_eq_pure] at h
      exact ⟨hfree, h.symm, by simp⟩
    | some t =>
      simp only at h
      split at h
      · obtain ⟨_, hcomplain, _⟩ := Check.bind_eq_pure.mp h
        simp at hcomplain
      · next haccepts =>
        simp only [Check.pure_eq_pure] at h
        refine ⟨hfree, h.symm, fun u hu => ?_⟩
        obtain rfl := Option.some.inj hu
        simpa using haccepts

-- One step: an argument goes to the parameter that it is meant for.
theorem give_of_giveEach {target : String} {schema : Schema} {count index : Nat} {named : Bool}
    {plan plan' : Plan} {arg : Argument} {term : Option Term}
    {rest : List (Argument × Option Term)}
    (h : giveEach target schema count index named plan ((arg, term) :: rest) = pure plan') :
    ∃ i param named', arg.position? schema index = some i ∧ schema.params[i]? = some param ∧
      (∀ given, plan[i]? ≠ some (some given)) ∧
      (∀ t, term = some t → param.type.accepts t.type = true) ∧
      giveEach target schema count (index + 1) named' (plan.set i (some term)) rest =
        pure plan' := by
  simp only [giveEach] at h
  split at h
  · next hname =>
    split at h
    · obtain ⟨_, hcomplain, _⟩ := Check.bind_eq_pure.mp h
      simp at hcomplain
    · split at h
      · obtain ⟨_, hcomplain, _⟩ := Check.bind_eq_pure.mp h
        simp at hcomplain
      · next param hparam =>
        obtain ⟨_, hgive, h⟩ := Check.bind_eq_pure.mp h
        obtain ⟨hfree, rfl, haccepts⟩ := set_of_give hgive
        exact ⟨index, param, _, by simp [Argument.position?, hname], hparam, hfree, haccepts, h⟩
  · next name hname =>
    split at h
    · obtain ⟨_, hcomplain, _⟩ := Check.bind_eq_pure.mp h
      simp at hcomplain
    · next i param hget =>
      obtain ⟨_, hgive, h⟩ := Check.bind_eq_pure.mp h
      obtain ⟨hfree, rfl, haccepts⟩ := set_of_give hgive
      exact ⟨i, param, _, by simp [Argument.position?, hname, hget],
        Schema.getElem?_of_get? hget, hfree, haccepts, h⟩

-- What a plan holds for a parameter, against the argument that is meant for it.
def Holds (oracle : Oracle) (scope : Scope) (param : Parameter) :
    Option Argument → Option (Option Term) → Prop
  | none, entry => entry = none
  | some arg, entry => ∃ term, entry = some term ∧ arg.value.check oracle scope = pure term ∧
      ∀ t, term = some t → param.type.accepts t.type = true

-- The induction is on the arguments. A position that was filled before stays as it is, since a
-- second argument for it would be complained of.
theorem holds_of_giveEach {oracle : Oracle} {scope : Scope} {target : String} {schema : Schema}
    {count index : Nat} {named : Bool} {plan plan' : Plan} {args : List (Argument × Option Term)}
    (hargs : Sound oracle scope args)
    (h : giveEach target schema count index named plan args = pure plan') :
    plan'.length = plan.length ∧
      (∀ (i : Nat) given, plan[i]? = some (some given) → plan'[i]? = some (some given)) ∧
      ∀ (i : Nat) param, schema.params[i]? = some param → plan[i]? = some none →
        ∃ entry, plan'[i]? = some entry ∧
          Holds oracle scope param (Argument.for? schema i index (args.map (·.1))) entry := by
  induction args generalizing index named plan with
  | nil =>
    obtain rfl : plan = plan' := by simpa [giveEach] using h
    exact ⟨rfl, fun _ _ h => h, fun _ _ _ h => ⟨none, h, rfl⟩⟩
  | cons first rest ih =>
    obtain ⟨arg, term⟩ := first
    obtain ⟨i, param, named', hposition, hparam, hfree, haccepts, hrest⟩ := give_of_giveEach h
    obtain ⟨hlength, hkept, hholds⟩ := ih (fun a ha => hargs a (List.mem_cons_of_mem _ ha)) hrest
    refine ⟨by simpa using hlength, fun j given hj => ?_, fun j other hother hj => ?_⟩
    · have hne : i ≠ j := by
        rintro rfl
        exact hfree given hj
      exact hkept j given (by simpa [List.getElem?_set_ne hne] using hj)
    · by_cases hij : i = j
      · subst hij
        obtain rfl : param = other := by simpa [hparam] using hother
        have hlt : i < plan.length := (List.getElem?_eq_some_iff.mp hj).1
        have hentry := hkept i term (by simp [List.getElem?_set_self hlt])
        refine ⟨some term, hentry, ?_⟩
        simp only [List.map_cons, Argument.for?, hposition, if_true]
        exact ⟨term, rfl, hargs (arg, term) (by simp), haccepts⟩
      · have hne : arg.position? schema index ≠ some j := by simpa [hposition] using hij
        simpa [Argument.for?, hne] using
          hholds j other hother (by simpa [List.getElem?_set_ne hij] using hj)

theorem default_of_requireAll {target : String} {span : Span} {param : Parameter}
    {params : List Parameter} {given : Option (Option Term)} {plan : Plan}
    (h : requireAll target span (param :: params) (given :: plan) = pure ()) :
    (given = none → param.default.isSome = true) ∧
      requireAll target span params plan = pure () := by
  simp only [requireAll] at h
  split at h
  · obtain ⟨_, hcomplain, _⟩ := Check.bind_eq_pure.mp h
    simp at hcomplain
  · next hrequired =>
    refine ⟨?_, h⟩
    rintro rfl
    simpa [Option.isSome_iff_ne_none] using hrequired

-- The term that a plan holds for a parameter, if there was no mistake in it.
def filled? : Option (Option Term) → Option (Option Term)
  | none => some none
  | some arg => arg.map some

theorem fill_of_holds {oracle : Oracle} {scope : Scope} {target : String} {span : Span}
    {schema : Schema} {args : List Argument} {i : Nat} {params : List Parameter} {plan : Plan}
    {ts : List (Option Term)} (hlength : plan.length = params.length)
    (hholds : ∀ (j : Nat) param, params[j]? = some param → ∃ entry, plan[j]? = some entry ∧
      Holds oracle scope param (Argument.for? schema (i + j) 0 args) entry)
    (hrequired : requireAll target span params plan = pure ())
    (hts : plan.mapM filled? = some ts) : Argument.Fill oracle scope schema args i params ts := by
  induction params generalizing i plan ts with
  | nil =>
    obtain rfl := List.length_eq_zero_iff.mp hlength
    obtain rfl : [] = ts := by simpa using hts
    exact .nil
  | cons param params ih =>
    cases plan with
    | nil => simp at hlength
    | cons entry plan =>
      obtain ⟨hdefault, hrequired⟩ := default_of_requireAll hrequired
      rw [List.mapM_cons] at hts
      obtain ⟨t, ht, hts⟩ := Option.bind_eq_some_iff.mp hts
      obtain ⟨us, hus, hts⟩ := Option.bind_eq_some_iff.mp hts
      obtain rfl : t :: us = ts := Option.some.inj hts
      have hrest : Argument.Fill oracle scope schema args (i + 1) params us := by
        refine ih (by simpa using hlength) (fun j other hother => ?_) hrequired hus
        simpa [Nat.add_assoc, Nat.add_comm 1 j] using hholds (j + 1) other (by simpa using hother)
      obtain ⟨given, hgiven, hfirst⟩ := hholds 0 param rfl
      obtain rfl : entry = given := by simpa using hgiven
      cases hfor : Argument.for? schema i 0 args with
      | none =>
        obtain rfl : entry = none := by simpa [hfor, Holds] using hfirst
        obtain rfl : none = t := by simpa [filled?] using ht
        exact .omitted hfor (hdefault rfl) hrest
      | some arg =>
        obtain ⟨term, rfl, hcheck, haccepts⟩ : ∃ term, entry = some term ∧
            arg.value.check oracle scope = pure term ∧
            ∀ t, term = some t → param.type.accepts t.type = true := by
          simpa [hfor, Holds] using hfirst
        obtain ⟨t, rfl, rfl⟩ := Option.map_eq_some_iff.mp ht
        exact .given hfor (Expr.elaborates_of_check _ hcheck) (haccepts t rfl) hrest

end Plan

-- The arguments of an inclusion that passes fill the parameters of its target.
theorem Argument.fill_of_checkInclusion {oracle : Oracle} {scope : Scope} {target : String}
    {schema : Schema} {span : Span} {args : List (Argument × Option Term)}
    {ts : List (Option Term)} (hargs : Plan.Sound oracle scope args)
    (h : checkInclusion target schema span args = pure (some ts)) :
    Fill oracle scope schema (args.map (·.1)) 0 schema.params ts := by
  obtain ⟨plan, hplan, h⟩ := Check.bind_eq_pure.mp h
  obtain ⟨_, hrequired, h⟩ := Check.bind_eq_pure.mp h
  obtain ⟨hlength, _, hholds⟩ := Plan.holds_of_giveEach hargs hplan
  have hts : plan.mapM Plan.filled? = some ts := Check.pure_eq_pure.mp h
  refine Plan.fill_of_holds (by simpa [Schema.size] using hlength) (fun j param hparam => ?_)
    hrequired hts
  have hlt : j < schema.size := (List.getElem?_eq_some_iff.mp hparam).1
  simpa using hholds j param hparam (by simp [hlt])

end Stencil
