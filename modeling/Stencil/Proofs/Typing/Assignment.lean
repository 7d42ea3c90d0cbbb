import Stencil.Proofs.Typing.Body
import Stencil.Proofs.Typing.Principal

/-!
The arguments of an inclusion pass just if the rules assign them to the parameters of the target. A
plan then holds each argument once.
-/

namespace Stencil

-- A plan before and after arguments are put at free positions, one after the other.
inductive Plan.Filled : Plan → List Nat → List (Option Term) → Plan → Prop
  | nil {plan : Plan} : Filled plan [] [] plan
  | cons {plan plan' : Plan} {i : Nat} {term : Option Term} {positions : List Nat}
      {terms : List (Option Term)} (free : plan[i]? = some none)
      (rest : Filled (plan.set i (some term)) positions terms plan') :
    Filled plan (i :: positions) (term :: terms) plan'

namespace Plan.Filled

variable {plan plan' : Plan} {positions : List Nat} {terms : List (Option Term)}

theorem free (h : Filled plan positions terms plan') : ∀ i ∈ positions, plan[i]? = some none := by
  induction h with
  | nil => simp
  | @cons plan plan' i term positions terms hfree rest ih =>
    intro j hj
    obtain rfl | hj := List.mem_cons.mp hj
    · exact hfree
    · have hset := ih j hj
      by_cases hij : i = j
      · rw [← hij]
        exact hfree
      · rwa [List.getElem?_set_ne hij] at hset

-- No position is used twice: after its first use it is not free.
theorem nodup (h : Filled plan positions terms plan') : positions.Nodup := by
  induction h with
  | nil => exact List.nodup_nil
  | @cons plan plan' i term positions terms hfree rest ih =>
    refine List.nodup_cons.mpr ⟨fun hi => ?_, ih⟩
    have hlt : i < plan.length := (List.getElem?_eq_some_iff.mp hfree).1
    have hset := rest.free i hi
    rw [List.getElem?_set_self hlt] at hset
    cases hset

theorem getElem?_of_not_mem (h : Filled plan positions terms plan') :
    ∀ i, i ∉ positions → plan'[i]? = plan[i]? := by
  induction h with
  | nil => exact fun _ _ => rfl
  | @cons plan plan' i term positions terms hfree rest ih =>
    intro j hj
    have hne : i ≠ j := fun hij => hj (hij ▸ List.mem_cons_self)
    rw [ih j fun hmem => hj (List.mem_cons_of_mem i hmem), List.getElem?_set_ne hne]

theorem ne_none_of_mem (h : Filled plan positions terms plan') :
    ∀ i ∈ positions, plan'[i]? ≠ some none := by
  induction h with
  | nil => simp
  | @cons plan plan' i term positions terms hfree rest ih =>
    intro j hj
    obtain rfl | hj := List.mem_cons.mp hj
    · have hnodup := (Filled.cons hfree rest).nodup
      have hlt : j < plan.length := (List.getElem?_eq_some_iff.mp hfree).1
      rw [rest.getElem?_of_not_mem j (List.nodup_cons.mp hnodup).1, List.getElem?_set_self hlt]
      simp
    · exact ih j hj

theorem exists_of_free (hnodup : positions.Nodup) (hfree : ∀ i ∈ positions, plan[i]? = some none)
    (hlength : terms.length = positions.length) : ∃ plan', Filled plan positions terms plan' := by
  induction positions generalizing plan terms with
  | nil =>
    obtain rfl := List.length_eq_zero_iff.mp hlength
    exact ⟨plan, .nil⟩
  | cons i positions ih =>
    cases terms with
    | nil => simp at hlength
    | cons term terms =>
      obtain ⟨hi, hnodup⟩ := List.nodup_cons.mp hnodup
      have hrest : ∀ j ∈ positions, (plan.set i (some term))[j]? = some none := by
        intro j hj
        have hne : i ≠ j := fun hij => hi (hij ▸ hj)
        rw [List.getElem?_set_ne hne]
        exact hfree j (List.mem_cons_of_mem i hj)
      obtain ⟨plan', hplan⟩ := ih hnodup hrest (by simpa using hlength)
      exact ⟨plan', .cons (hfree i List.mem_cons_self) hplan⟩

theorem perm_set {i : Nat} (h : plan[i]? = some none) (term : Option Term) :
    ((plan.set i (some term)).filterMap id).Perm (term :: plan.filterMap id) := by
  induction plan generalizing i with
  | nil => cases h
  | cons entry plan ih =>
    cases i with
    | zero =>
      obtain rfl : entry = none := by simpa using h
      exact List.Perm.refl _
    | succ i =>
      have hrest := ih (by simpa using h)
      cases entry with
      | none => simpa using hrest
      | some given =>
        calc
          (((some given :: plan).set (i + 1) (some term)).filterMap id)
            = given :: (plan.set i (some term)).filterMap id := rfl
          List.Perm _ (given :: term :: plan.filterMap id) := hrest.cons given
          List.Perm _ (term :: given :: plan.filterMap id) := List.Perm.swap _ _ _

-- A plan holds what was given, in some order.
theorem perm (h : Filled plan positions terms plan') :
    (plan'.filterMap id).Perm (terms ++ plan.filterMap id) := by
  induction h with
  | nil => exact List.Perm.refl _
  | @cons plan plan' i term positions terms hfree rest ih =>
    calc
      List.Perm (plan'.filterMap id) (terms ++ (plan.set i (some term)).filterMap id) := ih
      List.Perm _ (terms ++ term :: plan.filterMap id) := (perm_set hfree term).append_left terms
      List.Perm _ (term :: (terms ++ plan.filterMap id)) := List.perm_middle

end Plan.Filled

-- An argument with the term that checking it gave, which has a type of the argument.
def Argument.Typed (oracle : Oracle) (Γ : Context) (given : Argument × Option Term) : Prop :=
  ∃ t, given.2 = some t ∧ given.1.value.HasType oracle Γ t.type

namespace Argument

variable {oracle : Oracle} {Γ : Context} {schema : Schema}

theorem typed_of_checkAll {args : List Argument} {given : List (Argument × Option Term)}
    (h : Argument.checkAll oracle Γ.scope args = pure given) :
    given.map (·.1) = args ∧ ∀ g ∈ given, Typed oracle Γ g := by
  obtain ⟨hargs, hsound⟩ := sound_of_checkAll h
  refine ⟨hargs, fun g hg => ?_⟩
  obtain ⟨t, ht, -, htype⟩ := Expr.hasType_of_check (hsound g hg)
  exact ⟨t, ht, htype⟩

theorem checkAll_of_hasType {args : List Argument}
    (h : ∀ arg ∈ args, ∃ σ, arg.value.HasType oracle Γ σ) :
    ∃ given, Argument.checkAll oracle Γ.scope args = pure given := by
  induction args with
  | nil => exact ⟨[], rfl⟩
  | cons arg args ih =>
    obtain ⟨σ, hσ⟩ := h arg List.mem_cons_self
    obtain ⟨t, ht, -⟩ := Expr.hasType_iff.mp hσ
    obtain ⟨given, hgiven⟩ := ih fun a ha => h a (List.mem_cons_of_mem arg ha)
    refine ⟨(arg, some t) :: given, Check.bind_eq_pure.mpr ⟨some t, ht, ?_⟩⟩
    exact Check.bind_eq_pure.mpr ⟨given, hgiven, rfl⟩

namespace Assigned

theorem hasType {index : Nat} {args : List Argument} {positions : List Nat}
    (h : Assigned oracle Γ schema index args positions) :
    ∀ arg ∈ args, ∃ σ, arg.value.HasType oracle Γ σ := by
  induction h with
  | nil => simp
  | positional _ _ typed _ _ ih | named _ _ typed _ _ _ ih =>
    intro arg harg
    obtain rfl | harg := List.mem_cons.mp harg
    · exact ⟨_, typed⟩
    · exact ih arg harg

theorem length_eq {index : Nat} {args : List Argument} {positions : List Nat}
    (h : Assigned oracle Γ schema index args positions) : positions.length = args.length := by
  induction h with
  | nil => rfl
  | positional _ _ _ _ _ ih | named _ _ _ _ _ _ ih => simpa using ih

theorem lt_size {index : Nat} {args : List Argument} {positions : List Nat}
    (h : Assigned oracle Γ schema index args positions) : ∀ i ∈ positions, i < schema.size := by
  induction h with
  | nil => simp
  | positional _ found _ _ _ ih =>
    intro i hi
    obtain rfl | hi := List.mem_cons.mp hi
    · exact (List.getElem?_eq_some_iff.mp found).1
    · exact ih i hi
  | named _ found _ _ _ _ ih =>
    intro i hi
    obtain rfl | hi := List.mem_cons.mp hi
    · exact (List.getElem?_eq_some_iff.mp (Schema.getElem?_of_get? found)).1
    · exact ih i hi

end Assigned

end Argument

namespace Plan

variable {oracle : Oracle} {Γ : Context} {schema : Schema} {target : String} {count : Nat}

theorem give_of_free {plan : Plan} {i : Nat} {param : Parameter} {span : Span} {t : Term}
    (hfree : plan[i]? = some none) (haccepts : param.type.accepts t.type = true) :
    plan.give i param span (some t) = pure (plan.set i (some (some t))) := by
  simp [give, hfree, haccepts]

-- The induction is on the arguments; the plan so far is what tells whether a position is free.
theorem assigned_of_giveEach {index : Nat} {named : Bool} {plan plan' : Plan}
    {given : List (Argument × Option Term)} (hsize : plan.length = schema.size)
    (htyped : ∀ g ∈ given, Argument.Typed oracle Γ g)
    (h : giveEach target schema count index named plan given = pure plan') :
    ∃ positions, Argument.Assigned oracle Γ schema index (given.map (·.1)) positions ∧
      (named = true → ∀ g ∈ given, g.1.name ≠ none) ∧
      Filled plan positions (given.map (·.2)) plan' := by
  induction given generalizing index named plan with
  | nil =>
    obtain rfl : plan = plan' := Check.pure_eq_pure.mp h
    exact ⟨[], .nil, fun _ _ hmem => (List.not_mem_nil hmem).elim, .nil⟩
  | cons first rest ih =>
    obtain ⟨arg, term⟩ := first
    obtain ⟨t, rfl, hvalue⟩ := htyped (arg, term) List.mem_cons_self
    have hrest : ∀ g ∈ rest, Argument.Typed oracle Γ g :=
      fun g hg => htyped g (List.mem_cons_of_mem _ hg)
    -- What giving the first argument to its parameter says, wherever that parameter is.
    have hstep {i : Nat} {param : Parameter} {next : Plan}
        (hparam : schema.params[i]? = some param)
        (hgive : plan.give i param arg.value.span (some t) = pure next) :
        plan[i]? = some none ∧ t.type ≤ param.type ∧ next = plan.set i (some (some t)) := by
      obtain ⟨hfree, hnext, haccepts⟩ := set_of_give hgive
      have hlt : i < plan.length := hsize ▸ (List.getElem?_eq_some_iff.mp hparam).1
      refine ⟨?_, Ty.accepts_iff_le.mp (haccepts t rfl), hnext⟩
      cases hentry : plan[i] with
      | none => exact List.getElem?_eq_some_iff.mpr ⟨hlt, hentry⟩
      | some given => exact absurd (List.getElem?_eq_some_iff.mpr ⟨hlt, hentry⟩) (hfree given)
    simp only [giveEach] at h
    split at h
    · next hname =>
      split at h
      · obtain ⟨_, hcomplain, _⟩ := Check.bind_eq_pure.mp h
        simp at hcomplain
      · next hnamed =>
        split at h
        · obtain ⟨_, hcomplain, _⟩ := Check.bind_eq_pure.mp h
          simp at hcomplain
        · next param hparam =>
          obtain ⟨next, hgive, h⟩ := Check.bind_eq_pure.mp h
          obtain ⟨hfree, hle, rfl⟩ := hstep hparam hgive
          obtain ⟨positions, hassigned, -, hfilled⟩ := ih (by simpa using hsize) hrest h
          exact ⟨index :: positions, .positional hname hparam hvalue hle hassigned,
            fun hnamed' => absurd hnamed' hnamed, .cons hfree hfilled⟩
    · next name hname =>
      split at h
      · obtain ⟨_, hcomplain, _⟩ := Check.bind_eq_pure.mp h
        simp at hcomplain
      · next i param hget =>
        obtain ⟨next, hgive, h⟩ := Check.bind_eq_pure.mp h
        obtain ⟨hfree, hle, rfl⟩ := hstep (Schema.getElem?_of_get? hget) hgive
        obtain ⟨positions, hassigned, hafter, hfilled⟩ := ih (by simpa using hsize) hrest h
        refine ⟨i :: positions, .named hname hget hvalue hle ?_ hassigned, fun _ => ?_,
          .cons hfree hfilled⟩
        · intro later hlater
          obtain ⟨g, hg, rfl⟩ := List.mem_map.mp hlater
          exact hafter rfl g hg
        · intro g hg
          obtain rfl | hg := List.mem_cons.mp hg
          · simp [hname]
          · exact hafter rfl g hg

theorem giveEach_of_assigned {index : Nat} {named : Bool} {plan plan' : Plan}
    {given : List (Argument × Option Term)} {positions : List Nat}
    (htyped : ∀ g ∈ given, Argument.Typed oracle Γ g)
    (hassigned : Argument.Assigned oracle Γ schema index (given.map (·.1)) positions)
    (hnamed : named = true → ∀ g ∈ given, g.1.name ≠ none)
    (hfilled : Filled plan positions (given.map (·.2)) plan') :
    giveEach target schema count index named plan given = pure plan' := by
  induction given generalizing index named plan positions with
  | nil =>
    cases hassigned
    cases hfilled
    rfl
  | cons first rest ih =>
    obtain ⟨arg, term⟩ := first
    obtain ⟨t, rfl, hvalue⟩ := htyped (arg, term) List.mem_cons_self
    have hrest : ∀ g ∈ rest, Argument.Typed oracle Γ g :=
      fun g hg => htyped g (List.mem_cons_of_mem _ hg)
    cases hassigned with
    | positional unnamed found typed accepted assigned =>
      cases hfilled with
      | cons free filled =>
        obtain rfl := hvalue.unique typed
        have hnot : named = false := by
          by_contra htrue
          exact hnamed (by simpa using htrue) _ List.mem_cons_self unnamed
        subst hnot
        have hname : arg.name = none := unnamed
        have hlater : giveEach target schema count (index + 1) false
            (plan.set index (some (some t))) rest = pure plan' :=
          ih hrest assigned (by simp) filled
        simp only [giveEach, hname, found]
        exact Check.bind_eq_pure.mpr
          ⟨_, give_of_free free (Ty.accepts_iff_le.mpr accepted), hlater⟩
    | @named _ position name _ _ _ _ _ named found typed accepted named_after assigned =>
      cases hfilled with
      | cons free filled =>
        obtain rfl := hvalue.unique typed
        have hname : arg.name = some name := named
        have hafter : ∀ g ∈ rest, g.1.name ≠ none :=
          fun g hg => named_after g.1 (List.mem_map_of_mem hg)
        have hlater : giveEach target schema count (index + 1) true
            (plan.set position (some (some t))) rest = pure plan' :=
          ih hrest assigned (fun _ => hafter) filled
        simp only [giveEach, hname, found]
        exact Check.bind_eq_pure.mpr
          ⟨_, give_of_free free (Ty.accepts_iff_le.mpr accepted), hlater⟩

theorem requireAll_iff {span : Span} {params : List Parameter} {plan : Plan} :
    requireAll target span params plan = pure () ↔
      ∀ (i : Nat) param, params[i]? = some param → param.default = none →
        plan[i]? ≠ some none := by
  induction params generalizing plan with
  | nil => simp [requireAll]
  | cons param params ih =>
    cases plan with
    | nil => simp [requireAll]
    | cons entry plan =>
      constructor
      · intro h i other hother hdefault
        obtain ⟨hfirst, hrest⟩ := default_of_requireAll h
        cases i with
        | zero =>
          obtain rfl : param = other := by simpa using hother
          intro hentry
          obtain rfl : entry = none := by simpa using hentry
          simp [hdefault] at hfirst
        | succ i =>
          exact ih.mp hrest i other (by simpa using hother) hdefault
      · intro h
        have hrest := ih.mpr fun i other hother hdefault => h (i + 1) other hother hdefault
        have hfirst := h 0 param rfl
        have hnone : (entry.isNone && param.default.isNone) = false := by
          cases entry with
          | none =>
            cases hdefault : param.default with
            | none => exact absurd rfl (hfirst hdefault)
            | some c => rfl
          | some given => rfl
        simpa [requireAll, hnone] using hrest

-- In a plan without mistakes each entry has a term, or is free.
theorem exists_filled {plan : Plan} (h : none ∉ plan.filterMap id) :
    ∃ ts, plan.mapM filled? = some ts := by
  induction plan with
  | nil => exact ⟨[], rfl⟩
  | cons entry plan ih =>
    cases entry with
    | none =>
      obtain ⟨ts, hts⟩ := ih (by simpa using h)
      exact ⟨none :: ts, by simp [filled?, hts]⟩
    | some given =>
      obtain ⟨hgiven, hrest⟩ : ¬none = given ∧ none ∉ plan.filterMap id := by simpa using h
      obtain ⟨t, rfl⟩ := Option.ne_none_iff_exists'.mp (Ne.symm hgiven)
      obtain ⟨ts, hts⟩ := ih hrest
      exact ⟨some t :: ts, by simp [filled?, hts]⟩

theorem map_some_of_filled {plan : Plan} {ts : List (Option Term)}
    (h : plan.mapM filled? = some ts) : (ts.filterMap id).map some = plan.filterMap id := by
  induction plan generalizing ts with
  | nil =>
    obtain rfl : [] = ts := by simpa using h
    rfl
  | cons entry plan ih =>
    rw [List.mapM_cons] at h
    obtain ⟨first, hfirst, h⟩ := Option.bind_eq_some_iff.mp h
    obtain ⟨us, hus, h⟩ := Option.bind_eq_some_iff.mp h
    obtain rfl : first :: us = ts := Option.some.inj h
    have hrest := ih hus
    cases entry with
    | none =>
      obtain rfl : none = first := Option.some.inj hfirst
      simpa using hrest
    | some given =>
      obtain ⟨t, rfl, rfl⟩ := Option.map_eq_some_iff.mp hfirst
      simpa using hrest

end Plan

namespace Argument

variable {oracle : Oracle} {Γ : Context} {schema : Schema} {target : String} {span : Span}
  {given : List (Argument × Option Term)}

-- An inclusion without complaints: its arguments match, and each is used for one parameter.
theorem match_of_checkInclusion {r : Option (List (Option Term))}
    (htyped : ∀ g ∈ given, Typed oracle Γ g)
    (h : checkInclusion target schema span given = pure r) :
    ∃ ts positions, r = some ts ∧ Match oracle Γ schema (given.map (·.1)) positions ∧
      ((ts.filterMap id).map some).Perm (given.map (·.2)) := by
  obtain ⟨plan, hplan, h⟩ := Check.bind_eq_pure.mp h
  obtain ⟨_, hrequired, h⟩ := Check.bind_eq_pure.mp h
  obtain ⟨positions, hassigned, -, hfilled⟩ :=
    Plan.assigned_of_giveEach (List.length_replicate) htyped hplan
  have hperm : (plan.filterMap id).Perm (given.map (·.2)) := by
    simpa [List.filterMap_replicate_of_none] using hfilled.perm
  have hnone : none ∉ plan.filterMap id := by
    intro hmem
    obtain ⟨g, hg, hg'⟩ := List.mem_map.mp (hperm.mem_iff.mp hmem)
    obtain ⟨t, ht, -⟩ := htyped g hg
    rw [ht] at hg'
    cases hg'
  obtain ⟨ts, hts⟩ := Plan.exists_filled hnone
  refine ⟨ts, positions, ?_, ⟨hassigned, hfilled.nodup, ?_⟩, ?_⟩
  · exact (Check.pure_eq_pure.mp h).symm.trans hts
  · intro i param hparam hdefault
    by_contra hi
    refine Plan.requireAll_iff.mp hrequired i param hparam hdefault ?_
    have hlt : i < schema.size := (List.getElem?_eq_some_iff.mp hparam).1
    rw [hfilled.getElem?_of_not_mem i hi]
    simp [hlt]
  · rw [Plan.map_some_of_filled hts]
    exact hperm

theorem checkInclusion_of_match {positions : List Nat} (htyped : ∀ g ∈ given, Typed oracle Γ g)
    (h : Match oracle Γ schema (given.map (·.1)) positions) :
    ∃ ts, checkInclusion target schema span given = pure (some ts) := by
  have hfree : ∀ i ∈ positions, (List.replicate schema.size none : Plan)[i]? = some none := by
    intro i hi
    simp [h.assigned.lt_size i hi]
  have hlength : (given.map (·.2)).length = positions.length := by
    rw [h.assigned.length_eq]
    simp
  obtain ⟨plan, hfilled⟩ := Plan.Filled.exists_of_free h.unambiguous hfree hlength
  have hplan : Plan.giveEach target schema given.length 0 false (List.replicate schema.size none)
      given = pure plan := Plan.giveEach_of_assigned htyped h.assigned (by simp) hfilled
  have hrequired : Plan.requireAll target span schema.params plan = pure () := by
    refine Plan.requireAll_iff.mpr fun i param hparam hdefault => ?_
    exact hfilled.ne_none_of_mem i (h.complete i param hparam hdefault)
  have hchecked : checkInclusion target schema span given = pure (plan.mapM Plan.filled?) := by
    exact Check.bind_eq_pure.mpr
      ⟨plan, hplan, Check.bind_eq_pure.mpr ⟨(), hrequired, rfl⟩⟩
  obtain ⟨ts, _, hts, -, -⟩ := match_of_checkInclusion htyped hchecked
  exact ⟨ts, hts ▸ hchecked⟩

end Argument

end Stencil
