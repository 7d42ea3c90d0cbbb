import Stencil.Proofs.Program.Safety

/-!
The plans of inclusions. Which parameter an argument is for is a matter of its name or its place.
The check of an inclusion complains of no argument just if each has a parameter of its own that
accepts it and no parameter is left out, and the plan then says which argument is for which
parameter.
-/

namespace Stencil

theorem Check.complain_bind_ne_pure {α : Type} {problem : Problem} {span : Span}
    {next : Unit → Check α} {a : α} : (complain problem span >>= next) ≠ pure a := by
  intro h
  obtain ⟨_, hcomplain, -⟩ := Check.bind_eq_pure.mp h
  simp at hcomplain

theorem Schema.get?_eq_some_iff {schema : Schema} {name : String} {k : Nat} {param : Parameter} :
    schema.get? name = some (k, param) ↔ schema.params[k]? = some param ∧ param.name = name ∧
      ∀ j other, j < k → schema.params[j]? = some other → other.name ≠ name := by
  constructor
  · intro h
    have hparam := Schema.getElem?_of_get? h
    obtain ⟨j, hfind, h⟩ := Option.bind_eq_some_iff.mp h
    obtain ⟨q, -, h⟩ := Option.bind_eq_some_iff.mp h
    obtain ⟨rfl, rfl⟩ := Prod.mk.inj (Option.some.inj h)
    obtain ⟨hlt, hname, hfirst⟩ := List.findIdx?_eq_some_iff_getElem.mp hfind
    refine ⟨hparam, ?_, fun i other hi hother hsame => ?_⟩
    · obtain ⟨_, rfl⟩ := List.getElem?_eq_some_iff.mp hparam
      simpa using hname
    · obtain ⟨_, rfl⟩ := List.getElem?_eq_some_iff.mp hother
      exact hfirst i hi (by simpa using hsame)
  · rintro ⟨hparam, hname, hfirst⟩
    have hfind : schema.params.findIdx? (·.name == name) = some k := by
      obtain ⟨hlt, rfl⟩ := List.getElem?_eq_some_iff.mp hparam
      refine List.findIdx?_eq_some_iff_getElem.mpr ⟨hlt, by simpa using hname, fun j hj => ?_⟩
      have hother := hfirst j _ hj (List.getElem?_eq_getElem (hj.trans hlt))
      simpa using hother
    simp [get?, hfind, hparam]

theorem Schema.exists_get? {schema : Schema} {name : String} {param : Parameter}
    (hmem : param ∈ schema.params) (hname : param.name = name) :
    ∃ found, schema.get? name = some found := by
  have hfind : (schema.params.findIdx? (·.name == name)).isSome :=
    List.findIdx?_isSome.trans (List.any_eq_true.mpr ⟨param, hmem, by simp [hname]⟩)
  obtain ⟨k, hk⟩ := Option.isSome_iff_exists.mp hfind
  obtain ⟨hlt, -⟩ := List.findIdx?_eq_some_iff_getElem.mp hk
  exact ⟨(k, schema.params[k]), by simp [get?, hk, hlt]⟩

namespace Argument

-- The argument at place `i` is for parameter `k`: an unnamed one is for the parameter at its own
-- place, a named one for the first parameter of its name.
def Fills (schema : Schema) (args : List Argument) (i k : Nat) : Prop :=
  ∃ arg param, args[i]? = some arg ∧ schema.params[k]? = some param ∧
    match arg.name with
    | none => k = i
    | some name => param.name = name ∧
      ∀ j other, j < k → schema.params[j]? = some other → other.name ≠ name

-- What the arguments of an inclusion have to be like, each given with what checking it gave.
structure Proper (schema : Schema) (given : List (Argument × Option Term)) : Prop where
  positionalFirst : given.Pairwise fun a b => a.1.name ≠ none → b.1.name ≠ none
  notTooMany : (given.filter (·.1.name.isNone)).length ≤ schema.size
  known : ∀ g ∈ given, ∀ name, g.1.name = some name → ∃ param ∈ schema.params, param.name = name
  once : ∀ i j k, Fills schema (given.map (·.1)) i k → Fills schema (given.map (·.1)) j k → i = j
  complete : ∀ k param, schema.params[k]? = some param → param.default = none →
    ∃ i, Fills schema (given.map (·.1)) i k
  accepted : ∀ i k arg t param, given[i]? = some (arg, some t) →
    Fills schema (given.map (·.1)) i k → schema.params[k]? = some param →
      param.type.accepts t.type = true

theorem fills_iff {schema : Schema} {args : List Argument} {i k : Nat} :
    Fills schema args i k ↔
      k < schema.size ∧ ∃ arg, args[i]? = some arg ∧ arg.position? schema i = some k := by
  constructor
  · rintro ⟨arg, param, harg, hparam, hfills⟩
    refine ⟨(List.getElem?_eq_some_iff.mp hparam).1, arg, harg, ?_⟩
    cases hname : arg.name with
    | none =>
      simp only [hname] at hfills
      simp [position?, hname, hfills]
    | some name =>
      simp only [hname] at hfills
      have hget : schema.get? name = some (k, param) :=
        Schema.get?_eq_some_iff.mpr ⟨hparam, hfills⟩
      simp [position?, hname, hget]
  · rintro ⟨hlt, arg, harg, hposition⟩
    cases hname : arg.name with
    | none =>
      obtain rfl : i = k := by simpa [position?, hname] using hposition
      exact ⟨arg, _, harg, List.getElem?_eq_getElem hlt, by simp [hname]⟩
    | some name =>
      obtain ⟨⟨j, param⟩, hget, rfl⟩ : ∃ found, schema.get? name = some found ∧ found.1 = k := by
        simpa [position?, hname] using hposition
      obtain ⟨hparam, hfills⟩ := Schema.get?_eq_some_iff.mp hget
      exact ⟨arg, param, harg, hparam, by simpa [hname] using hfills⟩

-- Arguments behind `index` others, and the parameters they are for. `named` says that one of the
-- others was named.
inductive Placed (schema : Schema) :
    Nat → Bool → List (Argument × Option Term) → List Nat → Prop
  | nil {index : Nat} {named : Bool} : Placed schema index named [] []
  | cons {index k : Nat} {named : Bool} {arg : Argument} {term : Option Term}
      {given : List (Argument × Option Term)} {positions : List Nat} {param : Parameter}
      (order : named = true → arg.name ≠ none) (position : arg.position? schema index = some k)
      (found : schema.params[k]? = some param)
      (accepted : ∀ t, term = some t → param.type.accepts t.type = true)
      (rest : Placed schema (index + 1) (named || arg.name.isSome) given positions) :
    Placed schema index named ((arg, term) :: given) (k :: positions)

end Argument

namespace Plan

variable {schema : Schema} {target : String} {count : Nat}

theorem give_eq_pure_iff {plan plan' : Plan} {k : Nat} {param : Parameter} {span : Span}
    {term : Option Term} (hlt : k < plan.length) :
    plan.give k param span term = pure plan' ↔ plan[k]? = some none ∧
      (∀ t, term = some t → param.type.accepts t.type = true) ∧ plan.set k (some term) = plan' := by
  constructor
  · intro h
    obtain ⟨hfree, rfl, haccepts⟩ := set_of_give h
    refine ⟨?_, haccepts, rfl⟩
    cases hentry : plan[k] with
    | none => exact List.getElem?_eq_some_iff.mpr ⟨hlt, hentry⟩
    | some given => exact absurd (List.getElem?_eq_some_iff.mpr ⟨hlt, hentry⟩) (hfree given)
  · rintro ⟨hfree, haccepts, rfl⟩
    cases term with
    | none => simp [give, hfree]
    | some t => exact give_of_free hfree (haccepts t rfl)

-- One argument is taken without complaint.
theorem giveEach_cons_iff {index : Nat} {named : Bool} {plan plan' : Plan} {arg : Argument}
    {term : Option Term} {rest : List (Argument × Option Term)}
    (hsize : plan.length = schema.size) :
    giveEach target schema count index named plan ((arg, term) :: rest) = pure plan' ↔
      ∃ k param, (named = true → arg.name ≠ none) ∧ arg.position? schema index = some k ∧
        schema.params[k]? = some param ∧ plan[k]? = some none ∧
        (∀ t, term = some t → param.type.accepts t.type = true) ∧
        giveEach target schema count (index + 1) (named || arg.name.isSome)
          (plan.set k (some term)) rest = pure plan' := by
  have hgive {k : Nat} {param : Parameter} {named' : Bool}
      (hparam : schema.params[k]? = some param) :
      (plan.give k param arg.value.span term >>= fun plan =>
        giveEach target schema count (index + 1) named' plan rest) = pure plan' ↔
      plan[k]? = some none ∧ (∀ t, term = some t → param.type.accepts t.type = true) ∧
        giveEach target schema count (index + 1) named' (plan.set k (some term)) rest =
          pure plan' := by
    have hlt : k < plan.length := hsize ▸ (List.getElem?_eq_some_iff.mp hparam).1
    rw [Check.bind_eq_pure]
    constructor
    · rintro ⟨next, hnext, h⟩
      obtain ⟨hfree, haccepts, rfl⟩ := (give_eq_pure_iff hlt).mp hnext
      exact ⟨hfree, haccepts, h⟩
    · rintro ⟨hfree, haccepts, h⟩
      exact ⟨_, (give_eq_pure_iff hlt).mpr ⟨hfree, haccepts, rfl⟩, h⟩
  rw [giveEach]
  cases hname : arg.name with
  | none =>
    cases named with
    | true => simpa using Check.complain_bind_ne_pure
    | false =>
      cases hparam : schema.params[index]? with
      | none => simpa [Argument.position?, hname, hparam] using Check.complain_bind_ne_pure
      | some param => simpa [Argument.position?, hname, hparam] using hgive hparam
  | some name =>
    cases hget : schema.get? name with
    | none => simpa [Argument.position?, hname, hget] using Check.complain_bind_ne_pure
    | some found =>
      obtain ⟨k, param⟩ := found
      have hparam := Schema.getElem?_of_get? hget
      simpa [Argument.position?, hname, hget, hparam] using hgive hparam

-- The induction is on the arguments; what is free is told by the plan so far.
theorem giveEach_iff {index : Nat} {named : Bool} {plan plan' : Plan}
    {given : List (Argument × Option Term)} (hsize : plan.length = schema.size) :
    giveEach target schema count index named plan given = pure plan' ↔
      ∃ positions, Argument.Placed schema index named given positions ∧
        Filled plan positions (given.map (·.2)) plan' := by
  induction given generalizing index named plan with
  | nil =>
    constructor
    · intro h
      obtain rfl : plan = plan' := Check.pure_eq_pure.mp h
      exact ⟨[], .nil, .nil⟩
    · rintro ⟨_, ⟨⟩, ⟨⟩⟩
      rfl
  | cons first rest ih =>
    obtain ⟨arg, term⟩ := first
    rw [giveEach_cons_iff hsize]
    constructor
    · rintro ⟨k, param, horder, hposition, hparam, hfree, haccepts, hrest⟩
      obtain ⟨positions, hplaced, hfilled⟩ := (ih (by simpa using hsize)).mp hrest
      exact ⟨k :: positions, .cons horder hposition hparam haccepts hplaced, .cons hfree hfilled⟩
    · rintro ⟨_, hplaced, hfilled⟩
      cases hplaced with
      | cons horder hposition hparam haccepts hplaced =>
        cases hfilled with
        | cons hfree hfilled =>
          exact ⟨_, _, horder, hposition, hparam, hfree, haccepts,
            (ih (by simpa using hsize)).mpr ⟨_, hplaced, hfilled⟩⟩

-- A plan holds the terms at their positions.
theorem Filled.getElem? {plan plan' : Plan} {positions : List Nat} {terms : List (Option Term)}
    (h : Filled plan positions terms plan') {j k : Nat} {term : Option Term}
    (hposition : positions[j]? = some k) (hterm : terms[j]? = some term) :
    plan'[k]? = some (some term) := by
  induction h generalizing j with
  | nil => cases hposition
  | @cons plan plan' i first positions terms hfree rest ih =>
    cases j with
    | zero =>
      obtain rfl : i = k := by simpa using hposition
      obtain rfl : first = term := by simpa using hterm
      have hlt : i < plan.length := (List.getElem?_eq_some_iff.mp hfree).1
      have hnodup := (Filled.cons hfree rest).nodup
      rw [rest.getElem?_of_not_mem i (List.nodup_cons.mp hnodup).1, List.getElem?_set_self hlt]
    | succ j => exact ih (by simpa using hposition) (by simpa using hterm)

end Plan

namespace Argument

variable {schema : Schema}

-- An argument is for this parameter, which accepts it.
def Suits (schema : Schema) (index : Nat) (g : Argument × Option Term) (k : Nat) : Prop :=
  g.1.position? schema index = some k ∧ ∃ param, schema.params[k]? = some param ∧
    ∀ t, g.2 = some t → param.type.accepts t.type = true

theorem placed_iff {index : Nat} {named : Bool} {given : List (Argument × Option Term)}
    {positions : List Nat} :
    Placed schema index named given positions ↔
      (named = true → ∀ g ∈ given, g.1.name ≠ none) ∧
      given.Pairwise (fun a b => a.1.name ≠ none → b.1.name ≠ none) ∧
      positions.length = given.length ∧
      ∀ j g k, given[j]? = some g → positions[j]? = some k → Suits schema (index + j) g k := by
  induction given generalizing index named positions with
  | nil =>
    constructor
    · rintro ⟨⟩
      simp
    · rintro ⟨-, -, hlength, -⟩
      obtain rfl := List.length_eq_zero_iff.mp hlength
      exact .nil
  | cons first rest ih =>
    obtain ⟨arg, term⟩ := first
    constructor
    · rintro (_ | ⟨horder, hposition, hparam, haccepts, hplaced⟩)
      obtain ⟨hnamed, hfirst, hlength, hsuits⟩ := ih.mp hplaced
      refine ⟨fun h => ?_, ?_, by simpa using hlength, fun j g k hg hk => ?_⟩
      · exact List.forall_mem_cons.mpr ⟨horder h, hnamed (by simp [h])⟩
      · refine List.pairwise_cons.mpr ⟨fun g hg hname => hnamed ?_ g hg, hfirst⟩
        simpa [Option.isSome_iff_ne_none] using .inr hname
      · cases j with
        | zero =>
          obtain rfl := Option.some.inj hg
          obtain rfl := Option.some.inj hk
          exact ⟨hposition, _, hparam, haccepts⟩
        | succ j =>
          have hlater := hsuits j g k (by simpa using hg) (by simpa using hk)
          rwa [Nat.add_right_comm, Nat.add_assoc] at hlater
    · rintro ⟨hnamed, hfirst, hlength, hsuits⟩
      cases positions with
      | nil => cases hlength
      | cons k positions =>
        obtain ⟨hposition, param, hparam, haccepts⟩ := hsuits 0 _ k rfl rfl
        obtain ⟨hafter, hfirst⟩ := List.pairwise_cons.mp hfirst
        refine .cons (fun h => hnamed h _ List.mem_cons_self) hposition hparam haccepts
          (ih.mpr ⟨fun h g hg => ?_, hfirst, by simpa using hlength, fun j g k' hg hk' => ?_⟩)
        · rcases Bool.or_eq_true_iff.mp h with h | h
          · exact hnamed h g (List.mem_cons_of_mem _ hg)
          · exact hafter g hg (Option.isSome_iff_ne_none.mp h)
        · have hlater := hsuits (j + 1) g k' (by simpa using hg) (by simpa using hk')
          rwa [← Nat.add_assoc, Nat.add_right_comm] at hlater

-- Unnamed arguments that stand in front are as many as the places they take.
theorem positional_le_iff {given : List (Argument × Option Term)} {n : Nat}
    (hfirst : given.Pairwise fun a b => a.1.name ≠ none → b.1.name ≠ none) :
    (given.filter (·.1.name.isNone)).length ≤ n ↔
      ∀ (j : Nat) g, given[j]? = some g → g.1.name = none → j < n := by
  induction given generalizing n with
  | nil => simp
  | cons first rest ih =>
    obtain ⟨hafter, hrest⟩ := List.pairwise_cons.mp hfirst
    cases hname : first.1.name with
    | none =>
      rw [List.filter_cons_of_pos (by simp [hname]), List.length_cons]
      cases n with
      | zero => simpa using ⟨0, first.1, ⟨first.2, rfl⟩, hname⟩
      | succ n =>
        rw [Nat.succ_le_succ_iff, ih hrest]
        constructor
        · rintro h (_ | j) g hg hg'
          · exact Nat.succ_pos n
          · exact Nat.succ_lt_succ (h j g (by simpa using hg) hg')
        · exact fun h j g hg hg' => Nat.lt_of_succ_lt_succ (h (j + 1) g (by simpa using hg) hg')
    | some name =>
      have hnamed : ∀ g ∈ first :: rest, g.1.name ≠ none :=
        List.forall_mem_cons.mpr ⟨by simp [hname], fun g hg => hafter g hg (by simp [hname])⟩
      have hnone : (first :: rest).filter (·.1.name.isNone) = [] :=
        List.filter_eq_nil_iff.mpr fun g hg => by simpa using hnamed g hg
      rw [hnone]
      exact iff_of_true (Nat.zero_le n) fun j g hg hg' =>
        absurd hg' (hnamed g (List.mem_of_getElem? hg))

theorem Placed.fills_iff {given : List (Argument × Option Term)} {positions : List Nat}
    (h : Placed schema 0 false given positions) {i k : Nat} :
    Fills schema (given.map (·.1)) i k ↔ positions[i]? = some k := by
  obtain ⟨-, -, hlength, hsuits⟩ := placed_iff.mp h
  rw [Argument.fills_iff]
  constructor
  · rintro ⟨-, arg, harg, hposition⟩
    rw [List.getElem?_map] at harg
    obtain ⟨g, hg, rfl⟩ := Option.map_eq_some_iff.mp harg
    have hlt : i < positions.length := hlength ▸ (List.getElem?_eq_some_iff.mp hg).1
    obtain ⟨hposition', -⟩ := hsuits i g _ hg (List.getElem?_eq_getElem hlt)
    rw [Nat.zero_add, hposition] at hposition'
    rw [List.getElem?_eq_getElem hlt, Option.some.inj hposition']
  · intro hk
    have hlt : i < given.length := hlength ▸ (List.getElem?_eq_some_iff.mp hk).1
    obtain ⟨hposition, param, hparam, -⟩ := hsuits i _ k (List.getElem?_eq_getElem hlt) hk
    rw [Nat.zero_add] at hposition
    exact ⟨(List.getElem?_eq_some_iff.mp hparam).1, _, by simp [hlt], hposition⟩

-- Each of proper arguments has its parameter.
theorem Proper.suits {given : List (Argument × Option Term)} (h : Proper schema given) {i : Nat}
    {g : Argument × Option Term} (hg : given[i]? = some g) : ∃ k, Suits schema i g k := by
  have hfound : ∃ k param, g.1.position? schema i = some k ∧ schema.params[k]? = some param := by
    cases hname : g.1.name with
    | none =>
      have hlt := (positional_le_iff h.positionalFirst).mp h.notTooMany i g hg hname
      exact ⟨i, _, by simp [position?, hname], List.getElem?_eq_getElem hlt⟩
    | some name =>
      obtain ⟨param, hmem, hparam⟩ := h.known g (List.mem_of_getElem? hg) name hname
      obtain ⟨⟨k, other⟩, hget⟩ := Schema.exists_get? hmem hparam
      exact ⟨k, other, by simp [position?, hname, hget], Schema.getElem?_of_get? hget⟩
  obtain ⟨k, param, hposition, hparam⟩ := hfound
  have hfills : Fills schema (given.map (·.1)) i k :=
    fills_iff.mpr ⟨(List.getElem?_eq_some_iff.mp hparam).1, g.1, by simp [hg], hposition⟩
  refine ⟨k, hposition, param, hparam, fun t ht => ?_⟩
  obtain ⟨arg, term⟩ := g
  subst ht
  exact h.accepted i k arg t param hg hfills hparam

-- What is said of proper arguments one by one can be said by their positions.
theorem proper_iff {given : List (Argument × Option Term)} :
    Proper schema given ↔ ∃ positions, Placed schema 0 false given positions ∧ positions.Nodup ∧
      ∀ k param, schema.params[k]? = some param → param.default = none → k ∈ positions := by
  constructor
  · intro h
    have hplaced : Placed schema 0 false given
        (given.mapIdx fun i g => (g.1.position? schema i).getD 0) := by
      refine placed_iff.mpr ⟨by simp, h.positionalFirst, by simp, fun i g k hg hk => ?_⟩
      obtain ⟨k', hsuits⟩ := h.suits hg
      obtain rfl : k' = k := by simpa [hg, hsuits.1] using hk
      rwa [Nat.zero_add]
    refine ⟨_, hplaced, ?_, fun k param hparam hdefault => ?_⟩
    · refine List.nodup_iff_getElem?_ne_getElem?.mpr fun i j hij hj hsame => ?_
      have hk := List.getElem?_eq_getElem hj
      exact hij.ne (h.once i j _ (hplaced.fills_iff.mpr (hsame.trans hk))
        (hplaced.fills_iff.mpr hk))
    · obtain ⟨i, hfills⟩ := h.complete k param hparam hdefault
      exact List.mem_of_getElem? (hplaced.fills_iff.mp hfills)
  · rintro ⟨positions, hplaced, hnodup, hcomplete⟩
    obtain ⟨-, hfirst, hlength, hsuits⟩ := placed_iff.mp hplaced
    have hposition {i : Nat} {g : Argument × Option Term} (hg : given[i]? = some g) :
        ∃ k, positions[i]? = some k ∧ Suits schema i g k := by
      have hlt : i < positions.length := hlength ▸ (List.getElem?_eq_some_iff.mp hg).1
      have hk := List.getElem?_eq_getElem hlt
      exact ⟨_, hk, by simpa using hsuits i g _ hg hk⟩
    refine ⟨hfirst, (positional_le_iff hfirst).mpr fun i g hg hname => ?_,
      fun g hg name hname => ?_,
      fun i j k hi hj => ?_, fun k param hparam hdefault => ?_,
      fun i k arg t param hg hfills hparam => ?_⟩
    · obtain ⟨k, -, hposition, param, hparam, -⟩ := hposition hg
      obtain rfl : i = k := by simpa [position?, hname] using hposition
      exact (List.getElem?_eq_some_iff.mp hparam).1
    · obtain ⟨i, hi⟩ := List.mem_iff_getElem?.mp hg
      obtain ⟨k, -, hposition, -⟩ := hposition hi
      obtain ⟨⟨j, param⟩, hget, -⟩ : ∃ found, schema.get? name = some found ∧ found.1 = k := by
        simpa [position?, hname] using hposition
      obtain ⟨hparam, hsame, -⟩ := Schema.get?_eq_some_iff.mp hget
      exact ⟨param, List.mem_of_getElem? hparam, hsame⟩
    · rw [hplaced.fills_iff] at hi hj
      exact (List.getElem?_inj (List.getElem?_eq_some_iff.mp hi).1 hnodup).mp (hi.trans hj.symm)
    · obtain ⟨i, hi⟩ := List.mem_iff_getElem?.mp (hcomplete k param hparam hdefault)
      exact ⟨i, hplaced.fills_iff.mpr hi⟩
    · obtain ⟨-, other, hother, haccepts⟩ := hsuits i _ k hg (hplaced.fills_iff.mp hfills)
      obtain rfl := Option.some.inj (hparam.symm.trans hother)
      exact haccepts t rfl

theorem position_of_index? {k index i : Nat} {args : List Argument}
    (h : index? schema k index args = some i) :
    ∃ j arg, i = index + j ∧ args[j]? = some arg ∧ arg.position? schema i = some k := by
  induction args generalizing index with
  | nil => cases h
  | cons first args ih =>
    rw [index?] at h
    split at h
    · next hposition =>
      obtain rfl := Option.some.inj h
      exact ⟨0, first, rfl, rfl, hposition⟩
    · obtain ⟨j, arg, rfl, harg, hposition⟩ := ih h
      exact ⟨j + 1, arg, by omega, harg, hposition⟩

theorem index?_ne_none {k index j : Nat} {args : List Argument} {arg : Argument}
    (harg : args[j]? = some arg) (hposition : arg.position? schema (index + j) = some k) :
    index? schema k index args ≠ none := by
  induction args generalizing index j with
  | nil => cases harg
  | cons first args ih =>
    rw [index?]
    split
    · exact Option.some_ne_none _
    · next hfirst =>
      cases j with
      | zero =>
        obtain rfl : first = arg := by simpa using harg
        exact absurd hposition hfirst
      | succ j =>
        exact ih (by simpa using harg) (by rwa [Nat.add_assoc, Nat.add_comm 1])

theorem getElem?_planFrom {args : List Argument} {i k : Nat} {params : List Parameter} :
    (planFrom schema args i params)[k]? = params[k]?.map fun _ => index? schema (i + k) 0 args := by
  induction params generalizing i k with
  | nil => rfl
  | cons param params ih =>
    cases k with
    | zero => rfl
    | succ k =>
      rw [planFrom, List.getElem?_cons_succ, ih, List.getElem?_cons_succ, Nat.add_assoc,
        Nat.add_comm 1]

section Plan

variable {args : List Argument}

theorem plan_eq_mapIdx :
    plan schema args = schema.params.mapIdx fun k _ => index? schema k 0 args := by
  refine List.ext_getElem? fun k => ?_
  rw [plan, getElem?_planFrom, List.getElem?_mapIdx, Nat.zero_add]

theorem length_plan : (plan schema args).length = schema.size := by
  rw [plan_eq_mapIdx, List.length_mapIdx]
  rfl

-- An entry of a plan is for the first argument that fills the parameter.
theorem getElem?_plan_eq_some_iff {k : Nat} {entry : Option Nat} :
    (plan schema args)[k]? = some entry ↔ k < schema.size ∧ index? schema k 0 args = entry := by
  rw [plan_eq_mapIdx, List.getElem?_mapIdx, Option.map_eq_some_iff]
  constructor
  · rintro ⟨param, hparam, hentry⟩
    exact ⟨(List.getElem?_eq_some_iff.mp hparam).1, hentry⟩
  · rintro ⟨hlt, hentry⟩
    exact ⟨_, List.getElem?_eq_getElem hlt, hentry⟩

theorem fills_of_plan {i k : Nat} (h : (plan schema args)[k]? = some (some i)) :
    Fills schema args i k := by
  obtain ⟨hlt, hindex⟩ := getElem?_plan_eq_some_iff.mp h
  obtain ⟨j, arg, rfl, harg, hposition⟩ := position_of_index? hindex
  exact fills_iff.mpr ⟨hlt, arg, by rwa [Nat.zero_add], hposition⟩

theorem exists_plan_of_fills {i k : Nat} (h : Fills schema args i k) :
    ∃ j, (plan schema args)[k]? = some (some j) := by
  obtain ⟨hlt, arg, harg, hposition⟩ := fills_iff.mp h
  have hne := index?_ne_none harg ((Nat.zero_add i).symm ▸ hposition)
  obtain ⟨j, hj⟩ := Option.ne_none_iff_exists'.mp hne
  exact ⟨j, getElem?_plan_eq_some_iff.mpr ⟨hlt, hj⟩⟩

theorem plan_eq_none_iff {k : Nat} :
    (plan schema args)[k]? = some none ↔ k < schema.size ∧ ∀ i, ¬ Fills schema args i k := by
  constructor
  · intro h
    refine ⟨(getElem?_plan_eq_some_iff.mp h).1, fun i hfills => ?_⟩
    obtain ⟨j, hj⟩ := exists_plan_of_fills hfills
    cases h.symm.trans hj
  · rintro ⟨hlt, hfree⟩
    refine getElem?_plan_eq_some_iff.mpr ⟨hlt, Option.eq_none_iff_forall_ne_some.mpr fun i hi => ?_⟩
    exact hfree i (fills_of_plan (getElem?_plan_eq_some_iff.mpr ⟨hlt, hi⟩))

theorem plan_eq_some_iff
    (honce : ∀ i j k, Fills schema args i k → Fills schema args j k → i = j) {i k : Nat} :
    (plan schema args)[k]? = some (some i) ↔ Fills schema args i k := by
  refine ⟨fills_of_plan, fun hfills => ?_⟩
  obtain ⟨j, hj⟩ := exists_plan_of_fills hfills
  rwa [honce i j k hfills (fills_of_plan hj)]

-- An argument fills one parameter at most.
theorem Fills.unique {i k k' : Nat} (h : Fills schema args i k) (h' : Fills schema args i k') :
    k = k' := by
  obtain ⟨-, arg, harg, hposition⟩ := fills_iff.mp h
  obtain ⟨-, arg', harg', hposition'⟩ := fills_iff.mp h'
  obtain rfl := Option.some.inj (harg.symm.trans harg')
  exact Option.some.inj (hposition.symm.trans hposition')

end Plan

section Inclusion

variable {target : String} {span : Span} {given : List (Argument × Option Term)}

theorem checkInclusion_eq_pure_iff {r : Option (List (Option Term))} :
    checkInclusion target schema span given = pure r ↔ ∃ positions plan,
      Placed schema 0 false given positions ∧
      Plan.Filled (List.replicate schema.size none) positions (given.map (·.2)) plan ∧
      (∀ k param, schema.params[k]? = some param → param.default = none → k ∈ positions) ∧
      plan.mapM Plan.filled? = r := by
  have hsize : (List.replicate schema.size none : Plan).length = schema.size :=
    List.length_replicate
  have hfree {positions : List Nat} {plan : Plan} {k : Nat} {param : Parameter}
      (hfilled : Plan.Filled (List.replicate schema.size none) positions (given.map (·.2)) plan)
      (hparam : schema.params[k]? = some param) : plan[k]? ≠ some none ↔ k ∈ positions := by
    refine ⟨fun hne => ?_, hfilled.ne_none_of_mem k⟩
    by_contra hk
    have hlt : k < schema.size := (List.getElem?_eq_some_iff.mp hparam).1
    exact hne (by rw [hfilled.getElem?_of_not_mem k hk]; simp [hlt])
  constructor
  · intro h
    obtain ⟨plan, hplan, h⟩ := Check.bind_eq_pure.mp h
    obtain ⟨_, hrequired, h⟩ := Check.bind_eq_pure.mp h
    obtain ⟨positions, hplaced, hfilled⟩ := (Plan.giveEach_iff hsize).mp hplan
    refine ⟨positions, plan, hplaced, hfilled, fun k param hparam hdefault => ?_,
      Check.pure_eq_pure.mp h⟩
    exact (hfree hfilled hparam).mp (Plan.requireAll_iff.mp hrequired k param hparam hdefault)
  · rintro ⟨positions, plan, hplaced, hfilled, hcomplete, rfl⟩
    have hrequired : Plan.requireAll target span schema.params plan = pure () :=
      Plan.requireAll_iff.mpr fun k param hparam hdefault =>
        (hfree hfilled hparam).mpr (hcomplete k param hparam hdefault)
    exact Check.bind_eq_pure.mpr ⟨plan, (Plan.giveEach_iff hsize).mpr ⟨positions, hplaced, hfilled⟩,
      Check.bind_eq_pure.mpr ⟨(), hrequired, rfl⟩⟩

-- Arguments are proper just if nothing is to be complained of.
theorem complaints_eq_nil_iff :
    (checkInclusion target schema span given).complaints = [] ↔ Proper schema given := by
  rw [proper_iff]
  constructor
  · intro h
    have hpure : checkInclusion target schema span given =
        pure (checkInclusion target schema span given).result := congrArg (Check.mk · _) h
    obtain ⟨positions, plan, hplaced, hfilled, hcomplete, -⟩ := checkInclusion_eq_pure_iff.mp hpure
    exact ⟨positions, hplaced, hfilled.nodup, hcomplete⟩
  · rintro ⟨positions, hplaced, hnodup, hcomplete⟩
    obtain ⟨-, -, hlength, -⟩ := placed_iff.mp hplaced
    have hfree : ∀ k ∈ positions, (List.replicate schema.size none : Plan)[k]? = some none := by
      intro k hk
      obtain ⟨i, hi⟩ := List.mem_iff_getElem?.mp hk
      have hlt := (fills_iff.mp (hplaced.fills_iff.mpr hi)).1
      simp [hlt]
    have hterms : (given.map (·.2)).length = positions.length := by simp [hlength]
    obtain ⟨plan, hfilled⟩ := Plan.Filled.exists_of_free hnodup hfree hterms
    have hpure : checkInclusion target schema span given = pure (plan.mapM Plan.filled?) :=
      checkInclusion_eq_pure_iff.mpr ⟨positions, plan, hplaced, hfilled, hcomplete, rfl⟩
    rw [hpure, Check.complaints_pure]

-- What the check of proper arguments gives: the terms of the arguments, by the plan.
theorem result_of_proper (h : Proper schema given) :
    (checkInclusion target schema span given).result =
      ((plan schema (given.map (·.1))).map fun entry =>
        entry.bind fun i => (given[i]?).map (·.2)).mapM Plan.filled? := by
  have hpure : checkInclusion target schema span given =
      pure (checkInclusion target schema span given).result :=
    congrArg (Check.mk · _) (complaints_eq_nil_iff.mpr h)
  obtain ⟨positions, terms, hplaced, hfilled, -, hresult⟩ := checkInclusion_eq_pure_iff.mp hpure
  rw [← hresult]
  congr 1
  refine List.ext_getElem? fun k => ?_
  rw [List.getElem?_map]
  by_cases hk : k ∈ positions
  · obtain ⟨i, hi⟩ := List.mem_iff_getElem?.mp hk
    have hfills := hplaced.fills_iff.mpr hi
    obtain ⟨arg, param, harg, -⟩ := hfills
    rw [List.getElem?_map] at harg
    obtain ⟨g, hg, -⟩ := Option.map_eq_some_iff.mp harg
    rw [hfilled.getElem? hi (by rw [List.getElem?_map, hg]; rfl),
      (plan_eq_some_iff h.once).mpr (hplaced.fills_iff.mpr hi)]
    simp [hg]
  · rw [hfilled.getElem?_of_not_mem k hk]
    by_cases hlt : k < schema.size
    · have hfree : ∀ i, ¬ Fills schema (given.map (·.1)) i k := fun i hfills =>
        hk (List.mem_of_getElem? (hplaced.fills_iff.mp hfills))
      rw [plan_eq_none_iff.mpr ⟨hlt, hfree⟩]
      simp [hlt]
    · have hplan : (plan schema (given.map (·.1)))[k]? = none :=
        List.getElem?_eq_none (length_plan ▸ Nat.le_of_not_lt hlt)
      rw [hplan]
      simp [hlt]

end Inclusion

end Argument

section Inclusion

variable {context : CheckContext} {scope : Scope} {id : Nat} {target : String}
  {args : List Argument} {span : Span} {schema : Schema}

theorem Argument.checkAll_eq (oracle : Oracle) (scope : Scope) (args : List Argument) :
    Argument.checkAll oracle scope args =
      ⟨args.flatMap fun arg => (arg.value.check oracle scope).complaints,
        args.map fun arg => (arg, (arg.value.check oracle scope).result)⟩ := by
  induction args with
  | nil => rfl
  | cons arg args ih =>
    rw [Argument.checkAll, ih]
    simp [bind, pure]

-- An inclusion of a known target complains of its arguments' own mistakes first. It complains of
-- nothing else just if the arguments are proper, and the plan of proper arguments is exact: each
-- parameter has the argument that fills it or none, and each argument is for one parameter.
theorem Node.inclusion_plan (hschema : context.schemas target = some schema) :
    let given := args.map fun arg => (arg, (arg.value.check context.oracle scope).result)
    let plan := Argument.plan schema args
    ((Node.inclusion id target args span).check context scope).complaints =
        args.flatMap (fun arg => (arg.value.check context.oracle scope).complaints) ++
          (checkInclusion target schema span given).complaints ∧
    ((checkInclusion target schema span given).complaints = [] ↔ Argument.Proper schema given) ∧
    (Argument.Proper schema given →
      (checkInclusion target schema span given).result =
        (plan.map fun entry => entry.bind fun i => (given[i]?).map (·.2)).mapM Plan.filled? ∧
      plan.length = schema.size ∧
      (∀ (k i : Nat), plan[k]? = some (some i) ↔ Argument.Fills schema args i k) ∧
      (∀ (k : Nat), plan[k]? = some none ↔
        k < schema.size ∧ ∀ i, ¬ Argument.Fills schema args i k) ∧
      ∀ i < args.length, ∃! k : Nat, plan[k]? = some (some i)) ∧
    ∀ (text source : String) (trimLines : Bool) (t : Template) (checked : CheckedTemplate),
      Template.parse text trimLines = .ok t → t.bind context source = .ok checked →
      .inclusion id target args span ∈ t.nodes → (t.tables context).plan? id = some plan := by
  intro given plan
  have hargs : given.map (·.1) = args := by simp [given, Function.comp_def]
  refine ⟨?_, Argument.complaints_eq_nil_iff, fun h => ?_, ?_⟩
  · rw [Node.check, Argument.checkAll_eq]
    simp [hschema, given]
  · have honce := h.once
    rw [hargs] at honce
    refine ⟨?_, Argument.length_plan, fun k i => Argument.plan_eq_some_iff honce,
      fun k => Argument.plan_eq_none_iff, fun i hi => ?_⟩
    · rw [Argument.result_of_proper h, hargs]
    · have hlt : i < given.length := by simpa [given] using hi
      obtain ⟨k, hposition, param, hparam, -⟩ := h.suits (List.getElem?_eq_getElem hlt)
      have hfills : Argument.Fills schema args i k := Argument.fills_iff.mpr
        ⟨(List.getElem?_eq_some_iff.mp hparam).1, args[i], List.getElem?_eq_getElem hi,
          by simpa [given] using hposition⟩
      refine ⟨k, (Argument.plan_eq_some_iff honce).mpr hfills, fun k' hk' => ?_⟩
      exact (Argument.fills_of_plan hk').unique hfills
  · intro text source trimLines t checked hparse hbind hmem
    obtain ⟨schema', hschema', hplan⟩ := Node.plans_of_elaborateAll
      (Template.elaborates_of_bind hbind).body
      (Template.hasPlans_tables (Template.issued_of_parse hparse) context) hmem
    obtain rfl := Option.some.inj (hschema.symm.trans hschema')
    exact hplan

-- The inclusion that a body consists of: its number, its target, its arguments and its span.
def Template.inclusion? (t : Template) : Option (Nat × String × List Argument × Span) :=
  match t.body with
  | [.inclusion id target args span] => some (id, target, args, span)
  | _ => none

theorem Template.mem_of_inclusion? {t : Template}
    (h : t.inclusion? = some (id, target, args, span)) :
    .inclusion id target args span ∈ t.nodes := by
  unfold inclusion? at h
  split at h
  · next hbody =>
    cases h
    rw [Template.nodes, hbody]
    exact List.mem_cons_self
  · cases h

-- Two named arguments, the first of them for the second parameter.
theorem Node.inclusion_plan_card : ∃ t checked id args span,
    Template.parse "@template.card(count = 2, title = \"a\")" true = .ok t ∧
      t.bind ⟨Declarations.empty.oracle, fun _ => some Template.card⟩ "" = .ok checked ∧
      .inclusion id "card" args span ∈ t.nodes ∧
      (t.tables ⟨Declarations.empty.oracle, fun _ => some Template.card⟩).plan? id =
        some [some 1, some 0] ∧
      ∀ i < args.length, ∃! k : Nat, (Argument.plan Template.card args)[k]? = some (some i) := by
  let context : CheckContext := ⟨Declarations.empty.oracle, fun _ => some Template.card⟩
  have hany : (Template.parse "@template.card(count = 2, title = \"a\")" true).toOption.any fun t =>
      (t.bind context "").toOption.isSome && t.inclusion?.any fun found =>
        let args := found.2.2.1
        let given := args.map fun arg => (arg, (arg.value.check context.oracle []).result)
        found.2.1 = "card" ∧ Argument.plan Template.card args = [some 1, some 0] ∧
          (checkInclusion "card" Template.card found.2.2.2 given).complaints = [] := by
    decide +kernel
  obtain ⟨t, ht, hdecided⟩ := (Option.any_eq_true _ _).mp hany
  obtain ⟨hbind, hany⟩ := (Bool.and_eq_true _ _).mp hdecided
  obtain ⟨checked, hchecked⟩ := Option.isSome_iff_exists.mp hbind
  obtain ⟨⟨id, target, args, span⟩, hfound, hgiven⟩ := (Option.any_eq_true _ _).mp hany
  obtain ⟨rfl, hplan, hsilent⟩ := of_decide_eq_true hgiven
  have hmem := Template.mem_of_inclusion? hfound
  obtain ⟨-, hproper, hexact, hrecorded⟩ :=
    @Node.inclusion_plan context [] id "card" args span Template.card rfl
  have hentry := hrecorded _ "" true t checked (eq_ok_of_toOption ht)
    (eq_ok_of_toOption hchecked) hmem
  rw [hplan] at hentry
  exact ⟨t, checked, id, args, span, eq_ok_of_toOption ht, eq_ok_of_toOption hchecked, hmem,
    hentry, (hexact (hproper.mp hsilent)).2.2.2.2⟩

end Inclusion

end Stencil
