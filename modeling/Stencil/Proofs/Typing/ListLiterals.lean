import Stencil.Proofs.Typing.Mistakes
import Stencil.Proofs.Typing.Order

/-!
Bringing types together is a join, so the type of a list literal does not depend on the order of its
items. Nor does the complaint that they share no type, as long as each of them has one.
-/

namespace Stencil

namespace Ty

variable {a b c : Ty} {types types' : List Ty}

theorem isLUB_of_unify (h : a.unify b = some c) : IsLUB {a, b} c := unify_eq_some_iff.mp h

theorem exists_unify_iff_bounded :
    (∃ c, a.unify b = some c) ↔ ∃ c : Ty, c.accepts a = true ∧ c.accepts b = true := by
  constructor
  · rintro ⟨c, hc⟩
    exact ⟨c, accepts_of_unify hc⟩
  · rintro ⟨c, ha, hb⟩
    exact exists_unify_iff.mpr (le_total_of_le (accepts_iff_le.mp ha) (accepts_iff_le.mp hb))

theorem accepts_of_bounded (h : a.unify b = some c) {d : Ty} (ha : d.accepts a = true)
    (hb : d.accepts b = true) : d.accepts c = true := by
  refine accepts_iff_le.mpr ((isLUB_of_unify h).2 ?_)
  rintro e (rfl | rfl)
  · exact accepts_iff_le.mp ha
  · exact accepts_iff_le.mp hb

theorem unify_comm (a b : Ty) : a.unify b = b.unify a := by
  refine Option.ext fun c => ?_
  rw [unify_eq_some_iff, unify_eq_some_iff, Set.pair_comm]

theorem unify_self (a : Ty) : a.unify a = some a :=
  unify_eq_some_iff.mpr (isLUB_of_le (le_refl a))

theorem bind_unify_eq_foldlM (a b c : Ty) :
    (a.unify b).bind (·.unify c) = [b, c].foldlM unify a := by
  simp

-- Both ways to bring three types together give the least bound of all three, if there is one.
theorem unify_assoc (a b c : Ty) : (a.unify b).bind (·.unify c) = (b.unify c).bind a.unify := by
  have hturned : (b.unify c).bind a.unify = [c, a].foldlM unify b := by
    simp [unify_comm a]
  refine Option.ext fun d => ?_
  rw [bind_unify_eq_foldlM, hturned, foldlM_unify_eq_some_iff, foldlM_unify_eq_some_iff]
  have hsame : (insert a {d | d ∈ [b, c]} : Set Ty) = insert b {d | d ∈ [c, a]} := by
    ext d
    simp only [Set.mem_insert_iff, Set.mem_ofPred_eq, List.mem_cons, List.not_mem_nil, or_false]
    tauto
  rw [hsame]

theorem join_perm (h : types.Perm types') : join types = join types' := by
  refine Option.ext fun c => ?_
  have hsame : {b | b ∈ types} = {b | b ∈ types'} := Set.ext fun b => h.mem_iff
  rw [join_eq_some_iff, join_eq_some_iff, hsame]

end Ty

namespace Expr

variable {oracle : Oracle} {scope : Scope}

-- The type that is found for an expression, if one is.
def foundType? (oracle : Oracle) (scope : Scope) (e : Expr) : Option Ty :=
  (e.check oracle scope).result.map Term.type

-- The types of the leading items, up to the first that has none.
def leadingTypes (oracle : Oracle) (scope : Scope) : List Expr → List Ty
  | [] => []
  | e :: es =>
    match e.foundType? oracle scope with
    | some type => type :: leadingTypes oracle scope es
    | none => []

-- A list literal is complained of for its items and, behind that, if they share no type.
def ReportsMixed (oracle : Oracle) (scope : Scope) (m : Mark) (items : List Expr) : Prop :=
  ∃ first other span, ((list m items).check oracle scope).complaints =
    items.flatMap (fun e => (e.check oracle scope).complaints) ++ [⟨.mixedList first other, span⟩]

-- Do all of these items have types?
def AllTyped (oracle : Oracle) (scope : Scope) (items : List Expr) : Prop :=
  ∀ e ∈ items, (e.foundType? oracle scope).isSome

theorem leadingTypes_of_allTyped {items : List Expr} (h : AllTyped oracle scope items) :
    leadingTypes oracle scope items = items.filterMap (foundType? oracle scope) := by
  induction items with
  | nil => rfl
  | cons e es ih =>
    obtain ⟨he, hes⟩ := List.forall_mem_cons.mp h
    obtain ⟨type, htype⟩ := Option.isSome_iff_exists.mp he
    simp [leadingTypes, htype, ih hes]

theorem length_leadingTypes_iff {items : List Expr} :
    (leadingTypes oracle scope items).length = items.length ↔ AllTyped oracle scope items := by
  unfold AllTyped
  induction items with
  | nil => simp [leadingTypes]
  | cons e es ih =>
    rw [List.forall_mem_cons, ← ih]
    cases htype : e.foundType? oracle scope <;> simp [leadingTypes, htype]

-- Items with what checking them gave.
abbrev checkedItems (oracle : Oracle) (scope : Scope) (items : List Expr) :
    List (Span × Option Term) :=
  items.map fun e => (e.span, (e.check oracle scope).result)

-- The items are brought together as long as they have types and share one.
theorem checkItems_cases (oracle : Oracle) (scope : Scope) (t : Ty) (items : List Expr) :
    (∃ u, (leadingTypes oracle scope items).foldlM Ty.unify t = some u ∧
        checkItems t (checkedItems oracle scope items) =
          pure (if (leadingTypes oracle scope items).length = items.length then some u else none)) ∨
      ∃ first other span, (leadingTypes oracle scope items).foldlM Ty.unify t = none ∧
        checkItems t (checkedItems oracle scope items) =
          Check.reject (.mixedList first other) span := by
  induction items generalizing t with
  | nil => exact .inl ⟨t, rfl, rfl⟩
  | cons e es ih =>
    cases hresult : (e.check oracle scope).result with
    | none =>
      have hleading : leadingTypes oracle scope (e :: es) = [] := by
        simp [leadingTypes, foundType?, hresult]
      refine .inl ⟨t, by rw [hleading]; rfl, ?_⟩
      simp [hleading, hresult, checkItems]
    | some term =>
      have hleading : leadingTypes oracle scope (e :: es) =
          term.type :: leadingTypes oracle scope es := by
        simp [leadingTypes, foundType?, hresult]
      rw [hleading, List.foldlM_cons, checkedItems, List.map_cons, hresult]
      simp only [checkItems]
      cases hunify : t.unify term.type with
      | none => exact .inr ⟨t, term.type, e.span, rfl, rfl⟩
      | some v => simpa using ih v

theorem reportsMixed_iff {m : Mark} {items : List Expr} :
    ReportsMixed oracle scope m items ↔ Ty.join (leadingTypes oracle scope items) = none := by
  unfold ReportsMixed Ty.join
  rw [complaints_eq]
  change (∃ first other span, _ ++ (checkOwn oracle scope (list m items)
    (checkedItems oracle scope items)).complaints = _) ↔ _
  simp only [operands, List.append_cancel_left_eq, checkOwn, Check.complaints_bind]
  rcases checkItems_cases oracle scope .null items with
    ⟨u, hjoin, hcheck⟩ | ⟨first, other, span, hjoin, hcheck⟩
  · simp [hjoin, hcheck]
  · simp [hjoin, hcheck, Check.reject]

theorem exists_mapM_of_allTyped {items : List Expr} (h : AllTyped oracle scope items) :
    ∃ ts, (checkedItems oracle scope items).mapM Prod.snd = some ts := by
  refine Option.ne_none_iff_exists'.mp fun hnone => ?_
  obtain ⟨arg, harg, hnone⟩ := mapM_snd_eq_none_iff.mp hnone
  obtain ⟨e, he, rfl⟩ := List.mem_map.mp harg
  have hresult : (e.check oracle scope).result = none := hnone
  have htyped := h e he
  rw [foundType?, hresult] at htyped
  cases htyped

-- A list literal has a type just if all its items have types, and these a bound.
theorem foundType?_list {m : Mark} {items : List Expr} :
    (list m items).foundType? oracle scope =
      if (leadingTypes oracle scope items).length = items.length then
        (Ty.join (leadingTypes oracle scope items)).map .list
      else none := by
  have hresult : ((list m items).check oracle scope).result =
      (checkItems .null (checkedItems oracle scope items)).result.bind
        fun element => ((checkedItems oracle scope items).mapM Prod.snd).map fun ts =>
          .list ⟨m.id, .list element⟩ ts := by
    simp only [result_eq, Option.map_eq_bind]
    rfl
  unfold foundType? Ty.join
  rw [hresult]
  rcases checkItems_cases oracle scope .null items with
    ⟨u, hjoin, hcheck⟩ | ⟨first, other, span, hjoin, hcheck⟩
  · rw [hjoin, hcheck]
    split
    · next hlength =>
      obtain ⟨ts, hts⟩ := exists_mapM_of_allTyped (length_leadingTypes_iff.mp hlength)
      rw [hts]
      rfl
    · rfl
  · rw [hjoin, hcheck]
    split <;> rfl

theorem AllTyped.perm {items items' : List Expr} (h : items.Perm items') :
    AllTyped oracle scope items ↔ AllTyped oracle scope items' :=
  forall_congr' fun _ => imp_congr_left h.mem_iff

theorem join_leadingTypes_perm {items items' : List Expr} (h : items.Perm items')
    (htyped : AllTyped oracle scope items) :
    Ty.join (leadingTypes oracle scope items) = Ty.join (leadingTypes oracle scope items') := by
  rw [leadingTypes_of_allTyped htyped, leadingTypes_of_allTyped ((AllTyped.perm h).mp htyped)]
  exact Ty.join_perm (h.filterMap _)

-- A list literal has the same type in whatever order its items stand.
theorem foundType?_list_perm {m m' : Mark} {items items' : List Expr} (h : items.Perm items') :
    (list m items).foundType? oracle scope = (list m' items').foundType? oracle scope := by
  rw [foundType?_list, foundType?_list]
  by_cases htyped : AllTyped oracle scope items
  · have htyped' := (AllTyped.perm h).mp htyped
    rw [if_pos (length_leadingTypes_iff.mpr htyped), if_pos (length_leadingTypes_iff.mpr htyped'),
      join_leadingTypes_perm h htyped]
  · have htyped' := mt (AllTyped.perm h).mpr htyped
    rw [if_neg (mt length_leadingTypes_iff.mp htyped),
      if_neg (mt length_leadingTypes_iff.mp htyped')]

theorem reportsMixed_perm {m m' : Mark} {items items' : List Expr} (h : items.Perm items')
    (htyped : AllTyped oracle scope items) :
    ReportsMixed oracle scope m items ↔ ReportsMixed oracle scope m' items' := by
  rw [reportsMixed_iff, reportsMixed_iff, join_leadingTypes_perm h htyped]

theorem reportsMixed_iff_unbounded {m : Mark} {items : List Expr} :
    ReportsMixed oracle scope m items ↔
      ¬∃ c : Ty, ∀ type ∈ leadingTypes oracle scope items, c.accepts type = true := by
  simp only [reportsMixed_iff, Ty.accepts_iff_le, ← Ty.exists_join_iff,
    ← Option.ne_none_iff_exists', not_not]

end Expr

-- Acceptance is a partial order.
structure Ty.AcceptsInOrder : Prop where
  refl : ∀ a : Ty, a.accepts a = true
  trans : ∀ a b c : Ty, a.accepts b = true → b.accepts c = true → a.accepts c = true
  antisymm : ∀ a b : Ty, a.accepts b = true → b.accepts a = true → a = b

-- Bringing two types together gives the least type that accepts both, where some type does.
structure Ty.UnifyJoins : Prop where
  exists_iff : ∀ a b : Ty,
    (∃ u, a.unify b = some u) ↔ ∃ c : Ty, c.accepts a = true ∧ c.accepts b = true
  least : ∀ a b u : Ty, a.unify b = some u →
    u.accepts a = true ∧ u.accepts b = true ∧
      ∀ c : Ty, c.accepts a = true → c.accepts b = true → c.accepts u = true
  comm : ∀ a b : Ty, a.unify b = b.unify a
  idem : ∀ a : Ty, a.unify a = some a
  assoc : ∀ a b c : Ty, (a.unify b).bind (·.unify c) = (b.unify c).bind a.unify

-- In whatever order its items stand, a list literal has the same type. The first item without a
-- type ends the comparison, so it is reported as mixed just if the items up to there share no type;
-- where all items have types, the order does not matter to that either.
structure Expr.ListsUnordered (oracle : Oracle) (scope : Scope) : Prop where
  type_perm : ∀ (m m' : Mark) (items items' : List Expr), items.Perm items' →
    (Expr.list m items).foundType? oracle scope = (Expr.list m' items').foundType? oracle scope
  mixed_perm : ∀ (m m' : Mark) (items items' : List Expr), items.Perm items' →
    Expr.AllTyped oracle scope items →
      (Expr.ReportsMixed oracle scope m items ↔ Expr.ReportsMixed oracle scope m' items')
  mixed_iff : ∀ (m : Mark) (items : List Expr), Expr.ReportsMixed oracle scope m items ↔
    ¬∃ c : Ty, ∀ type ∈ Expr.leadingTypes oracle scope items, c.accepts type = true

theorem unify_joins_accepted : Ty.AcceptsInOrder ∧ Ty.UnifyJoins ∧
    ∀ (oracle : Oracle) (scope : Scope), Expr.ListsUnordered oracle scope := by
  refine ⟨⟨Ty.accepts_refl, fun _ _ _ => Ty.accepts_trans, fun a b hab hba => ?_⟩,
    ⟨fun _ _ => Ty.exists_unify_iff_bounded, fun a b u h => ?_, Ty.unify_comm, Ty.unify_self,
      Ty.unify_assoc⟩,
    fun oracle scope => ⟨fun _ _ _ _ => Expr.foundType?_list_perm,
      fun _ _ _ _ => Expr.reportsMixed_perm, fun _ _ => Expr.reportsMixed_iff_unbounded⟩⟩
  · exact le_antisymm (Ty.accepts_iff_le.mp hba) (Ty.accepts_iff_le.mp hab)
  · obtain ⟨ha, hb⟩ := Ty.accepts_of_unify h
    exact ⟨ha, hb, fun c => Ty.accepts_of_bounded h⟩

-- Is it the same to the complaint in whatever order the items stand, typed or not?
def MixedUnordered : Prop :=
  ∀ (oracle : Oracle) (scope : Scope) (m : Mark) (items items' : List Expr), items.Perm items' →
    (Expr.ReportsMixed oracle scope m items ↔ Expr.ReportsMixed oracle scope m items')

-- A name that is not known hides that the items behind it share no type.
theorem not_mixedUnordered : ¬MixedUnordered := by
  intro h
  let one : Expr := .literal ⟨0, 3, 4⟩ (.int 1)
  let text : Expr := .literal ⟨1, 6, 9⟩ (.text "a")
  let unknown : Expr := .name ⟨2, 11, 12⟩ "x"
  have hiff := h Declarations.empty.oracle [] ⟨3, 2, 13⟩ [one, text, unknown] [unknown, one, text]
    (List.perm_append_singleton unknown [one, text])
  rw [Expr.reportsMixed_iff, Expr.reportsMixed_iff] at hiff
  have hnone : Ty.join (Expr.leadingTypes Declarations.empty.oracle [] [unknown, one, text]) =
    none := hiff.mp (by decide)
  cases hnone

end Stencil
