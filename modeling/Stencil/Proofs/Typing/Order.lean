import Mathlib.Order.Bounds.Basic
import Stencil.Proofs.Typing.Elaboration

/-!
Types in order: below a type are those whose values may stand where it is expected. What lies below
one type is a chain, so types that are brought together one by one give their least upper bound.
-/

namespace Stencil.Ty

inductive Sub : Ty → Ty → Prop
  | refl (a : Ty) : Sub a a
  | null (a : Ty) : Sub .null a
  | widen : Sub .int .float
  | list {a b : Ty} (element : Sub a b) : Sub (.list a) (.list b)

instance : LE Ty := ⟨Sub⟩

-- What the checks ask is this order.
theorem accepts_iff_le {a b : Ty} : a.accepts b = true ↔ b ≤ a := by
  constructor
  · intro h
    induction b generalizing a with
    | list b ih =>
      obtain h | rfl | ⟨-, h⟩ | ⟨c, d, rfl, h', hcd⟩ := accepts_iff.mp h
      · cases h
      · exact .refl _
      · cases h
      · obtain rfl := list.inj h'
        exact .list (ih hcd)
    | null => exact .null a
    | int =>
      obtain h | rfl | ⟨rfl, -⟩ | ⟨_, _, -, h, -⟩ := accepts_iff.mp h
      · cases h
      · exact .refl _
      · exact .widen
      · cases h
    | _ =>
      obtain h | rfl | ⟨-, h⟩ | ⟨_, _, -, h, -⟩ := accepts_iff.mp h
      · cases h
      · exact .refl _
      · cases h
      · cases h
  · intro h
    induction h with
    | refl a => exact accepts_refl a
    | null a => exact accepts_null a
    | widen => rfl
    | list _ ih => exact ih

instance : PartialOrder Ty where
  le_refl := Sub.refl
  le_trans a b c hab hbc :=
    accepts_iff_le.mp (accepts_trans (accepts_iff_le.mpr hbc) (accepts_iff_le.mpr hab))
  le_antisymm a b hab hba := by
    induction hab with
    | refl a => rfl
    | null a => cases hba <;> rfl
    | widen => cases hba
    | list _ ih =>
      cases hba with
      | refl => rfl
      | list hba => rw [ih hba]

-- Types below one type are comparable, by what its list brackets enclose.
theorem le_total_of_le {a b c : Ty} (ha : a ≤ c) (hb : b ≤ c) : a ≤ b ∨ b ≤ a := by
  induction ha generalizing b with
  | refl => exact .inr hb
  | null => exact .inl (.null b)
  | widen =>
    cases hb with
    | refl => exact .inl .widen
    | null => exact .inr (.null _)
    | widen => exact .inl (.refl _)
  | list ha ih =>
    cases hb with
    | refl => exact .inl (.list ha)
    | null => exact .inr (.null _)
    | list hb => exact (ih hb).imp .list .list

theorem isLUB_of_le {a b : Ty} (h : b ≤ a) : IsLUB {a, b} a := by
  constructor
  · rintro c (rfl | rfl)
    · exact le_refl c
    · exact h
  · intro c hc
    exact hc (.inl rfl)

-- Types that are brought together give the greater of the two.
theorem unify_eq_some_iff {a b c : Ty} : a.unify b = some c ↔ IsLUB {a, b} c := by
  constructor
  · intro h
    unfold unify at h
    split at h
    · next hab =>
      obtain rfl := Option.some.inj h
      exact isLUB_of_le (accepts_iff_le.mp hab)
    · split at h
      · next hba =>
        obtain rfl := Option.some.inj h
        rw [Set.pair_comm]
        exact isLUB_of_le (accepts_iff_le.mp hba)
      · cases h
  · intro h
    have ha : a ≤ c := h.1 (.inl rfl)
    have hb : b ≤ c := h.1 (.inr rfl)
    by_cases hba : b ≤ a
    · obtain rfl := h.unique (isLUB_of_le hba)
      simp [unify, accepts_iff_le.mpr hba]
    · have hab : a ≤ b := (le_total_of_le ha hb).resolve_right hba
      have hb' : IsLUB {a, b} b := by
        rw [Set.pair_comm]
        exact isLUB_of_le hab
      obtain rfl := h.unique hb'
      have hnot : ¬a.accepts c = true := fun hac => hba (accepts_iff_le.mp hac)
      simp [unify, hnot, accepts_iff_le.mpr hab]

theorem exists_unify_iff {a b : Ty} : (∃ c, a.unify b = some c) ↔ a ≤ b ∨ b ≤ a := by
  constructor
  · rintro ⟨c, hc⟩
    have hlub := unify_eq_some_iff.mp hc
    exact le_total_of_le (hlub.1 (.inl rfl)) (hlub.1 (.inr rfl))
  · rintro (hab | hba)
    · refine ⟨b, unify_eq_some_iff.mpr ?_⟩
      rw [Set.pair_comm]
      exact isLUB_of_le hab
    · exact ⟨a, unify_eq_some_iff.mpr (isLUB_of_le hba)⟩

-- Two types may be taken for their bound.
theorem upperBounds_insert_pair {a b c : Ty} {types : Set Ty} (h : IsLUB {a, b} c) :
    upperBounds (insert a (insert b types)) = upperBounds (insert c types) := by
  have hpair : upperBounds {a, b} = Set.Ici c := h.upperBounds_eq
  calc
    upperBounds (insert a (insert b types)) = upperBounds ({a, b} ∪ types) := by
      rw [Set.insert_union, Set.singleton_union]
    _ = Set.Ici c ∩ upperBounds types := by rw [upperBounds_union, hpair]
    _ = upperBounds (insert c types) := by rw [upperBounds_insert]

theorem foldlM_unify_eq_some_iff {a c : Ty} {types : List Ty} :
    types.foldlM unify a = some c ↔ IsLUB (insert a {b | b ∈ types}) c := by
  induction types generalizing a with
  | nil =>
    have hnone : (insert a {b | b ∈ ([] : List Ty)} : Set Ty) = {a} := by simp
    rw [hnone]
    constructor
    · intro h
      obtain rfl : a = c := by simpa using h
      exact isLUB_singleton
    · intro h
      obtain rfl := h.unique isLUB_singleton
      rfl
  | cons b types ih =>
    have hcons : (insert a {d | d ∈ b :: types} : Set Ty) =
        insert a (insert b {d | d ∈ types}) := by
      ext d
      simp
    rw [List.foldlM_cons, hcons]
    constructor
    · intro h
      obtain ⟨d, hd, h⟩ := Option.bind_eq_some_iff.mp h
      have hlub := ih.mp h
      rwa [IsLUB, ← upperBounds_insert_pair (unify_eq_some_iff.mp hd)] at hlub
    · intro h
      -- Both types are below the bound of all, so they have a bound of their own.
      have ha : a ≤ c := h.1 (.inl rfl)
      have hb : b ≤ c := h.1 (.inr (.inl rfl))
      obtain ⟨d, hd⟩ := exists_unify_iff.mpr (le_total_of_le ha hb)
      rw [IsLUB, upperBounds_insert_pair (unify_eq_some_iff.mp hd)] at h
      exact Option.bind_eq_some_iff.mpr ⟨d, hd, ih.mpr h⟩

-- Types below one type are brought together, and what they give is below it as well.
theorem exists_foldlM_unify_of_le {a d : Ty} {types : List Ty} (ha : a ≤ d)
    (htypes : ∀ b ∈ types, b ≤ d) : ∃ c, types.foldlM unify a = some c ∧ c ≤ d := by
  induction types generalizing a with
  | nil => exact ⟨a, rfl, ha⟩
  | cons b types ih =>
    obtain ⟨hb, htypes⟩ := List.forall_mem_cons.mp htypes
    obtain ⟨u, hu⟩ := exists_unify_iff.mpr (le_total_of_le ha hb)
    have hud : u ≤ d := (unify_eq_some_iff.mp hu).2 (by rintro _ (rfl | rfl) <;> assumption)
    obtain ⟨c, hc, hcd⟩ := ih hud htypes
    refine ⟨c, ?_, hcd⟩
    rw [List.foldlM_cons, hu]
    exact hc

theorem join_eq_some_iff {types : List Ty} {c : Ty} :
    join types = some c ↔ IsLUB {b | b ∈ types} c := by
  have hbot : upperBounds (insert .null {b | b ∈ types}) = upperBounds {b | b ∈ types} := by
    rw [upperBounds_insert]
    exact Set.inter_eq_right.mpr fun d _ => Sub.null d
  rw [join, foldlM_unify_eq_some_iff, IsLUB, hbot]
  rfl

theorem exists_join_iff {types : List Ty} :
    (∃ c, join types = some c) ↔ ∃ d, ∀ b ∈ types, b ≤ d := by
  constructor
  · rintro ⟨c, hc⟩
    exact ⟨c, fun b hb => (join_eq_some_iff.mp hc).1 hb⟩
  · rintro ⟨d, hd⟩
    obtain ⟨c, hc, -⟩ := exists_foldlM_unify_of_le (Sub.null d) hd
    exact ⟨c, hc⟩

end Stencil.Ty
