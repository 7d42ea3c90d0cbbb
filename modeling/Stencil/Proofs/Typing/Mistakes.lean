import Stencil.Proofs.Typing.Recorded

/-!
Mistakes in expressions. An expression has no type just if it was complained of, or if it reads a
name that has none, and what is made of it is not complained of again.
-/

namespace Stencil

namespace Check

variable {α β : Type}

-- No result is given just where there is a complaint, or for a reason that was there before.
def Fails (c : Check (Option α)) (reason : Prop) : Prop :=
  c.result = none ↔ c.complaints ≠ [] ∨ reason

theorem fails_pure_some {a : α} : (pure (some a) : Check (Option α)).Fails False := by
  simp [Fails]

theorem fails_reject {problem : Problem} {span : Span} {reason : Prop} :
    (reject problem span : Check (Option α)).Fails reason := by
  simp [Fails, reject]

-- What is made of a result fails where there is none, and else of its own accord.
theorem Fails.bind {c : Check (Option α)} {f : Option α → Check (Option β)} {reason : Prop}
    (h : c.Fails reason) (hnone : f none = pure none) (hsome : ∀ a, (f (some a)).Fails False) :
    (c >>= f).Fails reason := by
  unfold Fails at h ⊢
  rw [result_bind, complaints_bind]
  cases hc : c.result with
  | none =>
    rw [hnone, complaints_pure, List.append_nil]
    exact iff_of_true rfl (h.mp hc)
  | some a =>
    have hright : ¬ (c.complaints ≠ [] ∨ reason) := by
      rw [← h, hc]
      exact Option.some_ne_none a
    obtain ⟨hpass, hreason⟩ := not_or.mp hright
    have ha : (f (some a)).result = none ↔ (f (some a)).complaints ≠ [] ∨ False := hsome a
    rw [ha, not_not.mp hpass, List.nil_append]
    exact or_congr_right (iff_of_false not_false hreason)

theorem Fails.map {c : Check (Option α)} {reason : Prop} (h : c.Fails reason) (f : α → β) :
    (do return (← c).map f : Check (Option β)).Fails reason := by
  unfold Fails at h ⊢
  simpa using h

end Check

namespace Expr

open Check (Fails fails_pure_some fails_reject)

variable {oracle : Oracle} {scope : Scope}

-- The expression reads a visible name that has no type.
def ReadsUntyped (scope : Scope) (e : Expr) : Prop :=
  ∃ m ident slot, .name m ident ∈ e.parts ∧ scope.find? ident = some (slot, none)

-- One of these expressions has no type.
abbrev AnyUntyped (args : List (Span × Option Term)) : Prop := ∃ arg ∈ args, arg.2 = none

theorem fails_checkItems {t : Ty} {items : List (Span × Option Term)} :
    (checkItems t items).Fails (AnyUntyped items) := by
  induction items generalizing t with
  | nil => simp [checkItems, Fails]
  | cons item items ih =>
    obtain ⟨span, item⟩ := item
    cases item with
    | none => simp [checkItems, Fails]
    | some item =>
      simp only [checkItems]
      split
      · next u _ => simpa [Fails] using ih
      · exact fails_reject

theorem fails_checkEach {method : String} {position : Nat} {params : List Ty}
    {args : List (Span × Option Term)} (hlength : params.length = args.length) :
    (checkEach method position params args).Fails (AnyUntyped args) := by
  induction params generalizing position args with
  | nil =>
    obtain rfl : args = [] := List.length_eq_zero_iff.mp hlength.symm
    simp [checkEach, Fails]
  | cons expected params ih =>
    cases args with
    | nil => cases hlength
    | cons arg args =>
      obtain ⟨span, arg⟩ := arg
      have hrest : (checkEach method (position + 1) params args).Fails (AnyUntyped args) :=
        ih (by simpa using hlength)
      unfold Fails at hrest ⊢
      cases arg with
      | none => simp [checkEach]
      | some t =>
        by_cases haccepts : expected.accepts t.type = true
        · simpa [checkEach, haccepts, ← Option.eq_none_iff_forall_ne_some] using hrest
        · simp [checkEach, haccepts, Check.reject]

theorem mapM_snd_eq_none_iff {args : List (Span × Option Term)} :
    args.mapM (·.2) = none ↔ AnyUntyped args := by
  induction args with
  | nil => simp
  | cons arg args ih =>
    obtain ⟨span, arg⟩ := arg
    cases arg with
    | none => simp
    | some t => simpa [← Option.eq_none_iff_forall_ne_some] using ih

theorem fails_checkArgs {method : String} {span : Span} {params : List Ty}
    {args : List (Span × Option Term)} :
    (checkArgs method span params args).Fails (AnyUntyped args) := by
  unfold checkArgs
  split
  · next hlength => exact fails_checkEach hlength
  · exact fails_reject

theorem fails_checkMember {m : Mark} {object : Term} {name : String} :
    (checkMember oracle m object name).Fails False := by
  unfold checkMember
  split
  · split
    · exact fails_pure_some
    · exact fails_reject
    · exact fails_reject
  · split <;> exact fails_reject

theorem length_of_checkArgs {method : String} {span : Span} {params : List Ty}
    {args : List (Span × Option Term)} {ts : List Term}
    (h : (checkArgs method span params args).result = some ts) : ts.length = params.length := by
  have hnone : (checkArgs method span params args).complaints = [] := by
    by_contra hne
    exact Option.some_ne_none ts (h.symm.trans (fails_checkArgs.mpr (.inl hne)))
  have hpure : checkArgs method span params args = pure (some ts) := by
    rw [← h]
    exact congrArg (Check.mk · _) hnone
  exact (accepted_of_checkArgs hpure).2.length_eq.symm

theorem fails_checkCall {m : Mark} {object : Term} {name : String}
    {args : List (Span × Option Term)} :
    (checkCall oracle m object name args).Fails (AnyUntyped args) := by
  unfold checkCall
  split
  · split
    · exact fails_checkArgs.map _
    · exact fails_reject
    · exact fails_reject
  · split
    · exact fails_checkArgs.map _
    · next element _ =>
      -- The one argument that there is a parameter for is there.
      have hone : ∀ ts, (checkArgs name m.span [element] args).result = some ts → ts ≠ [] := by
        rintro _ hts rfl
        cases length_of_checkArgs hts
      have hargs : (checkArgs name m.span [element] args).Fails (AnyUntyped args) :=
        fails_checkArgs
      unfold Fails at hargs ⊢
      simp only [Check.result_bind, Check.result_pure, Check.complaints_bind,
        Check.complaints_pure, List.append_nil, Option.map_eq_none_iff, ← hargs]
      cases hresult : (checkArgs name m.span [element] args).result with
      | none => simp
      | some ts => simpa using hone ts hresult
    · exact fails_reject

theorem readsUntyped_iff {e : Expr} : e.ReadsUntyped scope ↔
    (∃ m ident slot, e = .name m ident ∧ scope.find? ident = some (slot, none)) ∨
      ∃ o ∈ e.operands, o.ReadsUntyped scope := by
  unfold ReadsUntyped
  rw [parts_eq]
  constructor
  · rintro ⟨m, ident, slot, hmem, hfound⟩
    rcases List.mem_cons.mp hmem with rfl | hmem
    · exact .inl ⟨m, ident, slot, rfl, hfound⟩
    · obtain ⟨o, ho, hpart⟩ := List.mem_flatMap.mp hmem
      exact .inr ⟨o, ho, m, ident, slot, hpart, hfound⟩
  · rintro (⟨m, ident, slot, rfl, hfound⟩ | ⟨o, ho, m, ident, slot, hpart, hfound⟩)
    · exact ⟨m, ident, slot, List.mem_cons_self, hfound⟩
    · exact ⟨m, ident, slot, List.mem_cons_of_mem _ (List.mem_flatMap.mpr ⟨o, ho, hpart⟩), hfound⟩

theorem anyUntyped_checkedOperands {e : Expr} : AnyUntyped (e.checkedOperands oracle scope) ↔
    ∃ o ∈ e.operands, (o.check oracle scope).result = none := by
  simp [AnyUntyped, checkedOperands]

-- But for names, an expression of its own accord fails only where an operand has.
theorem fails_checkOwn {e : Expr} {terms : List (Span × Option Term)}
    (hname : ∀ m ident, e ≠ .name m ident) (hlength : terms.length = e.operands.length) :
    (checkOwn oracle scope e terms).Fails (AnyUntyped terms) := by
  cases e with
  | literal m value =>
    obtain rfl := List.length_eq_zero_iff.mp hlength
    simp [checkOwn, check, Fails]
  | name m ident => exact absurd rfl (hname m ident)
  | list m items =>
    have hitems : (checkItems .null terms).Fails (AnyUntyped terms) := fails_checkItems
    unfold Fails at hitems ⊢
    simp only [checkOwn, Check.result_bind, Check.result_pure, Check.complaints_bind,
      Check.complaints_pure, List.append_nil, ← hitems]
    cases hjoined : (checkItems .null terms).result with
    | none => simp
    | some element =>
      have htyped : terms.mapM (·.2) ≠ none := fun hnone =>
        Option.some_ne_none element
          (hjoined.symm.trans (hitems.mpr (.inr (mapM_snd_eq_none_iff.mp hnone))))
      obtain ⟨ts, hts⟩ := Option.ne_none_iff_exists'.mp htyped
      simp [hts]
  | member m object field =>
    obtain ⟨⟨span, object⟩, rfl⟩ := List.length_eq_one_iff.mp hlength
    cases object with
    | none => simp [checkOwn, Fails]
    | some o => simpa [checkOwn, Fails] using fails_checkMember
  | call m object method args =>
    obtain ⟨⟨span, object⟩, terms, rfl⟩ := List.exists_cons_of_length_eq_add_one hlength
    cases object with
    | none => simp [checkOwn, Fails]
    | some o => simpa [checkOwn, Fails] using fails_checkCall
  | unary m op operand =>
    obtain ⟨⟨span, operand⟩, rfl⟩ := List.length_eq_one_iff.mp hlength
    cases operand with
    | none => simp [checkOwn, Fails]
    | some t => cases hop : op.type? t.type <;> simp [checkOwn, hop, Fails, Check.reject]
  | binary m op lhs rhs =>
    obtain ⟨⟨span, a⟩, ⟨span', b⟩, rfl⟩ := List.length_eq_two.mp hlength
    cases a with
    | none => cases b <;> simp [checkOwn, Fails]
    | some a =>
      cases b with
      | none => simp [checkOwn, Fails]
      | some b => cases hop : op.type? a.type b.type <;> simp [checkOwn, hop, Fails, Check.reject]

-- An expression has no type just if something in it was complained of or reads a name without one.
theorem fails_check : ∀ e : Expr, (e.check oracle scope).Fails (e.ReadsUntyped scope) := by
  refine of_operands fun e ih => ?_
  by_cases hname : ∃ m ident, e = .name m ident
  · obtain ⟨m, ident, rfl⟩ := hname
    rw [check]
    cases hfound : scope.find? ident with
    | none => exact fails_reject
    | some found =>
      obtain ⟨slot, type⟩ := found
      simp [Fails, ReadsUntyped, parts, hfound]
  · have hown : (checkOwn oracle scope e (e.checkedOperands oracle scope)).Fails
        (AnyUntyped (e.checkedOperands oracle scope)) :=
      fails_checkOwn (by simpa using hname) (by simp [checkedOperands])
    have hoperands : AnyUntyped (e.checkedOperands oracle scope) ↔
        (∃ o ∈ e.operands, (o.check oracle scope).complaints ≠ []) ∨
          ∃ o ∈ e.operands, o.ReadsUntyped scope := by
      rw [anyUntyped_checkedOperands, ← exists_or]
      refine exists_congr fun o => ?_
      rw [← and_or_left]
      exact and_congr_right (ih o)
    have hcomplaints : e.operands.flatMap (fun o => (o.check oracle scope).complaints) ≠ [] ↔
        ∃ o ∈ e.operands, (o.check oracle scope).complaints ≠ [] := by
      simp [List.flatMap_eq_nil_iff]
    have hreads : e.ReadsUntyped scope ↔ ∃ o ∈ e.operands, o.ReadsUntyped scope := by
      rw [readsUntyped_iff]
      exact or_iff_right fun ⟨m, ident, _, he, _⟩ => hname ⟨m, ident, he⟩
    unfold Fails at hown ⊢
    rw [result_eq, hown, hoperands, complaints_eq, hreads, ← hcomplaints, or_left_comm]
    simp only [ne_eq, List.append_eq_nil_iff, not_and_or, or_assoc]

-- The operands that have to have a type for anything to be said of the expression itself.
def subjects : Expr → List Expr
  | .literal _ _ | .name _ _ | .list _ _ => []
  | .member _ object _ | .call _ object _ _ => [object]
  | .unary _ _ operand => [operand]
  | .binary _ _ lhs rhs => [lhs, rhs]

theorem checkOwn_of_untyped {e : Expr}
    (h : ∃ o ∈ e.subjects, (o.check oracle scope).result = none) :
    checkOwn oracle scope e (e.checkedOperands oracle scope) = pure none := by
  obtain ⟨o, ho, hnone⟩ := h
  cases e with
  | literal m value => cases ho
  | name m ident => cases ho
  | list m items => cases ho
  | member m object field =>
    obtain rfl := List.mem_singleton.mp ho
    simp [checkedOperands, operands, checkOwn, hnone]
  | call m object method args =>
    obtain rfl := List.mem_singleton.mp ho
    simp [checkedOperands, operands, checkOwn, hnone]
  | unary m op operand =>
    obtain rfl := List.mem_singleton.mp ho
    simp [checkedOperands, operands, checkOwn, hnone]
  | binary m op lhs rhs =>
    obtain rfl | rfl : o = lhs ∨ o = rhs := by simpa [subjects] using ho
    · simp [checkedOperands, operands, checkOwn, hnone]
    · cases hlhs : (lhs.check oracle scope).result <;>
        simp [checkedOperands, operands, checkOwn, hlhs, hnone]

-- What is made of an operand without a type is not complained of.
theorem complaints_of_untyped {e : Expr}
    (h : ∃ o ∈ e.subjects, (o.check oracle scope).result = none) :
    (e.check oracle scope).complaints =
      e.operands.flatMap fun o => (o.check oracle scope).complaints := by
  rw [complaints_eq, checkOwn_of_untyped h, Check.complaints_pure, List.append_nil]

theorem complaints_checkCondition_of_untyped {e : Expr} (h : (e.check oracle scope).result = none) :
    (e.checkCondition oracle scope).complaints = (e.check oracle scope).complaints := by
  simp [checkCondition, h]

theorem complaints_checkShown_of_untyped {e : Expr} (h : (e.check oracle scope).result = none) :
    (e.checkShown oracle scope).complaints = (e.check oracle scope).complaints := by
  simp [checkShown, h]

theorem complaints_checkIterable_of_untyped {e : Expr} (h : (e.check oracle scope).result = none) :
    (e.checkIterable oracle scope).complaints = (e.check oracle scope).complaints := by
  simp [checkIterable, h]

theorem fails_checkIterable (e : Expr) :
    (e.checkIterable oracle scope).Fails (e.ReadsUntyped scope) := by
  refine (fails_check e).bind rfl fun t => ?_
  dsimp only
  split
  · exact fails_pure_some
  · exact fails_reject

end Expr

end Stencil
