import Mathlib.Data.List.Forall2
import Stencil.Typing.Template

/-!
Which term an expression stands for, as rules. A check that has no complaint finds it.
-/

namespace Stencil

namespace Check

variable {α β : Type}

@[simp] theorem pure_eq_pure {a b : α} : (pure a : Check α) = pure b ↔ a = b := by
  constructor
  · intro h
    exact congrArg Check.result h
  · rintro rfl
    rfl

-- A check is without complaint just if all its steps are.
theorem bind_eq_pure {c : Check α} {f : α → Check β} {b : β} :
    c >>= f = pure b ↔ ∃ a, c = pure a ∧ f a = pure b := by
  constructor
  · intro h
    have hcomplaints := congrArg Check.complaints h
    simp only [complaints_bind, complaints_pure, List.append_eq_nil_iff] at hcomplaints
    obtain ⟨hc, hf⟩ := hcomplaints
    have hresult : (f c.result).result = b := congrArg Check.result h
    refine ⟨c.result, ?_, ?_⟩
    · calc
        c = ⟨c.complaints, c.result⟩ := rfl
        _ = pure c.result := by rw [hc]; rfl
    · calc
        f c.result = ⟨(f c.result).complaints, (f c.result).result⟩ := rfl
        _ = pure b := by rw [hf, hresult]; rfl
  · rintro ⟨a, rfl, hf⟩
    exact hf

-- A check that asks more of what is there asks nothing where nothing is.
theorem bind_option_eq_pure {c : Check (Option α)} {f : Option α → Check (Option β)}
    {r : Option β} (hnone : f none = pure none) :
    c >>= f = pure r ↔
      r = none ∧ c = pure none ∨ ∃ a, c = pure (some a) ∧ f (some a) = pure r := by
  rw [bind_eq_pure, Option.exists, hnone, pure_eq_pure]
  exact or_congr_left ⟨fun h => ⟨h.2.symm, h.1⟩, fun h => ⟨h.2, h.1.symm⟩⟩

@[simp] theorem reject_eq_pure {problem : Problem} {span : Span} {a : Option α} :
    reject problem span = pure a ↔ False := by
  constructor
  · intro h
    cases congrArg Check.complaints h
  · exact False.elim

@[simp] theorem complain_eq_pure {problem : Problem} {span : Span} {a : Unit} :
    complain problem span = pure a ↔ False := by
  constructor
  · intro h
    cases congrArg Check.complaints h
  · exact False.elim

end Check

namespace Expr

variable {oracle : Oracle} {scope : Scope} {e : Expr}

-- What a use of an expression asks beyond its being right, it asks of its type.
theorem checkCondition_eq_pure {r : Option Term} :
    e.checkCondition oracle scope = pure r ↔ r = none ∧ e.check oracle scope = pure none ∨
      ∃ t, r = some t ∧ e.check oracle scope = pure (some t) ∧ t.type = .bool := by
  rw [checkCondition, Check.bind_option_eq_pure]
  · refine or_congr_right (exists_congr fun t => ?_)
    by_cases htype : t.type = .bool <;> simp [htype, and_comm, @eq_comm _ r]
  · rfl

theorem checkShown_eq_pure {r : Option Term} :
    e.checkShown oracle scope = pure r ↔ r = none ∧ e.check oracle scope = pure none ∨
      ∃ t, r = some t ∧ e.check oracle scope = pure (some t) ∧ t.type.isRenderable = true := by
  rw [checkShown, Check.bind_option_eq_pure]
  · refine or_congr_right (exists_congr fun t => ?_)
    by_cases htype : t.type.isRenderable <;> simp [htype, and_comm, @eq_comm _ r]
  · rfl

theorem checkIterable_eq_pure {r : Option (Term × Ty)} :
    e.checkIterable oracle scope = pure r ↔ r = none ∧ e.check oracle scope = pure none ∨
      ∃ t τ, r = some (t, τ) ∧ e.check oracle scope = pure (some t) ∧ t.type = .list τ := by
  rw [checkIterable, Check.bind_option_eq_pure]
  · refine or_congr_right (exists_congr fun t => ?_)
    cases htype : t.type <;> simp [htype, and_comm, @eq_comm _ r]
  · rfl

theorem checkCondition_eq_some {t : Term} : e.checkCondition oracle scope = pure (some t) ↔
    e.check oracle scope = pure (some t) ∧ t.type = .bool := by
  simp [checkCondition_eq_pure]

theorem checkShown_eq_some {t : Term} : e.checkShown oracle scope = pure (some t) ↔
    e.check oracle scope = pure (some t) ∧ t.type.isRenderable = true := by
  simp [checkShown_eq_pure]

theorem checkIterable_eq_some {t : Term} {τ : Ty} :
    e.checkIterable oracle scope = pure (some (t, τ)) ↔
      e.check oracle scope = pure (some t) ∧ t.type = .list τ := by
  simp [checkIterable_eq_pure]

end Expr

-- The type that accepts all of some types.
def Ty.join (types : List Ty) : Option Ty := types.foldlM Ty.unify .null

mutual

-- An expression, in a scope, stands for a term.
inductive Expr.Elaborates (oracle : Oracle) (scope : Scope) : Expr → Term → Prop
  | literal (m : Mark) (value : Literal) :
    Elaborates oracle scope (.literal m value) (.literal ⟨m.id, value.type⟩ value)
  | name {m : Mark} {ident : String} {slot : Nat} {type : Ty}
      (found : scope.find? ident = some (slot, some type)) :
    Elaborates oracle scope (.name m ident) (.slot ⟨m.id, type⟩ slot)
  | list {m : Mark} {items : List Expr} {ts : List Term} {element : Ty}
      (items_elaborate : Expr.ElaborateAll oracle scope items ts)
      (joined : Ty.join (ts.map Term.type) = some element) :
    Elaborates oracle scope (.list m items) (.list ⟨m.id, .list element⟩ ts)
  | field {m : Mark} {object : Expr} {o : Term} {owner name : String} {type : Ty}
      (object_elaborates : Expr.Elaborates oracle scope object o) (typed : o.type = .record owner)
      (found : oracle.member owner name = some (.field type)) :
    Elaborates oracle scope (.member m object name) (.field ⟨m.id, type⟩ o name)
  | method {m : Mark} {object : Expr} {o : Term} {owner name : String} {params : List Ty}
      {returns : Ty} {args : List Expr} {ts : List Term}
      (object_elaborates : Expr.Elaborates oracle scope object o) (typed : o.type = .record owner)
      (found : oracle.member owner name = some (.method params returns))
      (args_elaborate : Expr.ElaborateAll oracle scope args ts)
      (accepted : List.Forall₂ (fun param t => param.accepts t.type = true) params ts) :
    Elaborates oracle scope (.call m object name args) (.method ⟨m.id, returns⟩ o name ts)
  | builtin {m : Mark} {object : Expr} {o : Term} {name : String} {b : Builtin} {returns : Ty}
      (object_elaborates : Expr.Elaborates oracle scope object o)
      (found : BuiltinMethod.find? o.type name = some (.plain b returns)) :
    Elaborates oracle scope (.call m object name []) (.builtin ⟨m.id, returns⟩ o b)
  | contains {m : Mark} {object needle : Expr} {o n : Term} {name : String} {element : Ty}
      (object_elaborates : Expr.Elaborates oracle scope object o)
      (found : BuiltinMethod.find? o.type name = some (.contains element))
      (needle_elaborates : Expr.Elaborates oracle scope needle n)
      (accepted : element.accepts n.type = true) :
    Elaborates oracle scope (.call m object name [needle]) (.contains ⟨m.id, .bool⟩ o n)
  | unary {m : Mark} {op : UnaryOp} {operand : Expr} {t : Term} {type : Ty}
      (operand_elaborates : Expr.Elaborates oracle scope operand t)
      (typed : op.type? t.type = some type) :
    Elaborates oracle scope (.unary m op operand) (.unary ⟨m.id, type⟩ op t)
  | binary {m : Mark} {op : BinaryOp} {lhs rhs : Expr} {a b : Term} {type : Ty}
      (lhs_elaborates : Expr.Elaborates oracle scope lhs a)
      (rhs_elaborates : Expr.Elaborates oracle scope rhs b)
      (typed : op.type? a.type b.type = some type) :
    Elaborates oracle scope (.binary m op lhs rhs) (.binary ⟨m.id, type⟩ op a b)

inductive Expr.ElaborateAll (oracle : Oracle) (scope : Scope) : List Expr → List Term → Prop
  | nil : ElaborateAll oracle scope [] []
  | cons {e : Expr} {t : Term} {es : List Expr} {ts : List Term}
      (first : Expr.Elaborates oracle scope e t) (rest : Expr.ElaborateAll oracle scope es ts) :
    ElaborateAll oracle scope (e :: es) (t :: ts)

end

namespace Expr

-- Expressions that were all found to be right, with their terms.
def Checked (args : List (Span × Option Term)) (ts : List Term) : Prop :=
  List.Forall₂ (fun arg t => arg.2 = some t) args ts

theorem mapM_snd_eq_some_iff {args : List (Span × Option Term)} {ts : List Term} :
    args.mapM (·.2) = some ts ↔ Checked args ts := by
  induction args generalizing ts with
  | nil => simp [Checked, eq_comm]
  | cons arg args ih =>
    obtain ⟨span, arg⟩ := arg
    cases arg with
    | none => simp [Checked, List.forall₂_cons_left_iff]
    | some t =>
      simp only [List.mapM_cons, Checked, List.forall₂_cons_left_iff, Option.some.injEq]
      constructor
      · intro h
        obtain ⟨_, ht, h⟩ := Option.bind_eq_some_iff.mp h
        obtain rfl : t = _ := Option.some.inj ht
        obtain ⟨us, hus, h⟩ := Option.bind_eq_some_iff.mp h
        exact ⟨t, us, rfl, ih.mp hus, (Option.some.inj h).symm⟩
      · rintro ⟨_, us, rfl, hus, rfl⟩
        have hrest : args.mapM (·.2) = some us := ih.mpr hus
        simp [hrest]

theorem foldlM_of_checkItems {t u : Ty} {items : List (Span × Option Term)} {ts : List Term}
    (h : checkItems t items = pure (some u)) (hts : Checked items ts) :
    (ts.map Term.type).foldlM Ty.unify t = some u := by
  induction hts generalizing t with
  | nil => simpa [checkItems] using h
  | @cons item first items rest hitem hrest ih =>
    obtain ⟨span, item⟩ := item
    obtain rfl : item = some first := hitem
    simp only [checkItems] at h
    split at h
    · next v hv => simpa [hv] using ih h
    · simp at h

theorem accepted_of_checkEach {method : String} {position : Nat} {params : List Ty}
    {args : List (Span × Option Term)} {ts : List Term} (hlength : params.length = args.length)
    (h : checkEach method position params args = pure (some ts)) :
    Checked args ts ∧ List.Forall₂ (fun param t => param.accepts t.type = true) params ts := by
  induction params generalizing position args ts with
  | nil =>
    obtain rfl : args = [] := List.length_eq_zero_iff.mp hlength.symm
    obtain rfl : [] = ts := by simpa [checkEach] using h
    exact ⟨.nil, .nil⟩
  | cons expected params ih =>
    cases args with
    | nil => simp at hlength
    | cons arg args =>
      obtain ⟨span, arg⟩ := arg
      cases arg with
      | none =>
        simp only [checkEach, Check.bind_eq_pure, Check.pure_eq_pure] at h
        obtain ⟨first, rfl, rest, _, h⟩ := h
        simp at h
      | some t =>
        simp only [checkEach] at h
        split at h
        · next haccepts =>
          simp only [Check.bind_eq_pure, Check.pure_eq_pure] at h
          obtain ⟨first, rfl, rest, hrest, h⟩ := h
          cases rest with
          | none => simp at h
          | some us =>
            obtain rfl : t :: us = ts := by simpa using h
            obtain ⟨hargs, haccepted⟩ := ih (by simpa using hlength) hrest
            exact ⟨.cons rfl hargs, .cons haccepts haccepted⟩
        · obtain ⟨_, hreject, _⟩ := Check.bind_eq_pure.mp h
          simp at hreject

theorem accepted_of_checkArgs {method : String} {span : Span} {params : List Ty}
    {args : List (Span × Option Term)} {ts : List Term}
    (h : checkArgs method span params args = pure (some ts)) :
    Checked args ts ∧ List.Forall₂ (fun param t => param.accepts t.type = true) params ts := by
  unfold checkArgs at h
  split at h
  · next hlength => exact accepted_of_checkEach hlength h
  · simp at h

theorem elaborates_of_checkMember {oracle : Oracle} {scope : Scope} {m : Mark} {object : Expr}
    {o t : Term} {name : String} (ho : object.Elaborates oracle scope o)
    (h : checkMember oracle m o name = pure (some t)) :
    (Expr.member m object name).Elaborates oracle scope t := by
  unfold checkMember at h
  split at h
  · next owner htype =>
    split at h
    · next type hfound =>
      obtain rfl : Term.field ⟨m.id, type⟩ o name = t := by simpa using h
      exact .field ho htype hfound
    · simp at h
    · simp at h
  · split at h <;> simp at h

theorem elaborates_of_checkCall {oracle : Oracle} {scope : Scope} {m : Mark} {object : Expr}
    {o t : Term} {name : String} {args : List Expr} {terms : List (Span × Option Term)}
    (ho : object.Elaborates oracle scope o)
    (hargs : ∀ ts, Checked terms ts → ElaborateAll oracle scope args ts)
    (h : checkCall oracle m o name terms = pure (some t)) :
    (Expr.call m object name args).Elaborates oracle scope t := by
  unfold checkCall at h
  split at h
  · next owner htype =>
    split at h
    · next params returns hfound =>
      obtain ⟨checked, hchecked, h⟩ := Check.bind_eq_pure.mp h
      obtain ⟨ts, rfl, rfl⟩ := Option.map_eq_some_iff.mp (Check.pure_eq_pure.mp h)
      obtain ⟨hts, haccepted⟩ := accepted_of_checkArgs hchecked
      exact .method ho htype hfound (hargs ts hts) haccepted
    · simp at h
    · simp at h
  · split at h
    · next b returns hfound =>
      obtain ⟨checked, hchecked, h⟩ := Check.bind_eq_pure.mp h
      obtain ⟨ts, rfl, rfl⟩ := Option.map_eq_some_iff.mp (Check.pure_eq_pure.mp h)
      obtain ⟨hts, haccepted⟩ := accepted_of_checkArgs hchecked
      obtain rfl : ts = [] := by simpa using haccepted
      cases hargs [] hts
      exact .builtin ho hfound
    · next element hfound =>
      obtain ⟨checked, hchecked, h⟩ := Check.bind_eq_pure.mp h
      obtain ⟨n, hn, rfl⟩ := Option.map_eq_some_iff.mp (Check.pure_eq_pure.mp h)
      obtain ⟨ts, rfl, hhead⟩ := Option.bind_eq_some_iff.mp hn
      obtain ⟨hts, haccepted⟩ := accepted_of_checkArgs hchecked
      obtain ⟨_, _, haccepts, hnil, rfl⟩ := List.forall₂_cons_left_iff.mp haccepted
      obtain rfl := List.forall₂_nil_left_iff.mp hnil
      obtain rfl := Option.some.inj hhead
      cases hargs _ hts with
      | cons first rest =>
        cases rest
        exact .contains ho hfound first haccepts
    · simp at h

mutual

theorem elaborates_of_check {oracle : Oracle} {scope : Scope} {t : Term} :
    ∀ e : Expr, e.check oracle scope = pure (some t) → e.Elaborates oracle scope t
  | .literal m value, h => by
    obtain rfl : Term.literal ⟨m.id, value.type⟩ value = t := by simpa [check] using h
    exact .literal m value
  | .name m ident, h => by
    simp only [check] at h
    split at h
    · simp at h
    · next slot type hfound =>
      obtain ⟨type, rfl, rfl⟩ := Option.map_eq_some_iff.mp (Check.pure_eq_pure.mp h)
      exact .name hfound
  | .list m items, h => by
    simp only [check, Check.bind_eq_pure, Check.pure_eq_pure] at h
    obtain ⟨terms, hterms, joined, hjoined, hlist⟩ := h
    obtain ⟨element, rfl, hitems⟩ := Option.bind_eq_some_iff.mp hlist
    obtain ⟨ts, hts, ht⟩ := Option.bind_eq_some_iff.mp hitems
    obtain rfl := Option.some.inj ht
    have hchecked := mapM_snd_eq_some_iff.mp hts
    exact .list (elaborateAll_of_checkAll items hterms hchecked)
      (foldlM_of_checkItems hjoined hchecked)
  | .member m object field, h => by
    obtain ⟨o, ho, h⟩ := Check.bind_eq_pure.mp h
    cases o with
    | none => simp at h
    | some o => exact elaborates_of_checkMember (elaborates_of_check object ho) h
  | .call m object method args, h => by
    simp only [check, Check.bind_eq_pure] at h
    obtain ⟨o, ho, terms, hterms, h⟩ := h
    cases o with
    | none => simp at h
    | some o =>
      exact elaborates_of_checkCall (elaborates_of_check object ho)
        (fun ts hts => elaborateAll_of_checkAll args hterms hts) h
  | .unary m op operand, h => by
    obtain ⟨operand', hoperand, h⟩ := Check.bind_eq_pure.mp h
    cases operand' with
    | none => simp at h
    | some u =>
      simp only at h
      split at h
      · next type htype =>
        obtain rfl : Term.unary ⟨m.id, type⟩ op u = t := by simpa using h
        exact .unary (elaborates_of_check operand hoperand) htype
      · simp at h
  | .binary m op lhs rhs, h => by
    simp only [check, Check.bind_eq_pure] at h
    obtain ⟨a, ha, b, hb, h⟩ := h
    cases a with
    | none => simp at h
    | some a =>
      cases b with
      | none => simp at h
      | some b =>
        simp only at h
        split at h
        · next type htype =>
          obtain rfl : Term.binary ⟨m.id, type⟩ op a b = t := by simpa using h
          exact .binary (elaborates_of_check lhs ha) (elaborates_of_check rhs hb) htype
        · simp at h

theorem elaborateAll_of_checkAll {oracle : Oracle} {scope : Scope} :
    ∀ (es : List Expr) {terms : List (Span × Option Term)} {ts : List Term},
      checkAll oracle scope es = pure terms → Checked terms ts → ElaborateAll oracle scope es ts
  | [], _, _, h, hts => by
    obtain rfl : [] = _ := by simpa [checkAll] using h
    cases hts
    exact .nil
  | e :: es, _, _, h, hts => by
    simp only [checkAll, Check.bind_eq_pure, Check.pure_eq_pure] at h
    obtain ⟨t, ht, rest, hrest, rfl⟩ := h
    cases hts with
    | cons hfirst htail =>
      obtain rfl := hfirst
      exact .cons (elaborates_of_check e ht) (elaborateAll_of_checkAll es hrest htail)

end

end Expr

-- Acceptance among types. It is an order, and the type of a list literal accepts those of its items.
namespace Ty

theorem accepts_refl (a : Ty) : a.accepts a = true := by
  induction a with
  | list a ih => simpa [accepts] using ih
  | record name => simp [accepts]
  | _ => rfl

theorem accepts_null (a : Ty) : a.accepts .null = true := by
  cases a <;> rfl

theorem accepts_iff {a b : Ty} :
    a.accepts b = true ↔
      b = .null ∨ a = b ∨ (a = .float ∧ b = .int) ∨
        ∃ c d, a = .list c ∧ b = .list d ∧ c.accepts d = true := by
  constructor
  · intro h
    cases b with
    | null => exact .inl rfl
    | list d =>
        cases a with
        | list c => exact .inr (.inr (.inr ⟨c, d, rfl, rfl, h⟩))
        | _ => simp [accepts] at h
    | int =>
        cases a with
        | float => exact .inr (.inr (.inl ⟨rfl, rfl⟩))
        | int => exact .inr (.inl rfl)
        | _ => simp [accepts] at h
    | _ => cases a <;> simp_all [accepts]
  · rintro (rfl | rfl | ⟨rfl, rfl⟩ | ⟨c, d, rfl, rfl, h⟩)
    · exact accepts_null a
    · exact accepts_refl a
    · rfl
    · exact h

theorem eq_null_of_accepts {a : Ty} (h : Ty.null.accepts a = true) : a = .null := by
  cases a <;> simp_all [accepts]

theorem accepts_trans {a b c : Ty} (hab : a.accepts b = true) (hbc : b.accepts c = true) :
    a.accepts c = true := by
  induction a generalizing b c with
  | list a ih =>
      obtain rfl | rfl | ⟨h, -⟩ | ⟨_, b, h, rfl, hab'⟩ := accepts_iff.mp hab
      · rw [eq_null_of_accepts hbc]
        exact accepts_null _
      · exact hbc
      · cases h
      · obtain rfl := list.inj h
        obtain rfl | rfl | ⟨h, -⟩ | ⟨_, c, h, rfl, hbc'⟩ := accepts_iff.mp hbc
        · rfl
        · exact hab
        · cases h
        · obtain rfl := list.inj h
          exact ih hab' hbc'
  | _ =>
      obtain rfl | rfl | ⟨hfloat, rfl⟩ | ⟨_, _, h, -⟩ := accepts_iff.mp hab
      · rw [eq_null_of_accepts hbc]
        exact accepts_null _
      · exact hbc
      · rw [hfloat]
        cases c <;> simp_all [accepts]
      · cases h

-- Both types that are brought together are accepted.
theorem accepts_of_unify {a b c : Ty} (h : a.unify b = some c) :
    c.accepts a = true ∧ c.accepts b = true := by
  unfold unify at h
  split at h
  · next hab =>
    obtain rfl := Option.some.inj h
    exact ⟨accepts_refl a, hab⟩
  · split at h
    · next hba =>
      obtain rfl := Option.some.inj h
      exact ⟨hba, accepts_refl b⟩
    · cases h

theorem accepts_of_foldlM {a c : Ty} {types : List Ty} (h : types.foldlM Ty.unify a = some c) :
    c.accepts a = true ∧ ∀ b ∈ types, c.accepts b = true := by
  induction types generalizing a with
  | nil =>
      obtain rfl : a = c := by simpa using h
      exact ⟨accepts_refl a, fun b hb => nomatch hb⟩
  | cons b types ih =>
      rw [List.foldlM_cons] at h
      obtain ⟨d, hd, h⟩ := Option.bind_eq_some_iff.mp h
      obtain ⟨ha, hb⟩ := accepts_of_unify hd
      obtain ⟨hcd, htypes⟩ := ih h
      refine ⟨accepts_trans hcd ha, fun b' hb' => ?_⟩
      obtain rfl | hb' := List.mem_cons.mp hb'
      · exact accepts_trans hcd hb
      · exact htypes b' hb'

theorem accepts_of_join {types : List Ty} {c : Ty} (h : Ty.join types = some c) :
    ∀ b ∈ types, c.accepts b = true :=
  (accepts_of_foldlM h).2

end Ty

end Stencil
