import Stencil.Proofs.Typing.Judgment

/-!
Checking an expression decides the rules. What has no complaint has a term, the type of the term is
derivable, and whatever is derivable is found; so an expression has one type at most.
-/

namespace Stencil

theorem Literal.hasType_iff {value : Literal} {τ : Ty} : value.HasType τ ↔ value.type = τ := by
  constructor
  · intro h
    cases h <;> rfl
  · rintro rfl
    cases value <;> constructor

theorem Ty.numeric_iff {τ : Ty} : τ.Numeric ↔ τ.isNumeric = true := by
  constructor
  · intro h
    cases h <;> rfl
  · intro h
    cases τ <;> first | constructor | cases h

theorem Ty.renderable_iff {τ : Ty} : τ.Renderable ↔ τ.isRenderable = true := by
  constructor
  · intro h
    cases h <;> rfl
  · intro h
    cases τ <;> first | constructor | cases h

theorem UnaryOp.takes_iff {op : UnaryOp} {σ τ : Ty} : op.Takes σ τ ↔ op.type? σ = some τ := by
  constructor
  · intro h
    cases h with
    | not => rfl
    | negate numeric => cases numeric <;> rfl
  · intro h
    unfold type? at h
    split at h
    · obtain rfl := Option.some.inj h
      exact .not
    · obtain rfl := Option.some.inj h
      exact .negate .int
    · obtain rfl := Option.some.inj h
      exact .negate .float
    · cases h

-- Numbers mix.
theorem Ty.numericType?_eq_some_iff {σ τ ρ : Ty} :
    Ty.numericType? σ τ = some ρ ↔
      σ.Numeric ∧ τ.Numeric ∧ (if σ = .int ∧ τ = .int then .int else .float) = ρ := by
  simp only [Ty.numericType?, Ty.numeric_iff]
  split <;> simp_all

theorem BinaryOp.takes_iff {op : BinaryOp} {σ τ ρ : Ty} :
    op.Takes σ τ ρ ↔ op.type? σ τ = some ρ := by
  constructor
  · intro h
    cases h with
    | and => rfl
    | or => rfl
    | equality comparable =>
      obtain ⟨c, hc⟩ := Ty.exists_unify_iff.mpr comparable
      simp [type?, hc]
    | orderTexts => rfl
    | orderNumbers lhs rhs => cases lhs <;> cases rhs <;> rfl
    | concat => rfl
    | @ints op => cases op <;> rfl
    | @floats op _ _ lhs rhs inexact =>
      cases lhs <;> cases rhs <;> first | (simp at inexact; done) | (cases op <;> rfl)
  · intro h
    unfold type? at h
    split at h
    · split at h
      · next hbool =>
        obtain ⟨rfl, rfl⟩ := hbool
        obtain rfl := Option.some.inj h
        exact .and
      · cases h
    · split at h
      · next hbool =>
        obtain ⟨rfl, rfl⟩ := hbool
        obtain rfl := Option.some.inj h
        exact .or
      · cases h
    · obtain ⟨c, hc, rfl⟩ := Option.map_eq_some_iff.mp h
      exact .equality (Ty.exists_unify_iff.mp ⟨c, hc⟩)
    · split at h
      · next htext =>
        obtain ⟨rfl, rfl⟩ := htext
        obtain rfl := Option.some.inj h
        exact .orderTexts
      · obtain ⟨c, hc, rfl⟩ := Option.map_eq_some_iff.mp h
        obtain ⟨hσ, hτ, -⟩ := Ty.numericType?_eq_some_iff.mp hc
        exact .orderNumbers hσ hτ
    · obtain rfl := Option.some.inj h
      exact .concat
    · obtain ⟨hσ, hτ, hρ⟩ := Ty.numericType?_eq_some_iff.mp h
      split at hρ
      · next hint =>
        obtain ⟨rfl, rfl⟩ := hint
        rw [← hρ]
        exact .ints
      · next hnot =>
        rw [← hρ]
        refine .floats hσ hτ ?_
        cases hσ <;> cases hτ <;> simp_all

-- What a builtin asks for and gives.
def BuiltinMethod.params : BuiltinMethod → List Ty
  | plain _ _ => []
  | contains element => [element]

def BuiltinMethod.returns : BuiltinMethod → Ty
  | plain _ returns => returns
  | contains _ => .bool

theorem Ty.offers_iff {ρ : Ty} {name : String} {params : List Ty} {τ : Ty} :
    ρ.Offers name params τ ↔
      ∃ b, BuiltinMethod.find? ρ name = some b ∧ b.params = params ∧ b.returns = τ := by
  constructor
  · intro h
    cases h <;> exact ⟨_, rfl, rfl, rfl⟩
  · rintro ⟨b, hfind, rfl, rfl⟩
    unfold BuiltinMethod.find? at hfind
    split at hfind <;> first | cases hfind; constructor | cases hfind

-- A record offers nothing of its own.
theorem Ty.not_record_of_offers {ρ : Ty} {name : String} {params : List Ty} {τ : Ty}
    (h : ρ.Offers name params τ) (owner : String) : ρ ≠ .record owner := by
  rintro rfl
  cases h

-- The scope of names that all have types.
def Context.scope (Γ : Context) : Scope := Γ.map fun var => ⟨var.1, some var.2⟩

namespace Context

theorem scope_inLoop (Γ : Context) (element : Binding) (index : Option Binding) (τ : Ty) :
    (Γ.inLoop element index τ).scope = Γ.scope.inLoop element index (some τ) := by
  cases index <;> rfl

theorem find?_of_lookup {Γ : Context} {name : String} {τ : Ty} (h : Γ.lookup name = some τ) :
    ∃ slot, Γ.scope.find? name = some (slot, some τ) := by
  induction Γ with
  | nil => cases h
  | cons var Γ ih =>
    obtain ⟨x, σ⟩ := var
    by_cases hx : x = name
    · subst hx
      obtain rfl : σ = τ := by simpa using h
      exact ⟨(scope Γ).length, by simp [scope, Scope.find?]⟩
    · have hne : (name == x) = false := by simpa using Ne.symm hx
      obtain ⟨slot, hslot⟩ := ih (by simpa [List.lookup_cons, hne] using h)
      exact ⟨slot, by simpa [scope, Scope.find?, hx] using hslot⟩

theorem lookup_of_find? {Γ : Context} {name : String} {slot : Nat} {type : Option Ty}
    (h : Γ.scope.find? name = some (slot, type)) : ∃ τ, type = some τ ∧ Γ.lookup name = some τ := by
  induction Γ with
  | nil => cases h
  | cons var Γ ih =>
    obtain ⟨x, σ⟩ := var
    by_cases hx : x = name
    · subst hx
      obtain ⟨-, rfl⟩ : (scope Γ).length = slot ∧ some σ = type := by
        simpa [scope, Scope.find?] using h
      exact ⟨σ, rfl, by simp⟩
    · have hne : (name == x) = false := by simpa using Ne.symm hx
      obtain ⟨τ, rfl, hτ⟩ := ih (by simpa [scope, Scope.find?, hx] using h)
      exact ⟨τ, rfl, by simpa [List.lookup_cons, hne] using hτ⟩

end Context

namespace Expr

variable {oracle : Oracle} {Γ : Context}

theorem forall₂_le_iff {params : List Ty} {ts : List Term} :
    List.Forall₂ (· ≤ ·) (ts.map Term.type) params ↔
      List.Forall₂ (fun param t => param.accepts t.type = true) params ts := by
  rw [List.forall₂_map_left_iff]
  constructor
  · intro h
    exact h.flip.imp fun _ _ hle => Ty.accepts_iff_le.mpr hle
  · intro h
    exact h.flip.imp fun _ _ haccepts => Ty.accepts_iff_le.mp haccepts

mutual

-- The type of a term is a type of the expression that stands for it.
theorem hasType_of_elaborates : ∀ {e : Expr} {t : Term},
    e.Elaborates oracle Γ.scope t → e.HasType oracle Γ t.type
  | _, _, .literal m value => .literal (Literal.hasType_iff.mpr rfl)
  | _, _, .name found => by
    obtain ⟨τ, hτ, hlookup⟩ := Context.lookup_of_find? found
    obtain rfl := Option.some.inj hτ
    exact .name hlookup
  | _, _, .list items joined =>
    .list (haveTypes_of_elaborateAll items) (Ty.join_eq_some_iff.mp joined)
  | _, _, .field object typed found => .field (typed ▸ hasType_of_elaborates object) found
  | _, _, .method object typed found args accepted =>
    .method (typed ▸ hasType_of_elaborates object) found (haveTypes_of_elaborateAll args)
      (forall₂_le_iff.mpr accepted)
  | _, _, .builtin object found =>
    .builtin (hasType_of_elaborates object) (Ty.offers_iff.mpr ⟨_, found, rfl, rfl⟩) .nil .nil
  | _, _, .contains object found needle accepted =>
    .builtin (hasType_of_elaborates object) (Ty.offers_iff.mpr ⟨_, found, rfl, rfl⟩)
      (.cons (hasType_of_elaborates needle) .nil) (.cons (Ty.accepts_iff_le.mp accepted) .nil)
  | _, _, .unary operand typed =>
    .unary (hasType_of_elaborates operand) (UnaryOp.takes_iff.mpr typed)
  | _, _, .binary lhs rhs typed =>
    .binary (hasType_of_elaborates lhs) (hasType_of_elaborates rhs) (BinaryOp.takes_iff.mpr typed)

theorem haveTypes_of_elaborateAll : ∀ {es : List Expr} {ts : List Term},
    ElaborateAll oracle Γ.scope es ts → HaveTypes oracle Γ es (ts.map Term.type)
  | _, _, .nil => .nil
  | _, _, .cons first rest => .cons (hasType_of_elaborates first) (haveTypes_of_elaborateAll rest)

end

-- Without a complaint there is a result: a mistake is never passed over in silence.
section Results

theorem exists_of_checkItems {t : Ty} {items : List (Span × Option Term)} {ts : List Term}
    {r : Option Ty} (hts : Checked items ts) (h : checkItems t items = pure r) :
    ∃ u, r = some u := by
  induction hts generalizing t with
  | nil => exact ⟨t, (Check.pure_eq_pure.mp h).symm⟩
  | @cons item first items rest hitem hrest ih =>
    obtain ⟨span, item⟩ := item
    obtain rfl : item = some first := hitem
    simp only [checkItems] at h
    split at h
    · exact ih h
    · simp at h

theorem exists_of_checkEach {method : String} {position : Nat} {params : List Ty}
    {args : List (Span × Option Term)} {ts : List Term} {r : Option (List Term)}
    (hts : Checked args ts) (h : checkEach method position params args = pure r) :
    ∃ us, r = some us := by
  induction hts generalizing position params r with
  | nil =>
    cases params <;> exact ⟨[], (Check.pure_eq_pure.mp h).symm⟩
  | @cons arg first args rest harg hrest ih =>
    obtain ⟨span, arg⟩ := arg
    obtain rfl : arg = some first := harg
    cases params with
    | nil => exact ⟨[], (Check.pure_eq_pure.mp h).symm⟩
    | cons expected params =>
      simp only [checkEach] at h
      split at h
      · obtain ⟨head, hhead, h⟩ := Check.bind_eq_pure.mp h
        obtain rfl := Check.pure_eq_pure.mp hhead
        obtain ⟨tail, htail, h⟩ := Check.bind_eq_pure.mp h
        obtain ⟨us, rfl⟩ := ih htail
        exact ⟨first :: us, (Check.pure_eq_pure.mp h).symm⟩
      · obtain ⟨_, hreject, _⟩ := Check.bind_eq_pure.mp h
        simp at hreject

theorem exists_of_checkArgs {method : String} {span : Span} {params : List Ty}
    {args : List (Span × Option Term)} {ts : List Term} {r : Option (List Term)}
    (hts : Checked args ts) (h : checkArgs method span params args = pure r) :
    ∃ us, r = some us := by
  unfold checkArgs at h
  split at h
  · exact exists_of_checkEach hts h
  · simp at h

theorem exists_of_checkMember {m : Mark} {o : Term} {name : String} {r : Option Term}
    (h : checkMember oracle m o name = pure r) : ∃ t, r = some t := by
  unfold checkMember at h
  split at h
  · split at h
    · exact ⟨_, (Check.pure_eq_pure.mp h).symm⟩
    · simp at h
    · simp at h
  · split at h <;> simp at h

theorem exists_of_checkCall {m : Mark} {o : Term} {name : String}
    {args : List (Span × Option Term)} {ts : List Term} {r : Option Term} (hts : Checked args ts)
    (h : checkCall oracle m o name args = pure r) : ∃ t, r = some t := by
  unfold checkCall at h
  split at h
  · split at h
    · obtain ⟨checked, hchecked, h⟩ := Check.bind_eq_pure.mp h
      obtain ⟨us, rfl⟩ := exists_of_checkArgs hts hchecked
      exact ⟨_, (Check.pure_eq_pure.mp h).symm⟩
    · simp at h
    · simp at h
  · split at h
    · obtain ⟨checked, hchecked, h⟩ := Check.bind_eq_pure.mp h
      obtain ⟨us, rfl⟩ := exists_of_checkArgs hts hchecked
      exact ⟨_, (Check.pure_eq_pure.mp h).symm⟩
    · obtain ⟨checked, hchecked, h⟩ := Check.bind_eq_pure.mp h
      obtain ⟨us, rfl⟩ := exists_of_checkArgs hts hchecked
      obtain ⟨-, haccepted⟩ := accepted_of_checkArgs hchecked
      obtain ⟨n, _, -, -, rfl⟩ := List.forall₂_cons_left_iff.mp haccepted
      exact ⟨_, (Check.pure_eq_pure.mp h).symm⟩
    · simp at h

mutual

theorem exists_of_check :
    ∀ (e : Expr) {r : Option Term}, e.check oracle Γ.scope = pure r → ∃ t, r = some t
  | .literal _ _, _, h => ⟨_, (Check.pure_eq_pure.mp h).symm⟩
  | .name _ ident, _, h => by
    simp only [check] at h
    split at h
    · simp at h
    · next hfound =>
      obtain ⟨τ, rfl, -⟩ := Context.lookup_of_find? hfound
      exact ⟨_, (Check.pure_eq_pure.mp h).symm⟩
  | .list _ items, _, h => by
    obtain ⟨terms, hterms, h⟩ := Check.bind_eq_pure.mp h
    obtain ⟨element, helement, h⟩ := Check.bind_eq_pure.mp h
    obtain ⟨ts, hts⟩ := checked_of_checkAll items hterms
    obtain ⟨u, rfl⟩ := exists_of_checkItems hts helement
    have hmap : terms.mapM (·.2) = some ts := mapM_snd_eq_some_iff.mpr hts
    rw [hmap] at h
    exact ⟨_, (Check.pure_eq_pure.mp h).symm⟩
  | .member _ object _, _, h => by
    obtain ⟨o, ho, h⟩ := Check.bind_eq_pure.mp h
    obtain ⟨o, rfl⟩ := exists_of_check object ho
    exact exists_of_checkMember h
  | .call _ object _ args, _, h => by
    obtain ⟨o, ho, h⟩ := Check.bind_eq_pure.mp h
    obtain ⟨terms, hterms, h⟩ := Check.bind_eq_pure.mp h
    obtain ⟨o, rfl⟩ := exists_of_check object ho
    obtain ⟨ts, hts⟩ := checked_of_checkAll args hterms
    exact exists_of_checkCall hts h
  | .unary _ op operand, _, h => by
    obtain ⟨o, ho, h⟩ := Check.bind_eq_pure.mp h
    obtain ⟨o, rfl⟩ := exists_of_check operand ho
    simp only at h
    split at h
    · exact ⟨_, (Check.pure_eq_pure.mp h).symm⟩
    · simp at h
  | .binary _ op lhs rhs, _, h => by
    obtain ⟨a, ha, h⟩ := Check.bind_eq_pure.mp h
    obtain ⟨b, hb, h⟩ := Check.bind_eq_pure.mp h
    obtain ⟨a, rfl⟩ := exists_of_check lhs ha
    obtain ⟨b, rfl⟩ := exists_of_check rhs hb
    simp only at h
    split at h
    · exact ⟨_, (Check.pure_eq_pure.mp h).symm⟩
    · simp at h

theorem checked_of_checkAll :
    ∀ (es : List Expr) {args : List (Span × Option Term)},
      checkAll oracle Γ.scope es = pure args → ∃ ts, Checked args ts
  | [], _, h => by
    obtain rfl := Check.pure_eq_pure.mp h
    exact ⟨[], .nil⟩
  | e :: es, _, h => by
    obtain ⟨t, ht, h⟩ := Check.bind_eq_pure.mp h
    obtain ⟨rest, hrest, h⟩ := Check.bind_eq_pure.mp h
    obtain rfl := Check.pure_eq_pure.mp h
    obtain ⟨t, rfl⟩ := exists_of_check e ht
    obtain ⟨ts, hts⟩ := checked_of_checkAll es hrest
    exact ⟨t :: ts, .cons rfl hts⟩

end

end Results

-- What the rules allow is found.
section Completeness

theorem checkItems_of_foldlM {t u : Ty} {items : List (Span × Option Term)} {ts : List Term}
    (hts : Checked items ts) (h : (ts.map Term.type).foldlM Ty.unify t = some u) :
    checkItems t items = pure (some u) := by
  induction hts generalizing t with
  | nil =>
    obtain rfl : t = u := by simpa using h
    rfl
  | @cons item first items rest hitem hrest ih =>
    obtain ⟨span, item⟩ := item
    obtain rfl : item = some first := hitem
    rw [List.map_cons, List.foldlM_cons] at h
    obtain ⟨v, hv, h⟩ := Option.bind_eq_some_iff.mp h
    simpa [checkItems, hv] using ih h

theorem checkEach_of_accepted {method : String} {position : Nat} {params : List Ty}
    {args : List (Span × Option Term)} {ts : List Term} (hts : Checked args ts)
    (h : List.Forall₂ (fun param t => param.accepts t.type = true) params ts) :
    checkEach method position params args = pure (some ts) := by
  induction hts generalizing position params with
  | nil =>
    cases h
    rfl
  | @cons arg first args rest harg hrest ih =>
    obtain ⟨span, arg⟩ := arg
    obtain rfl : arg = some first := harg
    cases h with
    | cons haccepts haccepted =>
      simp only [checkEach, haccepts, if_true]
      refine Check.bind_eq_pure.mpr ⟨some first, rfl, ?_⟩
      exact Check.bind_eq_pure.mpr ⟨some rest, ih haccepted, rfl⟩

theorem checkArgs_of_accepted {method : String} {span : Span} {params : List Ty}
    {args : List (Span × Option Term)} {ts : List Term} (hts : Checked args ts)
    (h : List.Forall₂ (fun param t => param.accepts t.type = true) params ts) :
    checkArgs method span params args = pure (some ts) := by
  have hlength : params.length = args.length := h.length_eq.trans hts.length_eq.symm
  simpa [checkArgs, hlength] using checkEach_of_accepted hts h

theorem checkCall_of_method {m : Mark} {o : Term} {owner name : String} {params : List Ty}
    {returns : Ty} {args : List (Span × Option Term)} {ts : List Term}
    (htype : o.type = .record owner)
    (hfound : oracle.member owner name = some (.method params returns)) (hts : Checked args ts)
    (h : List.Forall₂ (fun param t => param.accepts t.type = true) params ts) :
    checkCall oracle m o name args = pure (some (.method ⟨m.id, returns⟩ o name ts)) := by
  simp only [checkCall, htype, hfound]
  exact Check.bind_eq_pure.mpr ⟨some ts, checkArgs_of_accepted hts h, rfl⟩

theorem checkCall_of_offers {m : Mark} {o : Term} {name : String} {params : List Ty} {returns : Ty}
    {args : List (Span × Option Term)} {ts : List Term} (hoffers : o.type.Offers name params returns)
    (hts : Checked args ts)
    (h : List.Forall₂ (fun param t => param.accepts t.type = true) params ts) :
    ∃ t, checkCall oracle m o name args = pure (some t) ∧ t.type = returns := by
  have hchecked : checkArgs name m.span params args = pure (some ts) := checkArgs_of_accepted hts h
  obtain ⟨b, hfind, rfl, rfl⟩ := Ty.offers_iff.mp hoffers
  unfold checkCall
  split
  · next owner htype => exact absurd htype (Ty.not_record_of_offers hoffers owner)
  · simp only [hfind]
    cases b with
    | plain b returns =>
      exact ⟨_, Check.bind_eq_pure.mpr ⟨some ts, hchecked, rfl⟩, rfl⟩
    | contains element =>
      obtain ⟨n, _, -, -, rfl⟩ := List.forall₂_cons_left_iff.mp h
      exact ⟨_, Check.bind_eq_pure.mpr ⟨_, hchecked, rfl⟩, rfl⟩

mutual

theorem check_of_hasType : ∀ (e : Expr) {τ : Ty}, e.HasType oracle Γ τ →
    ∃ t, e.check oracle Γ.scope = pure (some t) ∧ t.type = τ
  | .literal m value, τ, .literal typed =>
    ⟨_, rfl, Literal.hasType_iff.mp typed⟩
  | .name m ident, τ, .name found => by
    obtain ⟨slot, hslot⟩ := Context.find?_of_lookup found
    exact ⟨.slot ⟨m.id, τ⟩ slot, by simp [check, hslot], rfl⟩
  | .list m items, _, .list items_typed least => by
    obtain ⟨args, ts, hargs, hts, rfl⟩ := checkAll_of_haveTypes items items_typed
    have hitems := checkItems_of_foldlM hts (Ty.join_eq_some_iff.mpr least)
    have hmap : args.mapM (·.2) = some ts := mapM_snd_eq_some_iff.mpr hts
    refine ⟨.list ⟨m.id, .list _⟩ ts, Check.bind_eq_pure.mpr ⟨args, hargs, ?_⟩, rfl⟩
    refine Check.bind_eq_pure.mpr ⟨_, hitems, ?_⟩
    rw [hmap]
    rfl
  | .member m object field, τ, .field object_typed found => by
    obtain ⟨o, ho, htype⟩ := check_of_hasType object object_typed
    refine ⟨.field ⟨m.id, τ⟩ o field, Check.bind_eq_pure.mpr ⟨some o, ho, ?_⟩, rfl⟩
    simp only [checkMember, htype, found]
  | .call m object method args, τ, .method object_typed found args_typed accepted => by
    obtain ⟨o, ho, htype⟩ := check_of_hasType object object_typed
    obtain ⟨terms, ts, hterms, hts, rfl⟩ := checkAll_of_haveTypes args args_typed
    refine ⟨.method ⟨m.id, τ⟩ o method ts, Check.bind_eq_pure.mpr ⟨some o, ho, ?_⟩, rfl⟩
    exact Check.bind_eq_pure.mpr
      ⟨terms, hterms, checkCall_of_method htype found hts (forall₂_le_iff.mp accepted)⟩
  | .call m object method args, τ, .builtin object_typed offered args_typed accepted => by
    obtain ⟨o, ho, rfl⟩ := check_of_hasType object object_typed
    obtain ⟨terms, ts, hterms, hts, rfl⟩ := checkAll_of_haveTypes args args_typed
    obtain ⟨t, ht, rfl⟩ := checkCall_of_offers offered hts (forall₂_le_iff.mp accepted)
    refine ⟨t, Check.bind_eq_pure.mpr ⟨some o, ho, ?_⟩, rfl⟩
    exact Check.bind_eq_pure.mpr ⟨terms, hterms, ht⟩
  | .unary m op operand, τ, .unary operand_typed takes => by
    obtain ⟨t, ht, rfl⟩ := check_of_hasType operand operand_typed
    refine ⟨.unary ⟨m.id, τ⟩ op t, Check.bind_eq_pure.mpr ⟨some t, ht, ?_⟩, rfl⟩
    simp only [UnaryOp.takes_iff.mp takes]
  | .binary m op lhs rhs, τ, .binary lhs_typed rhs_typed takes => by
    obtain ⟨a, ha, rfl⟩ := check_of_hasType lhs lhs_typed
    obtain ⟨b, hb, rfl⟩ := check_of_hasType rhs rhs_typed
    refine ⟨.binary ⟨m.id, τ⟩ op a b, Check.bind_eq_pure.mpr ⟨some a, ha, ?_⟩, rfl⟩
    refine Check.bind_eq_pure.mpr ⟨some b, hb, ?_⟩
    simp only [BinaryOp.takes_iff.mp takes]

theorem checkAll_of_haveTypes : ∀ (es : List Expr) {τs : List Ty}, HaveTypes oracle Γ es τs →
    ∃ args ts, checkAll oracle Γ.scope es = pure args ∧ Checked args ts ∧ ts.map Term.type = τs
  | [], _, .nil => ⟨[], [], rfl, .nil, rfl⟩
  | e :: es, _, .cons first rest => by
    obtain ⟨t, ht, rfl⟩ := check_of_hasType e first
    obtain ⟨args, ts, hargs, hts, rfl⟩ := checkAll_of_haveTypes es rest
    refine ⟨(e.span, some t) :: args, t :: ts, ?_, .cons rfl hts, rfl⟩
    exact Check.bind_eq_pure.mpr ⟨_, ht, Check.bind_eq_pure.mpr ⟨args, hargs, rfl⟩⟩

end

end Completeness

variable {e : Expr} {τ : Ty}

theorem hasType_iff :
    e.HasType oracle Γ τ ↔ ∃ t, e.check oracle Γ.scope = pure (some t) ∧ t.type = τ := by
  constructor
  · exact check_of_hasType e
  · rintro ⟨t, ht, rfl⟩
    exact hasType_of_elaborates (elaborates_of_check e ht)

theorem HasType.unique {σ : Ty} (h : e.HasType oracle Γ σ) (h' : e.HasType oracle Γ τ) : σ = τ := by
  obtain ⟨t, ht, rfl⟩ := hasType_iff.mp h
  obtain ⟨t', ht', rfl⟩ := hasType_iff.mp h'
  have hsame : some t = some t' := Check.pure_eq_pure.mp (ht.symm.trans ht')
  rw [Option.some.inj hsame]

-- A check without complaints ends with the derivable type, and there is one.
theorem hasType_of_check {r : Option Term} (h : e.check oracle Γ.scope = pure r) :
    ∃ t, r = some t ∧ e.Elaborates oracle Γ.scope t ∧ e.HasType oracle Γ t.type := by
  obtain ⟨t, rfl⟩ := exists_of_check e h
  exact ⟨t, rfl, elaborates_of_check e h, hasType_iff.mpr ⟨t, h, rfl⟩⟩

end Expr

end Stencil
