import Stencil.Proofs.Typing.Assignment
import Stencil.Proofs.Typing.Declared

/-!
Checking a template decides the type system. Every mistake is complained of, however deep it is
hidden, and what the rules allow is never complained of.
-/

namespace Stencil

namespace Expr

variable {oracle : Oracle} {Γ : Context} {e : Expr}

theorem check_ne_none : e.check oracle Γ.scope ≠ pure none := fun h => nomatch exists_of_check e h

-- In a context whose slots have types, every use without complaint has its term.
theorem checkCondition_iff {r : Option Term} :
    e.checkCondition oracle Γ.scope = pure r ↔
      ∃ t, r = some t ∧ e.check oracle Γ.scope = pure (some t) ∧ t.type = .bool := by
  rw [checkCondition_eq_pure, or_iff_right fun h => check_ne_none h.2]

theorem checkShown_iff {r : Option Term} :
    e.checkShown oracle Γ.scope = pure r ↔
      ∃ t, r = some t ∧ e.check oracle Γ.scope = pure (some t) ∧ t.type.Renderable := by
  rw [checkShown_eq_pure, or_iff_right fun h => check_ne_none h.2]
  simp only [Ty.renderable_iff]

theorem checkIterable_iff {r : Option (Term × Ty)} :
    e.checkIterable oracle Γ.scope = pure r ↔
      ∃ t τ, r = some (t, τ) ∧ e.check oracle Γ.scope = pure (some t) ∧ t.type = .list τ := by
  rw [checkIterable_eq_pure, or_iff_right fun h => check_ne_none h.2]

end Expr

variable {context : CheckContext}

section Soundness

mutual

-- A node without complaints is right, and there is a statement for it.
theorem Node.wellTyped_of_check : ∀ (node : Node) {Γ : Context} {r : Option Statement},
    node.check context Γ.scope = pure r → ∃ s, r = some s ∧ node.WellTyped context Γ
  | .text content span, _, _, h =>
    ⟨_, (Check.pure_eq_pure.mp h).symm, .text content span⟩
  | .interpolation raw value span, _, _, h => by
    obtain ⟨shown, hshown, h⟩ := Check.bind_eq_pure.mp h
    obtain ⟨t, rfl, ht, htype⟩ := Expr.checkShown_iff.mp hshown
    exact ⟨_, (Check.pure_eq_pure.mp h).symm,
      .interpolation (Expr.hasType_iff.mpr ⟨t, ht, rfl⟩) htype⟩
  | .conditional arms otherwise span, _, _, h => by
    obtain ⟨branches, els, harms, hels, rfl⟩ := Node.check_conditional_iff.mp h
    obtain ⟨branches, rfl, hwell⟩ := Arm.wellTyped_of_checkAll arms harms
    obtain ⟨ss, rfl, hnodes⟩ := Node.wellTyped_of_checkOtherwise otherwise hels
    exact ⟨_, rfl, .conditional (fun arm harm => (hwell arm harm).1)
      (fun arm harm => (hwell arm harm).2) hnodes⟩
  | .loop element index iterable body otherwise span, _, _, h => by
    obtain ⟨it, ss, els, hit, hss, hels, rfl⟩ := Node.check_loop_iff.mp h
    obtain ⟨t, τ, rfl, ht, htype⟩ := Expr.checkIterable_iff.mp hit
    rw [Option.map_some, ← Context.scope_inLoop] at hss
    obtain ⟨ss, rfl, hbody⟩ := Node.wellTyped_of_checkAll body hss
    obtain ⟨ss', rfl, hnodes⟩ := Node.wellTyped_of_checkOtherwise otherwise hels
    exact ⟨_, rfl, .loop (Expr.hasType_iff.mpr ⟨t, ht, htype⟩) hbody hnodes⟩
  | .inclusion id target args span, _, _, h => by
    obtain ⟨given, hgiven, hfound⟩ := Check.bind_eq_pure.mp h
    obtain ⟨rfl, htyped⟩ := Argument.typed_of_checkAll hgiven
    split at hfound
    · simp at hfound
    · next schema hschema =>
      obtain ⟨checked, hchecked, hs⟩ := Check.bind_eq_pure.mp hfound
      obtain ⟨ts, positions, rfl, hmatch, -⟩ :=
        Argument.match_of_checkInclusion htyped hchecked
      exact ⟨_, (Check.pure_eq_pure.mp hs).symm, .inclusion hschema hmatch⟩

theorem Node.wellTyped_of_checkAll : ∀ (nodes : List Node) {Γ : Context}
    {r : Option (List Statement)}, Node.checkAll context Γ.scope nodes = pure r →
    ∃ ss, r = some ss ∧ ∀ node ∈ nodes, node.WellTyped context Γ
  | [], _, _, h => ⟨[], (Check.pure_eq_pure.mp h).symm, by simp⟩
  | node :: nodes, _, _, h => by
    obtain ⟨first, hfirst, h⟩ := Check.bind_eq_pure.mp h
    obtain ⟨rest, hrest, h⟩ := Check.bind_eq_pure.mp h
    obtain ⟨s, rfl, hnode⟩ := Node.wellTyped_of_check node hfirst
    obtain ⟨ss, rfl, hnodes⟩ := Node.wellTyped_of_checkAll nodes hrest
    exact ⟨_, (Check.pure_eq_pure.mp h).symm, List.forall_mem_cons.mpr ⟨hnode, hnodes⟩⟩

theorem Node.wellTyped_of_checkOtherwise : ∀ (otherwise : Option (List Node)) {Γ : Context}
    {r : Option (List Statement)},
    Node.checkAll context Γ.scope (otherwise.getD []) = pure r →
    ∃ ss, r = some ss ∧ ∀ node ∈ otherwise.getD [], node.WellTyped context Γ
  | none, _, _, h => ⟨[], (Check.pure_eq_pure.mp h).symm, by simp⟩
  | some nodes, _, _, h => Node.wellTyped_of_checkAll nodes h

theorem Arm.wellTyped_of_checkAll : ∀ (arms : List Arm) {Γ : Context}
    {r : Option (List Branch)}, Arm.checkAll context Γ.scope arms = pure r →
    ∃ branches, r = some branches ∧ ∀ arm ∈ arms,
      arm.test.HasType context.oracle Γ .bool ∧ ∀ node ∈ arm.body, node.WellTyped context Γ
  | [], _, _, h => ⟨[], (Check.pure_eq_pure.mp h).symm, by simp⟩
  | .mk test body :: arms, _, _, h => by
    obtain ⟨test', htest, h⟩ := Check.bind_eq_pure.mp h
    obtain ⟨body', hbody, h⟩ := Check.bind_eq_pure.mp h
    obtain ⟨rest, hrest, h⟩ := Check.bind_eq_pure.mp h
    obtain ⟨t, rfl, ht, htype⟩ := Expr.checkCondition_iff.mp htest
    obtain ⟨ss, rfl, hnodes⟩ := Node.wellTyped_of_checkAll body hbody
    obtain ⟨branches, rfl, harms⟩ := Arm.wellTyped_of_checkAll arms hrest
    refine ⟨_, (Check.pure_eq_pure.mp h).symm, List.forall_mem_cons.mpr ⟨⟨?_, hnodes⟩, harms⟩⟩
    exact Expr.hasType_iff.mpr ⟨t, ht, htype⟩

end

end Soundness

section Completeness

mutual

theorem Node.check_of_wellTyped : ∀ (node : Node) {Γ : Context}, node.WellTyped context Γ →
    ∃ s, node.check context Γ.scope = pure (some s)
  | .text content span, _, _ => ⟨.text content, rfl⟩
  | .interpolation raw value span, _, .interpolation typed renderable => by
    obtain ⟨t, ht, rfl⟩ := Expr.hasType_iff.mp typed
    have hshown := Expr.checkShown_iff.mpr ⟨t, rfl, ht, renderable⟩
    exact ⟨.interpolation raw t, Check.bind_eq_pure.mpr ⟨some t, hshown, rfl⟩⟩
  | .conditional arms otherwise span, _, .conditional tests bodies otherwise_typed => by
    obtain ⟨branches, hbranches⟩ :=
      Arm.checkAll_of_wellTyped arms fun arm harm => ⟨tests arm harm, bodies arm harm⟩
    obtain ⟨ss, hss⟩ := Node.checkOtherwise_of_wellTyped otherwise otherwise_typed
    exact ⟨_, Node.check_conditional_iff.mpr ⟨_, _, hbranches, hss, rfl⟩⟩
  | .loop element index iterable body otherwise span, _,
      .loop typed body_typed otherwise_typed => by
    obtain ⟨t, ht, htype⟩ := Expr.hasType_iff.mp typed
    have hit := Expr.checkIterable_iff.mpr ⟨t, _, rfl, ht, htype⟩
    obtain ⟨ss, hss⟩ := Node.checkAll_of_wellTyped body body_typed
    rw [Context.scope_inLoop] at hss
    obtain ⟨ss', hss'⟩ := Node.checkOtherwise_of_wellTyped otherwise otherwise_typed
    exact ⟨_, Node.check_loop_iff.mpr ⟨_, _, _, hit, hss, hss', rfl⟩⟩
  | .inclusion id target args span, _, .inclusion found matched => by
    obtain ⟨given, hgiven⟩ := Argument.checkAll_of_hasType matched.assigned.hasType
    obtain ⟨rfl, htyped⟩ := Argument.typed_of_checkAll hgiven
    obtain ⟨ts, hts⟩ := Argument.checkInclusion_of_match htyped matched
    refine ⟨.inclusion target ts, Check.bind_eq_pure.mpr ⟨given, hgiven, ?_⟩⟩
    simp only [found]
    exact Check.bind_eq_pure.mpr ⟨some ts, hts, rfl⟩

theorem Node.checkAll_of_wellTyped : ∀ (nodes : List Node) {Γ : Context},
    (∀ node ∈ nodes, node.WellTyped context Γ) →
    ∃ ss, Node.checkAll context Γ.scope nodes = pure (some ss)
  | [], _, _ => ⟨[], rfl⟩
  | node :: nodes, _, h => by
    obtain ⟨hnode, hnodes⟩ := List.forall_mem_cons.mp h
    obtain ⟨s, hs⟩ := Node.check_of_wellTyped node hnode
    obtain ⟨ss, hss⟩ := Node.checkAll_of_wellTyped nodes hnodes
    exact ⟨s :: ss, Check.bind_eq_pure.mpr ⟨_, hs, Check.bind_eq_pure.mpr ⟨_, hss, rfl⟩⟩⟩

theorem Node.checkOtherwise_of_wellTyped : ∀ (otherwise : Option (List Node)) {Γ : Context},
    (∀ node ∈ otherwise.getD [], node.WellTyped context Γ) →
    ∃ ss, Node.checkAll context Γ.scope (otherwise.getD []) = pure (some ss)
  | none, _, _ => ⟨[], rfl⟩
  | some nodes, _, h => Node.checkAll_of_wellTyped nodes h

theorem Arm.checkAll_of_wellTyped : ∀ (arms : List Arm) {Γ : Context},
    (∀ arm ∈ arms, arm.test.HasType context.oracle Γ .bool ∧
      ∀ node ∈ arm.body, node.WellTyped context Γ) →
    ∃ branches, Arm.checkAll context Γ.scope arms = pure (some branches)
  | [], _, _ => ⟨[], rfl⟩
  | .mk test body :: arms, _, h => by
    obtain ⟨⟨htest, hbody⟩, harms⟩ := List.forall_mem_cons.mp h
    obtain ⟨t, ht, htype⟩ := Expr.hasType_iff.mp htest
    have hcondition := Expr.checkCondition_iff.mpr ⟨t, rfl, ht, htype⟩
    obtain ⟨ss, hss⟩ := Node.checkAll_of_wellTyped body hbody
    obtain ⟨branches, hbranches⟩ := Arm.checkAll_of_wellTyped arms harms
    exact ⟨.mk t ss :: branches, Check.bind_eq_pure.mpr ⟨_, hcondition,
      Check.bind_eq_pure.mpr ⟨_, hss, Check.bind_eq_pure.mpr ⟨_, hbranches, rfl⟩⟩⟩⟩

end

end Completeness

namespace Template

variable {t : Template}

theorem wellTyped_of_check {r : Option CheckedTemplate} (h : t.check context = pure r) :
    ∃ checked, r = some checked ∧ t.WellTyped context := by
  obtain ⟨⟨schema, scope⟩, hheader, h⟩ := Check.bind_eq_pure.mp h
  obtain ⟨body, hbody, h⟩ := Check.bind_eq_pure.mp h
  obtain ⟨hdeclares, rfl⟩ := declares_of_checkHeader hheader
  obtain ⟨ss, rfl, hnodes⟩ := Node.wellTyped_of_checkAll t.body hbody
  exact ⟨_, (Check.pure_eq_pure.mp h).symm, _, hdeclares, hnodes⟩

theorem check_of_wellTyped (h : t.WellTyped context) :
    ∃ checked, t.check context = pure (some checked) := by
  obtain ⟨Γ, hdeclares, hnodes⟩ := h
  obtain ⟨schema, hheader⟩ := checkHeader_of_declares hdeclares
  obtain ⟨ss, hss⟩ := Node.checkAll_of_wellTyped t.body hnodes
  exact ⟨⟨schema, ss⟩, Check.bind_eq_pure.mpr
    ⟨_, hheader, Check.bind_eq_pure.mpr ⟨some ss, hss, rfl⟩⟩⟩

-- A template is accepted just if it is well typed.
theorem exists_bind_iff {source : String} :
    (∃ checked, t.bind context source = .ok checked) ↔ t.WellTyped context := by
  constructor
  · rintro ⟨checked, h⟩
    obtain ⟨_, -, hwell⟩ := wellTyped_of_check (check_of_bind h)
    exact hwell
  · intro h
    obtain ⟨checked, hchecked⟩ := check_of_wellTyped h
    refine ⟨checked, ?_⟩
    rw [bind, hchecked]
    rfl

-- A template that is refused is refused for a reason.
theorem ne_nil_of_bind {source : String} {errors : List TypeError}
    (h : t.bind context source = .error errors) : errors ≠ [] := by
  unfold bind at h
  split at h
  · cases h
  · next complaints r hnot hcheck =>
    obtain rfl := Except.error.inj h
    intro hnil
    obtain rfl : complaints = [] := List.map_eq_nil_iff.mp hnil
    obtain ⟨checked, rfl, -⟩ := wellTyped_of_check hcheck
    exact hnot checked rfl rfl

end Template

end Stencil
