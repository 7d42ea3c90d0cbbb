import Stencil.Proofs.Effects
import Stencil.Proofs.Expr.Numbers
import Stencil.Proofs.Template.Numbering
import Stencil.Proofs.Typing.Decision

/-!
What a checked template records of its expressions. Each stands in a context, has one type there,
and this type is noted under its number. The operands of an expression are checked first, from left
to right, and what is found out about the expression itself then depends on their types alone.
-/

namespace Stencil

-- In a node that stands in the first context, an expression stands in the second.
inductive Node.Shows (context : CheckContext) : Context → Node → Context → Expr → Prop
  | interpolation {Γ : Context} {raw : Bool} {value e : Expr} {span : Span}
      (part : e ∈ value.parts) : Shows context Γ (.interpolation raw value span) Γ e
  | test {Γ : Context} {arms : List Arm} {otherwise : Option (List Node)} {span : Span} {arm : Arm}
      {e : Expr} (arm_mem : arm ∈ arms) (part : e ∈ arm.test.parts) :
    Shows context Γ (.conditional arms otherwise span) Γ e
  | arm {Γ Δ : Context} {arms : List Arm} {otherwise : Option (List Node)} {span : Span} {arm : Arm}
      {node : Node} {e : Expr} (arm_mem : arm ∈ arms) (node_mem : node ∈ arm.body)
      (shown : Shows context Γ node Δ e) :
    Shows context Γ (.conditional arms otherwise span) Δ e
  | otherwise {Γ Δ : Context} {arms : List Arm} {otherwise : Option (List Node)} {span : Span}
      {node : Node} {e : Expr} (node_mem : node ∈ otherwise.getD [])
      (shown : Shows context Γ node Δ e) :
    Shows context Γ (.conditional arms otherwise span) Δ e
  | iterable {Γ : Context} {element : Binding} {index : Option Binding} {iterable : Expr}
      {body : List Node} {otherwise : Option (List Node)} {span : Span} {e : Expr}
      (part : e ∈ iterable.parts) :
    Shows context Γ (.loop element index iterable body otherwise span) Γ e
  | body {Γ Δ : Context} {element : Binding} {index : Option Binding} {iterable : Expr}
      {body : List Node} {otherwise : Option (List Node)} {span : Span} {τ : Ty} {node : Node}
      {e : Expr} (typed : iterable.HasType context.oracle Γ (.list τ)) (node_mem : node ∈ body)
      (shown : Shows context (Γ.inLoop element index τ) node Δ e) :
    Shows context Γ (.loop element index iterable body otherwise span) Δ e
  | empty {Γ Δ : Context} {element : Binding} {index : Option Binding} {iterable : Expr}
      {body : List Node} {otherwise : Option (List Node)} {span : Span} {node : Node} {e : Expr}
      (node_mem : node ∈ otherwise.getD []) (shown : Shows context Γ node Δ e) :
    Shows context Γ (.loop element index iterable body otherwise span) Δ e
  | argument {Γ : Context} {id : Nat} {target : String} {args : List Argument} {span : Span}
      {arg : Argument} {e : Expr} (arg_mem : arg ∈ args) (part : e ∈ arg.value.parts) :
    Shows context Γ (.inclusion id target args span) Γ e

def Template.Shows (context : CheckContext) (t : Template) (Δ : Context) (e : Expr) : Prop :=
  ∃ Γ, t.Declares context.oracle Γ ∧ ∃ node ∈ t.body, node.Shows context Γ Δ e

-- The type recorded under the number of an expression.
def CheckedTemplate.typeOf? (checked : CheckedTemplate) (e : Expr) : Option Ty :=
  ((Statement.notesOfAll checked.body).find? (·.id == e.id)).map (·.type)

section Coverage

variable {context : CheckContext}

mutual

-- Every expression of a well-typed body stands in some context.
theorem Node.WellTyped.shows : ∀ (node : Node) {Γ : Context}, node.WellTyped context Γ →
    ∀ e ∈ node.exprs, ∃ Δ, node.Shows context Γ Δ e
  | .text _ _, _, _, e, he => by simp [Node.exprs] at he
  | .interpolation _ value _, Γ, _, e, he => ⟨Γ, .interpolation (by simpa [Node.exprs] using he)⟩
  | .conditional arms otherwise _, Γ, .conditional tests bodies otherwise_typed, e, he => by
    rw [Node.exprs_conditional] at he
    obtain harms | hotherwise := List.mem_append.mp he
    · obtain ⟨arm, harm, hpart | ⟨node, hnode, Δ, hshown⟩⟩ := Arm.shows arms bodies e harms
      · exact ⟨Γ, .test harm hpart⟩
      · exact ⟨Δ, .arm harm hnode hshown⟩
    · obtain ⟨node, hnode, Δ, hshown⟩ :=
        Node.WellTyped.showsOtherwise otherwise otherwise_typed e hotherwise
      exact ⟨Δ, .otherwise hnode hshown⟩
  | .loop element index iterable body otherwise _, Γ, .loop typed body_typed otherwise_typed, e,
      he => by
    rw [Node.exprs_loop, List.append_assoc] at he
    obtain hpart | hinner := List.mem_append.mp he
    · exact ⟨Γ, .iterable hpart⟩
    · obtain hbody | hotherwise := List.mem_append.mp hinner
      · obtain ⟨node, hnode, Δ, hshown⟩ := Node.WellTyped.showsAll body body_typed e hbody
        exact ⟨Δ, .body typed hnode hshown⟩
      · obtain ⟨node, hnode, Δ, hshown⟩ :=
          Node.WellTyped.showsOtherwise otherwise otherwise_typed e hotherwise
        exact ⟨Δ, .empty hnode hshown⟩
  | .inclusion _ _ args _, Γ, _, e, he => by
    rw [Node.exprs, Expr.partsOfAll_eq_flatMap, List.flatMap_map] at he
    obtain ⟨arg, harg, hpart⟩ := List.mem_flatMap.mp he
    exact ⟨Γ, .argument harg hpart⟩

theorem Node.WellTyped.showsAll : ∀ (nodes : List Node) {Γ : Context},
    (∀ node ∈ nodes, node.WellTyped context Γ) →
    ∀ e ∈ Node.exprsOfAll nodes, ∃ node ∈ nodes, ∃ Δ, node.Shows context Γ Δ e
  | [], _, _, e, he => by simp [Node.exprsOfAll] at he
  | node :: nodes, _, h, e, he => by
    obtain ⟨hnode, hnodes⟩ := List.forall_mem_cons.mp h
    obtain hfirst | hrest := List.mem_append.mp he
    · exact ⟨node, List.mem_cons_self, Node.WellTyped.shows node hnode e hfirst⟩
    · obtain ⟨other, hother, hshown⟩ := Node.WellTyped.showsAll nodes hnodes e hrest
      exact ⟨other, List.mem_cons_of_mem node hother, hshown⟩

theorem Node.WellTyped.showsOtherwise : ∀ (otherwise : Option (List Node)) {Γ : Context},
    (∀ node ∈ otherwise.getD [], node.WellTyped context Γ) →
    ∀ e ∈ Node.exprsOfAll (otherwise.getD []),
      ∃ node ∈ otherwise.getD [], ∃ Δ, node.Shows context Γ Δ e
  | none, _, _, e, he => by simp [Node.exprsOfAll] at he
  | some nodes, _, h, e, he => Node.WellTyped.showsAll nodes h e he

theorem Arm.shows : ∀ (arms : List Arm) {Γ : Context},
    (∀ arm ∈ arms, ∀ node ∈ arm.body, node.WellTyped context Γ) →
    ∀ e ∈ Node.exprsOfArms arms, ∃ arm ∈ arms,
      e ∈ arm.test.parts ∨ ∃ node ∈ arm.body, ∃ Δ, node.Shows context Γ Δ e
  | [], _, _, e, he => by simp [Node.exprsOfArms] at he
  | .mk test body :: arms, _, h, e, he => by
    obtain ⟨hbody, harms⟩ := List.forall_mem_cons.mp h
    have hcases : e ∈ test.parts ∨ e ∈ Node.exprsOfAll body ∨ e ∈ Node.exprsOfArms arms := by
      simpa [Node.exprsOfArms, or_assoc] using he
    obtain htest | hshown | hrest := hcases
    · exact ⟨.mk test body, List.mem_cons_self, .inl htest⟩
    · exact ⟨.mk test body, List.mem_cons_self, .inr (Node.WellTyped.showsAll body hbody e hshown)⟩
    · obtain ⟨arm, harm, hshown⟩ := Arm.shows arms harms e hrest
      exact ⟨arm, List.mem_cons_of_mem _ harm, hshown⟩

end

end Coverage

namespace Expr

variable {oracle : Oracle} {Γ : Context}

-- A note is about an expression if it has its number, and a type that is derivable for it.
def Noted (oracle : Oracle) (Γ : Context) (e : Expr) (n : Note) : Prop :=
  n.id = e.id ∧ e.HasType oracle Γ n.type

mutual

-- The notes of a term are about the parts of its expression, one by one.
theorem noted_of_elaborates : ∀ {e : Expr} {t : Term}, e.Elaborates oracle Γ.scope t →
    List.Forall₂ (Noted oracle Γ) e.parts t.notes
  | _, _, .literal m value => .cons ⟨rfl, hasType_of_elaborates (.literal m value)⟩ .nil
  | _, _, .name found => .cons ⟨rfl, hasType_of_elaborates (.name found)⟩ .nil
  | _, _, .list items joined =>
    .cons ⟨rfl, hasType_of_elaborates (.list items joined)⟩ (noted_of_elaborateAll items)
  | _, _, .field object typed found =>
    .cons ⟨rfl, hasType_of_elaborates (.field object typed found)⟩ (noted_of_elaborates object)
  | _, _, .method object typed found args accepted =>
    .cons ⟨rfl, hasType_of_elaborates (.method object typed found args accepted)⟩
      (List.rel_append (noted_of_elaborates object) (noted_of_elaborateAll args))
  | _, _, .builtin object found => by
    have hobject := noted_of_elaborates object
    rw [parts, partsOfAll, List.append_nil]
    exact .cons ⟨rfl, hasType_of_elaborates (.builtin object found)⟩ hobject
  | _, _, .contains object found needle accepted => by
    have hargs := List.rel_append (noted_of_elaborates object) (noted_of_elaborates needle)
    rw [parts, partsOfAll, partsOfAll, List.append_nil]
    exact .cons ⟨rfl, hasType_of_elaborates (.contains object found needle accepted)⟩ hargs
  | _, _, .unary operand typed =>
    .cons ⟨rfl, hasType_of_elaborates (.unary operand typed)⟩ (noted_of_elaborates operand)
  | _, _, .binary lhs rhs typed =>
    .cons ⟨rfl, hasType_of_elaborates (.binary lhs rhs typed)⟩
      (List.rel_append (noted_of_elaborates lhs) (noted_of_elaborates rhs))

theorem noted_of_elaborateAll : ∀ {es : List Expr} {ts : List Term},
    ElaborateAll oracle Γ.scope es ts →
    List.Forall₂ (Noted oracle Γ) (partsOfAll es) (Term.notesOfAll ts)
  | _, _, .nil => .nil
  | _, _, .cons first rest =>
    List.rel_append (noted_of_elaborates first) (noted_of_elaborateAll rest)

end

theorem exists_noted {es : List Expr} {ns : List Note}
    (h : List.Forall₂ (Noted oracle Γ) es ns) : ∀ e ∈ es, ∃ n ∈ ns, e.Noted oracle Γ n := by
  induction h with
  | nil => simp
  | @cons first n es ns hfirst _ ih =>
    intro e he
    obtain rfl | he := List.mem_cons.mp he
    · exact ⟨n, List.mem_cons_self, hfirst⟩
    · obtain ⟨m, hm, hnoted⟩ := ih e he
      exact ⟨m, List.mem_cons_of_mem n hm, hnoted⟩

theorem ids_of_noted {es : List Expr} {ns : List Note} (h : List.Forall₂ (Noted oracle Γ) es ns) :
    ns.map (·.id) = es.map Expr.id := by
  induction h with
  | nil => rfl
  | cons hfirst _ ih => rw [List.map_cons, List.map_cons, ih, hfirst.1]

theorem noted_of_check {e : Expr} {t : Term} (h : e.check oracle Γ.scope = pure (some t)) :
    List.Forall₂ (Noted oracle Γ) e.parts t.notes :=
  noted_of_elaborates (elaborates_of_check e h)

end Expr

theorem Term.notesOfAll_eq_flatMap (ts : List Term) : notesOfAll ts = ts.flatMap notes := by
  induction ts with
  | nil => rfl
  | cons t ts ih => simp [notesOfAll, ih]

theorem Statement.mem_notesOfAll {s : Statement} {ss : List Statement} {n : Note} (hs : s ∈ ss)
    (hn : n ∈ s.notes) : n ∈ notesOfAll ss := by
  induction ss with
  | nil => cases hs
  | cons first ss ih =>
    obtain rfl | hs := List.mem_cons.mp hs
    · exact List.mem_append_left _ hn
    · exact List.mem_append_right _ (ih hs)

theorem Statement.mem_notesOfBranches {test : Term} {body : List Statement}
    {branches : List Branch} {n : Note} (hmem : Branch.mk test body ∈ branches)
    (hn : n ∈ test.notes ++ notesOfAll body) : n ∈ notesOfBranches branches := by
  induction branches with
  | nil => cases hmem
  | cons first branches ih =>
    obtain rfl | hrest := List.mem_cons.mp hmem
    · exact List.mem_append_left _ hn
    · cases first with
      | mk test' body' => exact List.mem_append_right _ (ih hrest)

section Statements

variable {context : CheckContext} {Γ : Context} {s : Statement}

theorem Node.typed_loop_of_check {element : Binding} {index : Option Binding} {iterable : Expr}
    {body : List Node} {otherwise : Option (List Node)} {span : Span}
    (h : (Node.loop element index iterable body otherwise span).check context Γ.scope =
      pure (some s)) :
    ∃ t τ ss els, s = .loop t Γ.scope.length (index.map fun _ => Γ.scope.length + 1) ss els ∧
      iterable.check context.oracle Γ.scope = pure (some t) ∧ t.type = .list τ ∧
      Node.checkAll context (Γ.inLoop element index τ).scope body = pure (some ss) ∧
      Node.checkAll context Γ.scope (otherwise.getD []) = pure (some els) := by
  obtain ⟨_, _, ss, els, rfl, hit, hss, hels⟩ := Node.loop_of_check h
  obtain ⟨t, τ, hpair, ht, htype⟩ := Expr.checkIterable_iff.mp hit
  obtain ⟨rfl, rfl⟩ := Prod.mk.inj (Option.some.inj hpair)
  rw [← Context.scope_inLoop] at hss
  exact ⟨_, _, ss, els, rfl, ht, htype, hss, hels⟩

theorem Argument.elaborateAll_of_checkAll {oracle : Oracle} {args : List Argument}
    {given : List (Argument × Option Term)}
    (h : Argument.checkAll oracle Γ.scope args = pure given) :
    ∃ us, given.map (·.2) = us.map some ∧
      Expr.ElaborateAll oracle Γ.scope (args.map Argument.value) us := by
  induction args generalizing given with
  | nil =>
    obtain rfl := Check.pure_eq_pure.mp h
    exact ⟨[], rfl, .nil⟩
  | cons arg args ih =>
    obtain ⟨term, hterm, h⟩ := Check.bind_eq_pure.mp h
    obtain ⟨rest, hrest, h⟩ := Check.bind_eq_pure.mp h
    obtain rfl := Check.pure_eq_pure.mp h
    obtain ⟨t, rfl, helaborates, -⟩ := Expr.hasType_of_check hterm
    obtain ⟨us, hus, hall⟩ := ih hrest
    exact ⟨t :: us, by simp [hus], .cons helaborates hall⟩

-- An inclusion has the notes of its arguments, in the order of the parameters.
theorem Node.noted_of_inclusion {number : Nat} {target : String} {args : List Argument}
    {span : Span} (h : (Node.inclusion number target args span).check context Γ.scope = pure (some s)) :
    ∃ ns, s.notes.Perm ns ∧ List.Forall₂ (Expr.Noted context.oracle Γ)
      (Expr.partsOfAll (args.map Argument.value)) ns := by
  obtain ⟨given, hgiven, hfound⟩ := Check.bind_eq_pure.mp h
  obtain ⟨-, htyped⟩ := Argument.typed_of_checkAll hgiven
  obtain ⟨us, hus, helaborates⟩ := Argument.elaborateAll_of_checkAll hgiven
  split at hfound
  · simp at hfound
  · obtain ⟨checked, hchecked, hs⟩ := Check.bind_eq_pure.mp hfound
    obtain ⟨ts, _, rfl, -, hperm⟩ := Argument.match_of_checkInclusion htyped hchecked
    obtain rfl : Statement.inclusion target ts = s := Option.some.inj (Check.pure_eq_pure.mp hs)
    rw [hus] at hperm
    have hterms : (ts.filterMap id).Perm us := by
      simpa [List.filterMap_map] using hperm.filterMap id
    refine ⟨Term.notesOfAll us, ?_, Expr.noted_of_elaborateAll helaborates⟩
    simp only [Statement.notes, Term.notesOfAll_eq_flatMap]
    exact hterms.flatMap_right Term.notes

theorem Node.exists_of_checkAll {nodes : List Node} {ss : List Statement} {node : Node}
    (h : Node.checkAll context Γ.scope nodes = pure (some ss)) (hnode : node ∈ nodes) :
    ∃ s ∈ ss, node.check context Γ.scope = pure (some s) := by
  induction nodes generalizing ss with
  | nil => cases hnode
  | cons first nodes ih =>
    obtain ⟨_, hfirst, h⟩ := Check.bind_eq_pure.mp h
    obtain ⟨_, hrest, h⟩ := Check.bind_eq_pure.mp h
    obtain ⟨s, rfl, htail⟩ := Option.bind_eq_some_iff.mp (Check.pure_eq_pure.mp h)
    obtain ⟨tail, rfl, hss⟩ := Option.bind_eq_some_iff.mp htail
    obtain rfl := Option.some.inj hss
    obtain rfl | hnode := List.mem_cons.mp hnode
    · exact ⟨s, List.mem_cons_self, hfirst⟩
    · obtain ⟨s', hs', hcheck⟩ := ih hrest hnode
      exact ⟨s', List.mem_cons_of_mem s hs', hcheck⟩

theorem Arm.exists_of_checkAll {arms : List Arm} {branches : List Branch} {arm : Arm}
    (h : Arm.checkAll context Γ.scope arms = pure (some branches)) (harm : arm ∈ arms) :
    ∃ t ss, Branch.mk t ss ∈ branches ∧ arm.test.check context.oracle Γ.scope = pure (some t) ∧
      Node.checkAll context Γ.scope arm.body = pure (some ss) := by
  induction arms generalizing branches with
  | nil => cases harm
  | cons first arms ih =>
    obtain ⟨test, body⟩ := first
    obtain ⟨_, htest, h⟩ := Check.bind_eq_pure.mp h
    obtain ⟨_, hbody, h⟩ := Check.bind_eq_pure.mp h
    obtain ⟨_, hrest, h⟩ := Check.bind_eq_pure.mp h
    obtain ⟨t, rfl, hss⟩ := Option.bind_eq_some_iff.mp (Check.pure_eq_pure.mp h)
    obtain ⟨ss, rfl, htail⟩ := Option.bind_eq_some_iff.mp hss
    obtain ⟨tail, rfl, hbranches⟩ := Option.bind_eq_some_iff.mp htail
    obtain rfl := Option.some.inj hbranches
    obtain ⟨_, hsame, hcheck, -⟩ := Expr.checkCondition_iff.mp htest
    obtain rfl := Option.some.inj hsame
    obtain rfl | harm := List.mem_cons.mp harm
    · exact ⟨t, ss, List.mem_cons_self, hcheck, hbody⟩
    · obtain ⟨t', ss', hmem, hothers⟩ := ih hrest harm
      exact ⟨t', ss', List.mem_cons_of_mem _ hmem, hothers⟩

-- What stands in a node is noted in its statement. The induction is on where it stands.
theorem Node.Shows.noted {node : Node} {Δ : Context} {e : Expr}
    (h : node.Shows context Γ Δ e) (hs : node.check context Γ.scope = pure (some s)) :
    ∃ n ∈ s.notes, e.Noted context.oracle Δ n := by
  induction h generalizing s with
  | interpolation part =>
    obtain ⟨_, hshown, hs⟩ := Check.bind_eq_pure.mp hs
    obtain ⟨t, rfl, ht, -⟩ := Expr.checkShown_iff.mp hshown
    obtain rfl := Option.some.inj (Check.pure_eq_pure.mp hs)
    exact Expr.exists_noted (Expr.noted_of_check ht) _ part
  | test arm_mem part =>
    obtain ⟨branches, els, rfl, hbranches, -⟩ := Node.conditional_of_check hs
    obtain ⟨t, ss, hmem, ht, -⟩ := Arm.exists_of_checkAll hbranches arm_mem
    obtain ⟨n, hn, hnoted⟩ := Expr.exists_noted (Expr.noted_of_check ht) _ part
    have hbranch := Statement.mem_notesOfBranches hmem (List.mem_append_left _ hn)
    exact ⟨n, List.mem_append_left _ hbranch, hnoted⟩
  | arm arm_mem node_mem _ ih =>
    obtain ⟨branches, els, rfl, hbranches, -⟩ := Node.conditional_of_check hs
    obtain ⟨t, ss, hmem, -, hss⟩ := Arm.exists_of_checkAll hbranches arm_mem
    obtain ⟨s, hs, hcheck⟩ := Node.exists_of_checkAll hss node_mem
    obtain ⟨n, hn, hnoted⟩ := ih hcheck
    have hbranch := Statement.mem_notesOfBranches hmem
      (List.mem_append_right _ (Statement.mem_notesOfAll hs hn))
    exact ⟨n, List.mem_append_left _ hbranch, hnoted⟩
  | otherwise node_mem _ ih =>
    obtain ⟨branches, els, rfl, -, hels⟩ := Node.conditional_of_check hs
    obtain ⟨s, hs, hcheck⟩ := Node.exists_of_checkAll hels node_mem
    obtain ⟨n, hn, hnoted⟩ := ih hcheck
    exact ⟨n, List.mem_append_right _ (Statement.mem_notesOfAll hs hn), hnoted⟩
  | iterable part =>
    obtain ⟨t, τ, ss, els, rfl, ht, -⟩ := Node.typed_loop_of_check hs
    obtain ⟨n, hn, hnoted⟩ := Expr.exists_noted (Expr.noted_of_check ht) _ part
    exact ⟨n, List.mem_append_left _ (List.mem_append_left _ hn), hnoted⟩
  | body typed node_mem _ ih =>
    obtain ⟨t, τ, ss, els, rfl, ht, htype, hss, -⟩ := Node.typed_loop_of_check hs
    -- The context of the body is the one that was checked: the list has one type.
    have hτ := typed.unique (Expr.hasType_iff.mpr ⟨t, ht, htype⟩)
    obtain rfl := Ty.list.inj hτ
    obtain ⟨s, hs, hcheck⟩ := Node.exists_of_checkAll hss node_mem
    obtain ⟨n, hn, hnoted⟩ := ih hcheck
    exact ⟨n, List.mem_append_left _
      (List.mem_append_right _ (Statement.mem_notesOfAll hs hn)), hnoted⟩
  | empty node_mem _ ih =>
    obtain ⟨t, τ, ss, els, rfl, -, -, -, hels⟩ := Node.typed_loop_of_check hs
    obtain ⟨s, hs, hcheck⟩ := Node.exists_of_checkAll hels node_mem
    obtain ⟨n, hn, hnoted⟩ := ih hcheck
    exact ⟨n, List.mem_append_right _ (Statement.mem_notesOfAll hs hn), hnoted⟩
  | @argument _ _ _ args _ arg e arg_mem part =>
    obtain ⟨ns, hperm, hnoted⟩ := Node.noted_of_inclusion hs
    have hmem : e ∈ Expr.partsOfAll (args.map Argument.value) := by
      rw [Expr.partsOfAll_eq_flatMap, List.flatMap_map]
      exact List.mem_flatMap.mpr ⟨arg, arg_mem, part⟩
    obtain ⟨n, hn, hn'⟩ := Expr.exists_noted hnoted e hmem
    exact ⟨n, hperm.mem_iff.mpr hn, hn'⟩

end Statements

section Numbers

variable {context : CheckContext}

mutual

-- A statement has as many notes as expressions stand in its node, with their numbers.
theorem Node.ids_of_check : ∀ (node : Node) {Γ : Context} {s : Statement},
    node.check context Γ.scope = pure (some s) →
    (s.notes.map (·.id)).Perm (node.exprs.map Expr.id)
  | .text _ _, _, _, h => by
    obtain rfl := Option.some.inj (Check.pure_eq_pure.mp h)
    exact List.Perm.refl _
  | .interpolation _ value _, _, _, h => by
    obtain ⟨_, hshown, h⟩ := Check.bind_eq_pure.mp h
    obtain ⟨t, rfl, ht, -⟩ := Expr.checkShown_iff.mp hshown
    obtain rfl := Option.some.inj (Check.pure_eq_pure.mp h)
    simp only [Statement.notes, Node.exprs]
    rw [Expr.ids_of_noted (Expr.noted_of_check ht)]
  | .conditional arms otherwise _, _, _, h => by
    obtain ⟨branches, els, rfl, hbranches, hels⟩ := Node.conditional_of_check h
    simp only [Statement.notes, Node.exprs_conditional, List.map_append]
    exact (Arm.ids_of_checkAll arms hbranches).append (Node.ids_of_checkOtherwise otherwise hels)
  | .loop element index iterable body otherwise _, _, _, h => by
    obtain ⟨t, τ, ss, els, rfl, ht, -, hss, hels⟩ := Node.typed_loop_of_check h
    have hiterable := Expr.ids_of_noted (Expr.noted_of_check ht)
    have hbody := (Node.ids_of_checkAll body hss).append_left (iterable.parts.map Expr.id)
    simp only [Statement.notes, Node.exprs_loop, List.map_append, hiterable]
    exact hbody.append (Node.ids_of_checkOtherwise otherwise hels)
  | .inclusion _ _ args _, _, _, h => by
    obtain ⟨ns, hperm, hnoted⟩ := Node.noted_of_inclusion h
    rw [Node.exprs, ← Expr.ids_of_noted hnoted]
    exact hperm.map _

theorem Node.ids_of_checkAll : ∀ (nodes : List Node) {Γ : Context} {ss : List Statement},
    Node.checkAll context Γ.scope nodes = pure (some ss) →
    ((Statement.notesOfAll ss).map (·.id)).Perm ((Node.exprsOfAll nodes).map Expr.id)
  | [], _, _, h => by
    obtain rfl := Option.some.inj (Check.pure_eq_pure.mp h)
    exact List.Perm.refl _
  | node :: nodes, _, _, h => by
    obtain ⟨_, hfirst, h⟩ := Check.bind_eq_pure.mp h
    obtain ⟨_, hrest, h⟩ := Check.bind_eq_pure.mp h
    obtain ⟨s, rfl, htail⟩ := Option.bind_eq_some_iff.mp (Check.pure_eq_pure.mp h)
    obtain ⟨tail, rfl, hss⟩ := Option.bind_eq_some_iff.mp htail
    obtain rfl := Option.some.inj hss
    simp only [Statement.notesOfAll, Node.exprsOfAll, List.map_append]
    exact (Node.ids_of_check node hfirst).append (Node.ids_of_checkAll nodes hrest)

theorem Node.ids_of_checkOtherwise : ∀ (otherwise : Option (List Node)) {Γ : Context}
    {ss : List Statement},
    Node.checkAll context Γ.scope (otherwise.getD []) = pure (some ss) →
    ((Statement.notesOfAll ss).map (·.id)).Perm
      ((Node.exprsOfAll (otherwise.getD [])).map Expr.id)
  | none, _, _, h => by
    obtain rfl := Option.some.inj (Check.pure_eq_pure.mp h)
    exact List.Perm.refl _
  | some nodes, _, _, h => Node.ids_of_checkAll nodes h

theorem Arm.ids_of_checkAll : ∀ (arms : List Arm) {Γ : Context} {branches : List Branch},
    Arm.checkAll context Γ.scope arms = pure (some branches) →
    ((Statement.notesOfBranches branches).map (·.id)).Perm
      ((Node.exprsOfArms arms).map Expr.id)
  | [], _, _, h => by
    obtain rfl := Option.some.inj (Check.pure_eq_pure.mp h)
    exact List.Perm.refl _
  | .mk test body :: arms, _, _, h => by
    obtain ⟨_, htest, h⟩ := Check.bind_eq_pure.mp h
    obtain ⟨_, hbody, h⟩ := Check.bind_eq_pure.mp h
    obtain ⟨_, hrest, h⟩ := Check.bind_eq_pure.mp h
    obtain ⟨t, rfl, hss⟩ := Option.bind_eq_some_iff.mp (Check.pure_eq_pure.mp h)
    obtain ⟨ss, rfl, htail⟩ := Option.bind_eq_some_iff.mp hss
    obtain ⟨tail, rfl, hbranches⟩ := Option.bind_eq_some_iff.mp htail
    obtain rfl := Option.some.inj hbranches
    obtain ⟨_, hsame, ht, -⟩ := Expr.checkCondition_iff.mp htest
    obtain rfl := Option.some.inj hsame
    simp only [Statement.notesOfBranches, Node.exprsOfArms, List.map_append,
      Expr.ids_of_noted (Expr.noted_of_check ht)]
    exact ((Node.ids_of_checkAll body hbody).append_left _).append (Arm.ids_of_checkAll arms hrest)

end

end Numbers

-- Where numbers are different, a note is found by its number.
theorem CheckedTemplate.typeOf?_of_mem {checked : CheckedTemplate} {e : Expr} {n : Note}
    (hdistinct : ((Statement.notesOfAll checked.body).map (·.id)).Nodup)
    (hn : n ∈ Statement.notesOfAll checked.body) (hid : n.id = e.id) :
    checked.typeOf? e = some n.type := by
  have hsome : ((Statement.notesOfAll checked.body).find? (·.id == e.id)).isSome = true :=
    List.find?_isSome.mpr ⟨n, hn, by simpa using hid⟩
  obtain ⟨m, hm⟩ := Option.isSome_iff_exists.mp hsome
  have hmem := List.mem_of_find?_eq_some hm
  have hsame : m.id = n.id := by simpa [hid] using List.find?_some hm
  obtain rfl : m = n := List.inj_on_of_nodup_map hdistinct hmem hn hsame
  simp [typeOf?, hm]

namespace Template

variable {context : CheckContext} {source : String} {t : Template} {checked : CheckedTemplate}

-- The body is checked in the one context that the header declares.
theorem checkAll_of_bind {Γ : Context} (h : t.bind context source = .ok checked)
    (hdeclares : t.Declares context.oracle Γ) :
    Node.checkAll context Γ.scope t.body = pure (some checked.body) := by
  obtain ⟨⟨schema, scope⟩, hheader, hcheck⟩ := Check.bind_eq_pure.mp (check_of_bind h)
  obtain ⟨body, hbody, hresult⟩ := Check.bind_eq_pure.mp hcheck
  obtain ⟨ss, rfl, rfl⟩ := Option.map_eq_some_iff.mp (Check.pure_eq_pure.mp hresult)
  obtain ⟨schema', hheader'⟩ := checkHeader_of_declares hdeclares
  have hsame := Check.pure_eq_pure.mp (hheader.symm.trans hheader')
  obtain rfl : scope = Γ.scope := (Prod.mk.inj hsame).2
  exact hbody

theorem typeOf?_of_shows {Δ : Context} {e : Expr} (hdistinct : (t.exprs.map Expr.id).Nodup)
    (h : t.bind context source = .ok checked) (hshown : t.Shows context Δ e) :
    ∃ τ, checked.typeOf? e = some τ ∧ e.HasType context.oracle Δ τ := by
  obtain ⟨Γ, hdeclares, node, hnode, hshown⟩ := hshown
  have hbody := checkAll_of_bind h hdeclares
  obtain ⟨s, hs, hcheck⟩ := Node.exists_of_checkAll hbody hnode
  obtain ⟨n, hn, hid, htype⟩ := hshown.noted hcheck
  have hids := (Node.ids_of_checkAll t.body hbody).nodup_iff.mpr hdistinct
  exact ⟨n.type, CheckedTemplate.typeOf?_of_mem hids (Statement.mem_notesOfAll hs hn) hid, htype⟩

-- Checking a template that was read decides the type system. It is accepted just if it is well
-- typed, and is not refused without a complaint. Then each expression of its body stands in some
-- context, and the type that is recorded for it is the only one that is derivable there.
theorem bind_decides {text : String} {trimLines : Bool} (context : CheckContext) (source : String)
    (hparse : parse text trimLines = .ok t) :
    ((∃ checked, t.bind context source = .ok checked) ↔ t.WellTyped context) ∧
    (∀ errors, t.bind context source = .error errors → errors ≠ []) ∧
    ∀ checked, t.bind context source = .ok checked →
      (∀ e ∈ t.exprs, ∃ Γ, t.Shows context Γ e) ∧
      ∀ Γ e, t.Shows context Γ e →
        ∃ τ, checked.typeOf? e = some τ ∧ ∀ σ, e.HasType context.oracle Γ σ ↔ σ = τ := by
  refine ⟨exists_bind_iff, fun errors => ne_nil_of_bind, fun checked h => ⟨fun e he => ?_, ?_⟩⟩
  · obtain ⟨Γ, hdeclares, hnodes⟩ := exists_bind_iff.mp ⟨checked, h⟩
    obtain ⟨node, hnode, Δ, hshown⟩ := Node.WellTyped.showsAll t.body hnodes e he
    exact ⟨Δ, Γ, hdeclares, node, hnode, hshown⟩
  · intro Γ e hshown
    obtain ⟨τ, hrecorded, htype⟩ := typeOf?_of_shows (nodup_of_parse hparse) h hshown
    refine ⟨τ, hrecorded, fun σ => ⟨fun hσ => hσ.unique htype, ?_⟩⟩
    rintro rfl
    exact htype

-- A loop over floats. The element of the list is a float, and so is its half.
def halving : String := "@param list<float> xs\n@for(x in xs)${x / 2}@end"

theorem bind_decides_halving :
    let context : CheckContext := ⟨Declarations.empty.oracle, fun _ => none⟩
    ∃ t checked, parse halving false = .ok t ∧ t.bind context halving = .ok checked ∧
      t.WellTyped context ∧
      t.exprs.map checked.typeOf? = [some (.list .float), some .float, some .float, some .int] ∧
      ∀ e ∈ t.exprs, ∃ Γ τ, checked.typeOf? e = some τ ∧ e.HasType context.oracle Γ τ := by
  intro context
  have hrun : (parse halving false).toOption.bind (fun t =>
      (t.bind context halving).toOption.map fun checked => t.exprs.map checked.typeOf?) =
        some [some (.list .float), some .float, some .float, some .int] := by decide +kernel
  obtain ⟨t, ht, hrun⟩ := Option.bind_eq_some_iff.mp hrun
  obtain ⟨checked, hchecked, htypes⟩ := Option.map_eq_some_iff.mp hrun
  have hparse : parse halving false = .ok t := eq_ok_of_toOption ht
  have hbind : t.bind context halving = .ok checked := eq_ok_of_toOption hchecked
  obtain ⟨haccepts, -, hrecords⟩ := bind_decides context halving hparse
  obtain ⟨hshown, htyped⟩ := hrecords checked hbind
  refine ⟨t, checked, hparse, hbind, haccepts.mp ⟨checked, hbind⟩, htypes, fun e he => ?_⟩
  obtain ⟨Γ, hΓ⟩ := hshown e he
  obtain ⟨τ, hτ, hunique⟩ := htyped Γ e hΓ
  exact ⟨Γ, τ, hτ, (hunique τ).mpr rfl⟩

end Template

namespace Check

variable {α β γ : Type}

theorem pure_bind (a : α) (f : α → Check β) : pure a >>= f = f a := rfl

theorem bind_assoc (c : Check α) (f : α → Check β) (g : β → Check γ) :
    c >>= f >>= g = c >>= fun a => f a >>= g :=
  congrArg (Check.mk · _) (List.append_assoc _ _ _)

theorem bind_congr {c : Check α} {f g : α → Check β} (h : ∀ a, f a = g a) : c >>= f = c >>= g :=
  congrArg (c >>= ·) (funext h)

end Check

namespace Expr

variable {oracle : Oracle} {scope : Scope}

-- What is checked of an expression itself, given its operands with what checking them gave.
def checkOwn (oracle : Oracle) (scope : Scope) :
    Expr → List (Span × Option Term) → Check (Option Term)
  | .list m _, items => do
    let element ← checkItems .null items
    return do return .list ⟨m.id, .list (← element)⟩ (← items.mapM (·.2))
  | .member m _ field, [(_, some object)] => checkMember oracle m object field
  | .call m _ method _, (_, some object) :: args => checkCall oracle m object method args
  | .unary m op _, [(_, some t)] =>
    match op.type? t.type with
    | some type => pure (some (.unary ⟨m.id, type⟩ op t))
    | none => Check.reject (.invalidOperands op.symbol [t.type]) m.span
  | .binary m op _ _, [(_, some a), (_, some b)] =>
    match op.type? a.type b.type with
    | some type => pure (some (.binary ⟨m.id, type⟩ op a b))
    | none => Check.reject (.invalidOperands op.symbol [a.type, b.type]) m.span
  | .literal m value, _ => (Expr.literal m value).check oracle scope
  | .name m ident, _ => (Expr.name m ident).check oracle scope
  | _, _ => pure none

theorem checkAll_eq (es : List Expr) : checkAll oracle scope es =
    ⟨es.flatMap fun e => (e.check oracle scope).complaints,
      es.map fun e => (e.span, (e.check oracle scope).result)⟩ := by
  induction es with
  | nil => rfl
  | cons e es ih =>
    rw [checkAll, ih]
    simp [bind, pure]

theorem complaints_checkAll (es : List Expr) : (checkAll oracle scope es).complaints =
    es.flatMap fun e => (e.check oracle scope).complaints := by
  rw [checkAll_eq]

-- The operands are checked first.
theorem check_eq (e : Expr) : e.check oracle scope =
    (do checkOwn oracle scope e (← checkAll oracle scope e.operands)) := by
  cases e with
  | literal m value => rfl
  | name m ident => rfl
  | list m items => rfl
  | member m object field =>
    simp only [check, operands, checkAll, Check.bind_assoc, Check.pure_bind]
    refine Check.bind_congr fun object => ?_
    cases object <;> rfl
  | call m object method args =>
    simp only [check, operands, checkAll, Check.bind_assoc, Check.pure_bind]
    refine Check.bind_congr fun object => Check.bind_congr fun args => ?_
    cases object <;> rfl
  | unary m op operand =>
    simp only [check, operands, checkAll, Check.bind_assoc, Check.pure_bind]
    refine Check.bind_congr fun t => ?_
    cases t <;> rfl
  | binary m op lhs rhs =>
    simp only [check, operands, checkAll, Check.bind_assoc, Check.pure_bind]
    refine Check.bind_congr fun a => Check.bind_congr fun b => ?_
    cases a <;> cases b <;> rfl

-- The operands with what checking them gave.
def checkedOperands (oracle : Oracle) (scope : Scope) (e : Expr) : List (Span × Option Term) :=
  e.operands.map fun o => (o.span, (o.check oracle scope).result)

theorem complaints_eq (e : Expr) : (e.check oracle scope).complaints =
    e.operands.flatMap (fun o => (o.check oracle scope).complaints) ++
      (checkOwn oracle scope e (e.checkedOperands oracle scope)).complaints := by
  rw [check_eq, checkAll_eq]
  rfl

theorem result_eq (e : Expr) : (e.check oracle scope).result =
    (checkOwn oracle scope e (e.checkedOperands oracle scope)).result := by
  rw [check_eq, checkAll_eq]
  rfl

end Expr

end Stencil
