import Stencil.Proofs.Typing.Arguments

/-!
Which statements a body stands for, as rules, and what a checked header says of the parameters.
-/

namespace Stencil

-- The arguments of an inclusion, checked, are the arguments with what checking them gave.
theorem Argument.sound_of_checkAll {oracle : Oracle} {scope : Scope} {args : List Argument}
    {terms : List (Argument × Option Term)}
    (h : Argument.checkAll oracle scope args = pure terms) :
    terms.map (·.1) = args ∧ Plan.Sound oracle scope terms := by
  induction args generalizing terms with
  | nil =>
    obtain rfl : [] = terms := by simpa [Argument.checkAll] using h
    exact ⟨rfl, fun _ hmem => nomatch hmem⟩
  | cons arg args ih =>
    obtain ⟨term, hterm, h⟩ := Check.bind_eq_pure.mp h
    obtain ⟨rest, hrest, h⟩ := Check.bind_eq_pure.mp h
    obtain rfl : (arg, term) :: rest = terms := Check.pure_eq_pure.mp h
    obtain ⟨hmap, hsound⟩ := ih hrest
    refine ⟨by simp [hmap], fun given hmem => ?_⟩
    obtain rfl | hmem := List.mem_cons.mp hmem
    · exact hterm
    · exact hsound given hmem

mutual

-- A node of a template, in a scope, stands for a statement.
inductive Node.Elaborates (context : CheckContext) : Scope → Node → Statement → Prop
  | text {scope : Scope} (content : String) (span : Span) :
    Node.Elaborates context scope (.text content span) (.text content)
  | interpolation {scope : Scope} {raw : Bool} {value : Expr} {span : Span} {t : Term}
      (value_elaborates : value.Elaborates context.oracle scope t)
      (renderable : t.type.isRenderable = true) :
    Node.Elaborates context scope (.interpolation raw value span) (.interpolation raw t)
  | conditional {scope : Scope} {arms : List Arm} {otherwise : Option (List Node)} {span : Span}
      {branches : List Branch} {els : List Statement}
      (arms_elaborate : Arm.ElaborateAll context scope arms branches)
      (otherwise_elaborates : Node.ElaborateAll context scope (otherwise.getD []) els) :
    Node.Elaborates context scope (.conditional arms otherwise span) (.conditional branches els)
  | loop {scope : Scope} {element : Binding} {index : Option Binding} {iterable : Expr}
      {body : List Node} {otherwise : Option (List Node)} {span : Span} {it : Term} {item : Ty}
      {statements els : List Statement}
      (iterable_elaborates : iterable.Elaborates context.oracle scope it)
      (typed : it.type = .list item)
      (body_elaborates :
        Node.ElaborateAll context (scope.inLoop element index (some item)) body statements)
      (otherwise_elaborates : Node.ElaborateAll context scope (otherwise.getD []) els) :
    Node.Elaborates context scope (.loop element index iterable body otherwise span)
      (.loop it scope.length (index.map fun _ => scope.length + 1) statements els)
  | inclusion {scope : Scope} {id : Nat} {target : String} {args : List Argument} {span : Span}
      {schema : Schema} {ts : List (Option Term)} (found : context.schemas target = some schema)
      (filled : Argument.Fill context.oracle scope schema args 0 schema.params ts) :
    Node.Elaborates context scope (.inclusion id target args span) (.inclusion target ts)

inductive Node.ElaborateAll (context : CheckContext) : Scope → List Node → List Statement → Prop
  | nil {scope : Scope} : Node.ElaborateAll context scope [] []
  | cons {scope : Scope} {node : Node} {s : Statement} {nodes : List Node} {ss : List Statement}
      (first : Node.Elaborates context scope node s)
      (rest : Node.ElaborateAll context scope nodes ss) :
    Node.ElaborateAll context scope (node :: nodes) (s :: ss)

inductive Arm.ElaborateAll (context : CheckContext) : Scope → List Arm → List Branch → Prop
  | nil {scope : Scope} : Arm.ElaborateAll context scope [] []
  | cons {scope : Scope} {test : Expr} {body : List Node} {arms : List Arm} {t : Term}
      {ss : List Statement} {branches : List Branch}
      (test_elaborates : test.Elaborates context.oracle scope t) (typed : t.type = .bool)
      (body_elaborates : Node.ElaborateAll context scope body ss)
      (rest : Arm.ElaborateAll context scope arms branches) :
    Arm.ElaborateAll context scope (.mk test body :: arms) (.mk t ss :: branches)

end

namespace Node

variable {context : CheckContext} {scope : Scope}

-- A missing alternative is checked like an empty one.
theorem check_conditional_iff {arms : List Arm} {otherwise : Option (List Node)} {span : Span}
    {r : Option Statement} :
    (Node.conditional arms otherwise span).check context scope = pure r ↔
      ∃ branches els, Arm.checkAll context scope arms = pure branches ∧
        Node.checkAll context scope (otherwise.getD []) = pure els ∧
        r = (do return .conditional (← branches) (← els)) := by
  rw [Node.check]
  constructor
  · intro h
    obtain ⟨branches, hbranches, h⟩ := Check.bind_eq_pure.mp h
    cases otherwise with
    | none =>
      refine ⟨branches, some [], hbranches, rfl, (Check.pure_eq_pure.mp h).symm.trans ?_⟩
      cases branches <;> rfl
    | some nodes =>
      obtain ⟨els, hels, h⟩ := Check.bind_eq_pure.mp h
      exact ⟨branches, els, hbranches, hels, (Check.pure_eq_pure.mp h).symm⟩
  · rintro ⟨branches, els, hbranches, hels, rfl⟩
    refine Check.bind_eq_pure.mpr ⟨branches, hbranches, ?_⟩
    cases otherwise with
    | none =>
      obtain rfl : some [] = els := Check.pure_eq_pure.mp hels
      cases branches <;> rfl
    | some nodes => exact Check.bind_eq_pure.mpr ⟨els, hels, rfl⟩

theorem check_loop_iff {element : Binding} {index : Option Binding} {iterable : Expr}
    {body : List Node} {otherwise : Option (List Node)} {span : Span} {r : Option Statement} :
    (Node.loop element index iterable body otherwise span).check context scope = pure r ↔
      ∃ it ss els, iterable.checkIterable context.oracle scope = pure it ∧
        Node.checkAll context (scope.inLoop element index (it.map (·.2))) body = pure ss ∧
        Node.checkAll context scope (otherwise.getD []) = pure els ∧
        r = (do
          let (t, _) ← it
          return .loop t scope.length (index.map fun _ => scope.length + 1) (← ss) (← els)) := by
  rw [Node.check]
  constructor
  · intro h
    obtain ⟨it, hit, h⟩ := Check.bind_eq_pure.mp h
    obtain ⟨ss, hss, h⟩ := Check.bind_eq_pure.mp h
    cases otherwise with
    | none =>
      exact ⟨it, ss, some [], hit, hss, rfl, (Check.pure_eq_pure.mp h).symm⟩
    | some nodes =>
      obtain ⟨els, hels, h⟩ := Check.bind_eq_pure.mp h
      exact ⟨it, ss, els, hit, hss, hels, (Check.pure_eq_pure.mp h).symm⟩
  · rintro ⟨it, ss, els, hit, hss, hels, rfl⟩
    refine Check.bind_eq_pure.mpr ⟨it, hit, Check.bind_eq_pure.mpr ⟨ss, hss, ?_⟩⟩
    cases otherwise with
    | none =>
      obtain rfl : some [] = els := Check.pure_eq_pure.mp hels
      rfl
    | some nodes => exact Check.bind_eq_pure.mpr ⟨els, hels, rfl⟩

-- What is known of the parts once there is a statement for the whole.
theorem conditional_of_check {arms : List Arm} {otherwise : Option (List Node)} {span : Span}
    {s : Statement}
    (h : (Node.conditional arms otherwise span).check context scope = pure (some s)) :
    ∃ branches els, s = .conditional branches els ∧
      Arm.checkAll context scope arms = pure (some branches) ∧
      Node.checkAll context scope (otherwise.getD []) = pure (some els) := by
  obtain ⟨_, _, hbranches, hels, hresult⟩ := check_conditional_iff.mp h
  obtain ⟨branches, rfl, hrest⟩ := Option.bind_eq_some_iff.mp hresult.symm
  obtain ⟨els, rfl, hs⟩ := Option.bind_eq_some_iff.mp hrest
  exact ⟨branches, els, (Option.some.inj hs).symm, hbranches, hels⟩

theorem loop_of_check {element : Binding} {index : Option Binding} {iterable : Expr}
    {body : List Node} {otherwise : Option (List Node)} {span : Span} {s : Statement}
    (h : (Node.loop element index iterable body otherwise span).check context scope =
      pure (some s)) :
    ∃ t item ss els,
      s = .loop t scope.length (index.map fun _ => scope.length + 1) ss els ∧
      iterable.checkIterable context.oracle scope = pure (some (t, item)) ∧
      Node.checkAll context (scope.inLoop element index (some item)) body = pure (some ss) ∧
      Node.checkAll context scope (otherwise.getD []) = pure (some els) := by
  obtain ⟨_, _, _, hit, hss, hels, hresult⟩ := check_loop_iff.mp h
  obtain ⟨⟨t, item⟩, rfl, hbody⟩ := Option.bind_eq_some_iff.mp hresult.symm
  obtain ⟨ss, rfl, hrest⟩ := Option.bind_eq_some_iff.mp hbody
  obtain ⟨els, rfl, hs⟩ := Option.bind_eq_some_iff.mp hrest
  exact ⟨t, item, ss, els, (Option.some.inj hs).symm, hit, hss, hels⟩

end Node

theorem Node.elaborates_of_inclusion {context : CheckContext} {scope : Scope} {id : Nat}
    {target : String} {args : List Argument} {span : Span} {s : Statement}
    (h : (Node.inclusion id target args span).check context scope = pure (some s)) :
    (Node.inclusion id target args span).Elaborates context scope s := by
  obtain ⟨terms, hterms, hfound⟩ := Check.bind_eq_pure.mp h
  obtain ⟨rfl, hsound⟩ := Argument.sound_of_checkAll hterms
  split at hfound
  · simp at hfound
  · next schema hschema =>
    obtain ⟨checked, hchecked, hs⟩ := Check.bind_eq_pure.mp hfound
    obtain ⟨ts, rfl, rfl⟩ := Option.map_eq_some_iff.mp (Check.pure_eq_pure.mp hs)
    exact .inclusion hschema (Argument.fill_of_checkInclusion hsound hchecked)

mutual

theorem Node.elaborates_of_check {context : CheckContext} {scope : Scope} {s : Statement} :
    ∀ node : Node, node.check context scope = pure (some s) → node.Elaborates context scope s
  | .text content span, h => by
    obtain rfl : Statement.text content = s := by simpa [Node.check] using h
    exact .text content span
  | .interpolation raw value span, h => by
    obtain ⟨shown, hshown, h⟩ := Check.bind_eq_pure.mp h
    obtain ⟨t, rfl, rfl⟩ := Option.map_eq_some_iff.mp (Check.pure_eq_pure.mp h)
    obtain ⟨ht, hrenderable⟩ := Expr.checkShown_eq_some.mp hshown
    exact .interpolation (Expr.elaborates_of_check value ht) hrenderable
  | .conditional arms otherwise span, h => by
    obtain ⟨branches, els, rfl, hbranches, hels⟩ := Node.conditional_of_check h
    exact .conditional (Arm.elaborateAll_of_checkAll arms hbranches)
      (Node.elaborateAll_of_checkOtherwise otherwise hels)
  | .loop element index iterable body otherwise span, h => by
    obtain ⟨it, item, statements, els, rfl, hiterable, hbody, hels⟩ := Node.loop_of_check h
    obtain ⟨hit, htype⟩ := Expr.checkIterable_eq_some.mp hiterable
    exact .loop (Expr.elaborates_of_check iterable hit) htype
      (Node.elaborateAll_of_checkAll body hbody)
      (Node.elaborateAll_of_checkOtherwise otherwise hels)
  | .inclusion id target args span, h => Node.elaborates_of_inclusion h

theorem Node.elaborateAll_of_checkAll {context : CheckContext} {scope : Scope} :
    ∀ (nodes : List Node) {ss : List Statement},
      Node.checkAll context scope nodes = pure (some ss) → Node.ElaborateAll context scope nodes ss
  | [], ss, h => by
    obtain rfl : [] = ss := by simpa [Node.checkAll] using h
    exact .nil
  | node :: nodes, ss, h => by
    obtain ⟨first, hfirst, h⟩ := Check.bind_eq_pure.mp h
    obtain ⟨rest, hrest, h⟩ := Check.bind_eq_pure.mp h
    obtain ⟨s, rfl, htail⟩ := Option.bind_eq_some_iff.mp (Check.pure_eq_pure.mp h)
    obtain ⟨tail, rfl, hss⟩ := Option.bind_eq_some_iff.mp htail
    obtain rfl := Option.some.inj hss
    exact .cons (Node.elaborates_of_check node hfirst) (Node.elaborateAll_of_checkAll nodes hrest)

theorem Node.elaborateAll_of_checkOtherwise {context : CheckContext} {scope : Scope} :
    ∀ (otherwise : Option (List Node)) {ss : List Statement},
      Node.checkAll context scope (otherwise.getD []) = pure (some ss) →
        Node.ElaborateAll context scope (otherwise.getD []) ss
  | none, ss, h => by
    obtain rfl : [] = ss := by simpa [Node.checkAll] using h
    exact .nil
  | some nodes, _, h => Node.elaborateAll_of_checkAll nodes h

theorem Arm.elaborateAll_of_checkAll {context : CheckContext} {scope : Scope} :
    ∀ (arms : List Arm) {branches : List Branch},
      Arm.checkAll context scope arms = pure (some branches) →
        Arm.ElaborateAll context scope arms branches
  | [], branches, h => by
    obtain rfl : [] = branches := by simpa [Arm.checkAll] using h
    exact .nil
  | .mk test body :: arms, branches, h => by
    obtain ⟨test', htest, h⟩ := Check.bind_eq_pure.mp h
    obtain ⟨body', hbody, h⟩ := Check.bind_eq_pure.mp h
    obtain ⟨rest, hrest, h⟩ := Check.bind_eq_pure.mp h
    obtain ⟨t, rfl, hss⟩ := Option.bind_eq_some_iff.mp (Check.pure_eq_pure.mp h)
    obtain ⟨ss, rfl, htail⟩ := Option.bind_eq_some_iff.mp hss
    obtain ⟨tail, rfl, hbranches⟩ := Option.bind_eq_some_iff.mp htail
    obtain rfl := Option.some.inj hbranches
    obtain ⟨ht, htype⟩ := Expr.checkCondition_eq_some.mp htest
    exact .cons (Expr.elaborates_of_check test ht) htype (Node.elaborateAll_of_checkAll body hbody)
      (Arm.elaborateAll_of_checkAll arms hrest)

end

end Stencil
