import Stencil.Proofs.Program.Plans
import Stencil.Proofs.Typing.Mistakes

/-!
One mistake, one complaint. Whatever the check of a template comes to, each visible name without a
type was complained of before, where it was declared. So what is complained of later is not its
fault, and where nothing is complained of all has a type.
-/

namespace Stencil

-- What is to be checked next: some nodes, one after the other, or an expression.
inductive Pending where
  | nodes (list : List Node)
  | expr (e : Expr)

def Pending.complaints (context : CheckContext) (scope : Scope) : Pending → List Complaint
  | .nodes list => (Node.checkAll context scope list).complaints
  | .expr e => (e.check context.oracle scope).complaints

-- The names inside a loop, as the check of its iterable leaves them.
def Expr.scopeInside (oracle : Oracle) (scope : Scope) (element : Binding) (index : Option Binding)
    (iterable : Expr) : Scope :=
  scope.inLoop element index ((iterable.checkIterable oracle scope).result.map (·.2))

namespace Template

-- The states that the check of a template comes to: the visible names, what was complained of so
-- far, and what is checked next.
inductive Reaches (context : CheckContext) (t : Template) : Scope → List Complaint → Pending → Prop
  | body : Reaches context t (t.checkHeader context.oracle).result.2
      (t.checkHeader context.oracle).complaints (.nodes t.body)
  | next {scope : Scope} {said : List Complaint} {node : Node} {nodes : List Node}
      (before : Reaches context t scope said (.nodes (node :: nodes))) :
    Reaches context t scope (said ++ (node.check context scope).complaints) (.nodes nodes)
  | shown {scope : Scope} {said : List Complaint} {raw : Bool} {value : Expr} {span : Span}
      {nodes : List Node}
      (node : Reaches context t scope said (.nodes (.interpolation raw value span :: nodes))) :
    Reaches context t scope said (.expr value)
  | test {scope : Scope} {said : List Complaint} {done rest : List Arm} {test : Expr}
      {body : List Node} {otherwise : Option (List Node)} {span : Span} {nodes : List Node}
      (node : Reaches context t scope said
        (.nodes (.conditional (done ++ .mk test body :: rest) otherwise span :: nodes))) :
    Reaches context t scope (said ++ (Arm.checkAll context scope done).complaints) (.expr test)
  | arm {scope : Scope} {said : List Complaint} {done rest : List Arm} {test : Expr}
      {body : List Node} {otherwise : Option (List Node)} {span : Span} {nodes : List Node}
      (node : Reaches context t scope said
        (.nodes (.conditional (done ++ .mk test body :: rest) otherwise span :: nodes))) :
    Reaches context t scope (said ++ ((Arm.checkAll context scope done).complaints ++
      (test.checkCondition context.oracle scope).complaints)) (.nodes body)
  | otherwise {scope : Scope} {said : List Complaint} {arms : List Arm} {otherwise : List Node}
      {span : Span} {nodes : List Node}
      (node : Reaches context t scope said
        (.nodes (.conditional arms (some otherwise) span :: nodes))) :
    Reaches context t scope (said ++ (Arm.checkAll context scope arms).complaints)
      (.nodes otherwise)
  | iterable {scope : Scope} {said : List Complaint} {element : Binding} {index : Option Binding}
      {iterable : Expr} {body : List Node} {otherwise : Option (List Node)} {span : Span}
      {nodes : List Node}
      (node : Reaches context t scope said
        (.nodes (.loop element index iterable body otherwise span :: nodes))) :
    Reaches context t scope said (.expr iterable)
  | inside {scope : Scope} {said : List Complaint} {element : Binding} {index : Option Binding}
      {iterable : Expr} {body : List Node} {otherwise : Option (List Node)} {span : Span}
      {nodes : List Node}
      (node : Reaches context t scope said
        (.nodes (.loop element index iterable body otherwise span :: nodes))) :
    Reaches context t (iterable.scopeInside context.oracle scope element index)
      (said ++ (iterable.checkIterable context.oracle scope).complaints) (.nodes body)
  | empty {scope : Scope} {said : List Complaint} {element : Binding} {index : Option Binding}
      {iterable : Expr} {body otherwise : List Node} {span : Span} {nodes : List Node}
      (node : Reaches context t scope said
        (.nodes (.loop element index iterable body (some otherwise) span :: nodes))) :
    Reaches context t scope (said ++ ((iterable.checkIterable context.oracle scope).complaints ++
      (Node.checkAll context (iterable.scopeInside context.oracle scope element index)
        body).complaints)) (.nodes otherwise)
  | argument {scope : Scope} {said : List Complaint} {id : Nat} {target : String}
      {done rest : List Argument} {arg : Argument} {span : Span} {nodes : List Node}
      (node : Reaches context t scope said
        (.nodes (.inclusion id target (done ++ arg :: rest) span :: nodes))) :
    Reaches context t scope (said ++ (Argument.checkAll context.oracle scope done).complaints)
      (.expr arg.value)
  | operand {scope : Scope} {said : List Complaint} {e o : Expr} {done rest : List Expr}
      (whole : Reaches context t scope said (.expr e)) (operands : e.operands = done ++ o :: rest) :
    Reaches context t scope (said ++ (Expr.checkAll context.oracle scope done).complaints) (.expr o)

end Template

section Complaints

variable {context : CheckContext} {scope : Scope}

theorem Expr.prefix_checkCondition (e : Expr) : (e.check context.oracle scope).complaints <+:
    (e.checkCondition context.oracle scope).complaints := List.prefix_append _ _

theorem Expr.prefix_checkShown (e : Expr) : (e.check context.oracle scope).complaints <+:
    (e.checkShown context.oracle scope).complaints := List.prefix_append _ _

theorem Expr.prefix_checkIterable (e : Expr) : (e.check context.oracle scope).complaints <+:
    (e.checkIterable context.oracle scope).complaints := List.prefix_append _ _

theorem Arm.complaints_append (done rest : List Arm) :
    (Arm.checkAll context scope (done ++ rest)).complaints =
      (Arm.checkAll context scope done).complaints ++
        (Arm.checkAll context scope rest).complaints := by
  induction done with
  | nil => rfl
  | cons arm done ih =>
    obtain ⟨test, body⟩ := arm
    simp [Arm.checkAll, ih]

theorem Arm.complaints_cons (test : Expr) (body : List Node) (rest : List Arm) :
    (Arm.checkAll context scope (.mk test body :: rest)).complaints =
      (test.checkCondition context.oracle scope).complaints ++
        ((Node.checkAll context scope body).complaints ++
          (Arm.checkAll context scope rest).complaints) := by
  simp [Arm.checkAll]

theorem Node.complaints_conditional (arms : List Arm) (otherwise : Option (List Node))
    (span : Span) : ((Node.conditional arms otherwise span).check context scope).complaints =
      (Arm.checkAll context scope arms).complaints ++
        (Node.checkAll context scope (otherwise.getD [])).complaints := by
  cases otherwise <;> simp [Node.check, Node.checkAll]

theorem Node.complaints_loop (element : Binding) (index : Option Binding) (iterable : Expr)
    (body : List Node) (otherwise : Option (List Node)) (span : Span) :
    ((Node.loop element index iterable body otherwise span).check context scope).complaints =
      (iterable.checkIterable context.oracle scope).complaints ++
        ((Node.checkAll context (iterable.scopeInside context.oracle scope element index)
          body).complaints ++ (Node.checkAll context scope (otherwise.getD [])).complaints) := by
  cases otherwise <;> simp [Node.check, Node.checkAll, Expr.scopeInside]

theorem Node.complaints_cons (node : Node) (nodes : List Node) :
    (Node.checkAll context scope (node :: nodes)).complaints =
      (node.check context scope).complaints ++ (Node.checkAll context scope nodes).complaints := by
  simp [Node.checkAll]

theorem Node.prefix_inclusion (id : Nat) (target : String) (args : List Argument) (span : Span) :
    (Argument.checkAll context.oracle scope args).complaints <+:
      ((Node.inclusion id target args span).check context scope).complaints :=
  List.prefix_append _ _

end Complaints

namespace Template

variable {context : CheckContext} {t : Template} {scope : Scope} {said : List Complaint}
  {pending : Pending}

-- What is said of a part of what is next is said after what comes before the part.
theorem prefix_of_part {done part whole total : List Complaint} (h : said ++ whole <+: total)
    (hpart : done ++ part <+: whole) : said ++ done ++ part <+: total := by
  rw [List.append_assoc]
  exact ((List.prefix_append_right_inj said).mpr hpart).trans h

-- What was complained of and what is next stand one behind the other in the result.
theorem Reaches.said_prefix (h : t.Reaches context scope said pending) :
    said ++ pending.complaints context scope <+: (t.check context).complaints := by
  -- In front of what else is next stands what is said of the first node.
  have first {scope : Scope} {node : Node} {nodes : List Node} {front : List Complaint}
      (hnode : front <+: (node.check context scope).complaints) :
      front <+: (Pending.nodes (node :: nodes)).complaints context scope := by
    rw [Pending.complaints, Node.complaints_cons]
    exact hnode.trans (List.prefix_append _ _)
  induction h with
  | body => simp [Template.check, Pending.complaints]
  | next _ ih =>
    refine prefix_of_part ih ?_
    simp [Pending.complaints, Node.complaints_cons]
  | @shown scope said raw value span nodes _ ih =>
    refine ((List.prefix_append_right_inj said).mpr (first ?_)).trans ih
    exact value.prefix_checkShown.trans (List.prefix_append _ _)
  | @test scope said done rest test body _ _ _ _ ih =>
    refine prefix_of_part ih (first ?_)
    rw [Node.complaints_conditional, Arm.complaints_append, Arm.complaints_cons]
    simp only [List.append_assoc]
    exact (List.prefix_append_right_inj _).mpr
      (test.prefix_checkCondition.trans (List.prefix_append _ _))
  | arm _ ih =>
    refine prefix_of_part ih (first ?_)
    rw [Node.complaints_conditional, Arm.complaints_append, Arm.complaints_cons]
    simp [Pending.complaints]
  | otherwise _ ih =>
    refine prefix_of_part ih (first ?_)
    rw [Node.complaints_conditional]
    exact List.prefix_refl _
  | @iterable scope said element index iterable body otherwise span nodes _ ih =>
    refine ((List.prefix_append_right_inj said).mpr (first ?_)).trans ih
    rw [Node.complaints_loop]
    exact iterable.prefix_checkIterable.trans (List.prefix_append _ _)
  | inside _ ih =>
    refine prefix_of_part ih (first ?_)
    rw [Node.complaints_loop]
    simp [Pending.complaints]
  | empty _ ih =>
    refine prefix_of_part ih (first ?_)
    rw [Node.complaints_loop]
    simp [Pending.complaints]
  | @argument scope said id target done rest arg span nodes _ ih =>
    refine prefix_of_part ih (first ?_)
    refine List.IsPrefix.trans ?_ (Node.prefix_inclusion id target (done ++ arg :: rest) span)
    simp [Argument.checkAll_eq, Pending.complaints]
  | @operand scope said e o done rest _ hoperands ih =>
    refine prefix_of_part ih ?_
    rw [Pending.complaints, Pending.complaints, e.complaints_eq, hoperands, Expr.checkAll_eq]
    simp

-- Why a visible name has no type, given what was complained of so far: its declaration was, or the
-- list that its loop goes through was, or that list depends on such a name in its turn.
inductive Blamed (context : CheckContext) (t : Template) : List Complaint → Local → Prop
  | parameter {said : List Complaint} {decl : ParamDecl} {type : String}
      (declared : decl ∈ t.params) (complained : ⟨.unknownType type, decl.span⟩ ∈ said) :
    Blamed context t said ⟨decl.name, none⟩
  | refused {said before : List Complaint} {scope : Scope} {element : Binding}
      {index : Option Binding} {iterable : Expr} {body : List Node}
      {otherwise : Option (List Node)} {span : Span} {nodes : List Node}
      (reached : t.Reaches context scope before
        (.nodes (.loop element index iterable body otherwise span :: nodes)))
      (complained : (iterable.checkIterable context.oracle scope).complaints ≠ [])
      (earlier : before ++ (iterable.checkIterable context.oracle scope).complaints <+: said) :
    Blamed context t said ⟨element.name, none⟩
  | dependent {said before : List Complaint} {scope : Scope} {element : Binding}
      {index : Option Binding} {iterable : Expr} {body : List Node}
      {otherwise : Option (List Node)} {span : Span} {nodes : List Node} {m : Mark}
      {ident : String} {slot : Nat}
      (reached : t.Reaches context scope before
        (.nodes (.loop element index iterable body otherwise span :: nodes)))
      (reads : .name m ident ∈ iterable.parts) (found : scope.find? ident = some (slot, none))
      (blamed : Blamed context t before ⟨ident, none⟩) (earlier : before <+: said) :
    Blamed context t said ⟨element.name, none⟩

theorem Blamed.mono {said said' : List Complaint} {l : Local} (h : Blamed context t said l)
    (hle : said <+: said') : Blamed context t said' l := by
  cases h with
  | parameter declared complained => exact .parameter declared (hle.subset complained)
  | refused reached complained earlier => exact .refused reached complained (earlier.trans hle)
  | dependent reached reads found blamed earlier =>
    exact .dependent reached reads found blamed (earlier.trans hle)

-- Something was complained of where there is a name to blame.
theorem Blamed.ne_nil {l : Local} (h : Blamed context t said l) : said ≠ [] := by
  induction h with
  | parameter _ complained => exact List.ne_nil_of_mem complained
  | refused _ complained earlier =>
    rintro rfl
    exact complained (List.append_eq_nil_iff.mp (List.prefix_nil.mp earlier)).2
  | dependent _ _ _ _ earlier ih =>
    rintro rfl
    exact ih (List.prefix_nil.mp earlier)

end Template

-- Inside a loop the element may have no type; the index has one.
theorem Scope.mem_of_inLoop {scope : Scope} {element : Binding} {index : Option Binding}
    {type : Option Ty} {l : Local} (hl : l ∈ scope.inLoop element index type)
    (htype : l.type = none) : (l = ⟨element.name, none⟩ ∧ type = none) ∨ l ∈ scope := by
  have hinner : l ∈ ⟨element.name, type⟩ :: scope := by
    cases index with
    | none => exact hl
    | some index =>
      rcases List.mem_cons.mp hl with rfl | hl
      · cases htype
      · exact hl
  rcases List.mem_cons.mp hinner with rfl | hl
  · obtain rfl : type = none := htype
    exact .inl ⟨rfl, rfl⟩
  · exact .inr hl

theorem Scope.mem_of_find? {scope : Scope} {ident : String} {slot : Nat} {type : Option Ty}
    (h : scope.find? ident = some (slot, type)) : ⟨ident, type⟩ ∈ scope := by
  induction scope with
  | nil => cases h
  | cons l outer ih =>
    rw [Scope.find?] at h
    split at h
    · next hname =>
      obtain ⟨-, rfl⟩ := Prod.mk.inj (Option.some.inj h)
      subst hname
      exact List.mem_cons_self
    · exact List.mem_cons_of_mem l (ih h)

section Header

variable {oracle : Oracle}

theorem TypeExpr.exists_unknown {span : Span} {type : TypeExpr}
    (h : (type.check oracle span).result = none) :
    ∃ name, ⟨.unknownType name, span⟩ ∈ (type.check oracle span).complaints := by
  induction type with
  | named name =>
    unfold TypeExpr.check at h ⊢
    split at h
    · cases h
    · split at h
      · cases h
      · next hunknown =>
        rw [if_neg hunknown]
        exact ⟨name, List.mem_singleton_self _⟩
  | list element ih =>
    have hnone : (element.check oracle span).result = none := Option.map_eq_none_iff.mp h
    obtain ⟨name, hname⟩ := ih hnone
    exact ⟨name, List.mem_append_left _ hname⟩

-- A parameter without a type was complained of.
def ParamDecl.Refused (decl : ParamDecl) (complaints : List Complaint) (l : Local) : Prop :=
  l = ⟨decl.name, none⟩ ∧ ∃ type, ⟨.unknownType type, decl.span⟩ ∈ complaints

theorem ParamDecl.refused_of_check {schema : Schema} {scope : Scope} {decl : ParamDecl} {l : Local}
    (hl : l ∈ (decl.check oracle schema scope).result.2) (htype : l.type = none) :
    l ∈ scope ∨ decl.Refused (decl.check oracle schema scope).complaints l := by
  unfold ParamDecl.check at hl ⊢
  split at hl
  · exact .inl hl
  · next hfresh =>
    rw [if_neg hfresh]
    cases hcheck : (decl.type.check oracle decl.span).result with
    | none =>
      rw [Check.result_bind, hcheck] at hl
      rcases List.mem_cons.mp hl with rfl | hl
      · obtain ⟨type, hmem⟩ := TypeExpr.exists_unknown hcheck
        exact .inr ⟨rfl, type, List.mem_append_left _ hmem⟩
      · exact .inl hl
    | some type =>
      rw [Check.result_bind, hcheck] at hl
      have hmem : l ∈ ⟨decl.name, some type⟩ :: scope := by
        cases hdefault : decl.default with
        | none => rwa [hdefault] at hl
        | some e => rwa [hdefault] at hl
      rcases List.mem_cons.mp hmem with rfl | hl
      · cases htype
      · exact .inl hl

theorem ParamDecl.refused_of_checkAll {schema : Schema} {scope : Scope} {decls : List ParamDecl}
    {l : Local} (hl : l ∈ (ParamDecl.checkAll oracle schema scope decls).result.2)
    (htype : l.type = none) :
    l ∈ scope ∨ ∃ decl ∈ decls,
      decl.Refused (ParamDecl.checkAll oracle schema scope decls).complaints l := by
  induction decls generalizing schema scope with
  | nil => exact .inl hl
  | cons decl decls ih =>
    rcases ih hl with hl | ⟨other, hother, rfl, type, hmem⟩
    · rcases ParamDecl.refused_of_check hl htype with hl | ⟨rfl, type, hmem⟩
      · exact .inl hl
      · exact .inr ⟨decl, List.mem_cons_self, rfl, type, List.mem_append_left _ hmem⟩
    · exact .inr ⟨other, List.mem_cons_of_mem _ hother, rfl, type, List.mem_append_right _ hmem⟩

end Header

namespace Template

variable {context : CheckContext} {t : Template} {scope : Scope} {said : List Complaint}
  {pending : Pending}

-- The induction is on how the state is reached. Only a declaration or a loop makes a name visible.
theorem Reaches.blamed (h : t.Reaches context scope said pending) :
    ∀ l ∈ scope, l.type = none → t.Blamed context said l := by
  induction h with
  | body =>
    intro l hl htype
    rcases ParamDecl.refused_of_checkAll hl htype with hl | ⟨decl, hdecl, rfl, type, hmem⟩
    · cases hl
    · exact .parameter hdecl hmem
  | shown _ ih | iterable _ ih => exact ih
  | next _ ih | test _ ih | arm _ ih | otherwise _ ih | empty _ ih | argument _ ih
  | operand _ _ ih =>
    exact fun l hl htype => (ih l hl htype).mono (List.prefix_append _ _)
  | @inside scope said element index iterable body otherwise span nodes hloop ih =>
    intro l hl htype
    rcases Scope.mem_of_inLoop hl htype with ⟨rfl, hnone⟩ | hl
    · have hfails := (iterable.fails_checkIterable).mp (Option.map_eq_none_iff.mp hnone)
      rcases hfails with hcomplained | ⟨m, ident, slot, hreads, hfound⟩
      · exact .refused hloop hcomplained (List.prefix_refl _)
      · exact .dependent hloop hreads hfound (ih _ (Scope.mem_of_find? hfound) rfl)
          (List.prefix_append _ _)
    · exact (ih l hl htype).mono (List.prefix_append _ _)

end Template

-- The expressions that a node is made of.
def Node.roots : Node → List Expr
  | .text _ _ => []
  | .interpolation _ value _ => [value]
  | .conditional arms _ _ => arms.map Arm.test
  | .loop _ _ iterable _ _ _ => [iterable]
  | .inclusion _ _ args _ => args.map Argument.value

section Roots

variable {e : Expr}

-- Is the expression part of one that one of these nodes is made of?
def Node.Holds (nodes : List Node) (e : Expr) : Prop :=
  ∃ node ∈ nodes, ∃ root ∈ node.roots, e ∈ root.parts

theorem Node.Holds.mono {nodes nodes' : List Node} (h : Node.Holds nodes e)
    (hsub : nodes ⊆ nodes') : Node.Holds nodes' e := by
  obtain ⟨node, hnode, hroot⟩ := h
  exact ⟨node, hsub hnode, hroot⟩

mutual

theorem Node.holds_parts : ∀ node : Node, e ∈ node.exprs → Node.Holds node.parts e
  | .text _ _, he => by simp [Node.exprs] at he
  | .interpolation raw value span, he =>
    ⟨_, List.mem_singleton_self _, value, List.mem_singleton_self _, he⟩
  | .conditional arms otherwise span, he => by
    rw [Node.exprs_conditional] at he
    rw [Node.parts_conditional]
    rcases List.mem_append.mp he with harms | hotherwise
    · rcases Node.holds_partsOfArms arms harms with ⟨arm, harm, hpart⟩ | hholds
      · exact ⟨_, List.mem_cons_self, arm.test, List.mem_map_of_mem harm, hpart⟩
      · exact hholds.mono fun node hnode => List.mem_cons_of_mem _ (List.mem_append_left _ hnode)
    · refine (Node.holds_partsOfOtherwise otherwise hotherwise).mono fun node hnode => ?_
      exact List.mem_cons_of_mem _ (List.mem_append_right _ hnode)
  | .loop element index iterable body otherwise span, he => by
    rw [Node.exprs_loop, List.append_assoc] at he
    rw [Node.parts_loop]
    rcases List.mem_append.mp he with hpart | hinner
    · exact ⟨_, List.mem_cons_self, iterable, List.mem_singleton_self _, hpart⟩
    rcases List.mem_append.mp hinner with hbody | hotherwise
    · refine (Node.holds_partsOfAll body hbody).mono fun node hnode => ?_
      exact List.mem_cons_of_mem _ (List.mem_append_left _ hnode)
    · refine (Node.holds_partsOfOtherwise otherwise hotherwise).mono fun node hnode => ?_
      exact List.mem_cons_of_mem _ (List.mem_append_right _ hnode)
  | .inclusion id target args span, he => by
    rw [Node.exprs, Expr.partsOfAll_eq_flatMap] at he
    obtain ⟨root, hroot, hpart⟩ := List.mem_flatMap.mp he
    exact ⟨_, List.mem_singleton_self _, root, hroot, hpart⟩

theorem Node.holds_partsOfAll : ∀ nodes : List Node,
    e ∈ Node.exprsOfAll nodes → Node.Holds (Node.partsOfAll nodes) e
  | [], he => by cases he
  | node :: nodes, he => by
    rcases List.mem_append.mp he with hfirst | hrest
    · exact (Node.holds_parts node hfirst).mono (List.subset_append_left _ _)
    · exact (Node.holds_partsOfAll nodes hrest).mono (List.subset_append_right _ _)

theorem Node.holds_partsOfOtherwise : ∀ otherwise : Option (List Node),
    e ∈ Node.exprsOfAll (otherwise.getD []) →
      Node.Holds (Node.partsOfAll (otherwise.getD [])) e
  | none, he => by cases he
  | some nodes, he => Node.holds_partsOfAll nodes he

theorem Node.holds_partsOfArms : ∀ arms : List Arm, e ∈ Node.exprsOfArms arms →
    (∃ arm ∈ arms, e ∈ arm.test.parts) ∨ Node.Holds (Node.partsOfArms arms) e
  | [], he => by cases he
  | .mk test body :: arms, he => by
    rw [Node.exprsOfArms, List.append_assoc] at he
    rcases List.mem_append.mp he with htest | hinner
    · exact .inl ⟨.mk test body, List.mem_cons_self, htest⟩
    rcases List.mem_append.mp hinner with hbody | hrest
    · exact .inr ((Node.holds_partsOfAll body hbody).mono (List.subset_append_left _ _))
    · rcases Node.holds_partsOfArms arms hrest with ⟨arm, harm, hpart⟩ | hholds
      · exact .inl ⟨arm, List.mem_cons_of_mem _ harm, hpart⟩
      · exact .inr (hholds.mono (List.subset_append_right _ _))

end

end Roots

namespace Template

variable {context : CheckContext} {t : Template} {scope : Scope} {said : List Complaint}

-- The check comes to this node.
def ReachesNode (context : CheckContext) (t : Template) (node : Node) : Prop :=
  ∃ scope said nodes, t.Reaches context scope said (.nodes (node :: nodes))

mutual

theorem reachesNode_of_part : ∀ (node : Node) {scope : Scope} {said : List Complaint}
    {nodes : List Node},
    t.Reaches context scope said (.nodes (node :: nodes)) →
      ∀ inner ∈ node.parts, t.ReachesNode context inner
  | .text _ _, _, _, _, h, inner, hinner => by
    obtain rfl := List.mem_singleton.mp hinner
    exact ⟨_, _, _, h⟩
  | .interpolation _ _ _, _, _, _, h, inner, hinner => by
    obtain rfl := List.mem_singleton.mp hinner
    exact ⟨_, _, _, h⟩
  | .conditional arms none span, _, _, _, h, inner, hinner => by
    rcases List.mem_cons.mp hinner with rfl | harms
    · exact ⟨_, _, _, h⟩
    · exact reachesNode_of_arms arms [] h inner harms
  | .conditional arms (some otherwise) span, _, _, _, h, inner, hinner => by
    rcases List.mem_cons.mp hinner with rfl | hinner
    · exact ⟨_, _, _, h⟩
    · rcases List.mem_append.mp hinner with harms | hotherwise
      · exact reachesNode_of_arms arms [] h inner harms
      · exact reachesNode_of_nodes otherwise (.otherwise h) inner hotherwise
  | .loop element index iterable body none span, _, _, _, h, inner, hinner => by
    rcases List.mem_cons.mp hinner with rfl | hbody
    · exact ⟨_, _, _, h⟩
    · exact reachesNode_of_nodes body (.inside h) inner hbody
  | .loop element index iterable body (some otherwise) span, _, _, _, h, inner, hinner => by
    rcases List.mem_cons.mp hinner with rfl | hinner
    · exact ⟨_, _, _, h⟩
    · rcases List.mem_append.mp hinner with hbody | hotherwise
      · exact reachesNode_of_nodes body (.inside h) inner hbody
      · exact reachesNode_of_nodes otherwise (.empty h) inner hotherwise
  | .inclusion _ _ _ _, _, _, _, h, inner, hinner => by
    obtain rfl := List.mem_singleton.mp hinner
    exact ⟨_, _, _, h⟩

theorem reachesNode_of_nodes : ∀ (nodes : List Node) {scope : Scope} {said : List Complaint},
    t.Reaches context scope said (.nodes nodes) →
      ∀ inner ∈ Node.partsOfAll nodes, t.ReachesNode context inner
  | [], _, _, _, _, hinner => by cases hinner
  | node :: nodes, _, _, h, inner, hinner => by
    rcases List.mem_append.mp hinner with hfirst | hrest
    · exact reachesNode_of_part node h inner hfirst
    · exact reachesNode_of_nodes nodes (.next h) inner hrest

theorem reachesNode_of_arms : ∀ (arms done : List Arm) {scope : Scope} {said : List Complaint}
    {otherwise : Option (List Node)} {span : Span} {nodes : List Node},
    t.Reaches context scope said (.nodes (.conditional (done ++ arms) otherwise span :: nodes)) →
      ∀ inner ∈ Node.partsOfArms arms, t.ReachesNode context inner
  | [], _, _, _, _, _, _, _, _, hinner => by cases hinner
  | .mk test body :: arms, done, _, _, _, _, _, h, inner, hinner => by
    rcases List.mem_append.mp hinner with hbody | hrest
    · exact reachesNode_of_nodes body (.arm h) inner hbody
    · rw [List.append_cons] at h
      exact reachesNode_of_arms arms _ h inner hrest

end

theorem reachesNode_of_mem {node : Node} (h : node ∈ t.nodes) : t.ReachesNode context node :=
  reachesNode_of_nodes t.body .body node h

theorem ReachesNode.root {node : Node} (h : t.ReachesNode context node) {root : Expr}
    (hroot : root ∈ node.roots) : ∃ scope said, t.Reaches context scope said (.expr root) := by
  obtain ⟨scope, said, nodes, h⟩ := h
  cases node with
  | text content span => cases hroot
  | interpolation raw value span =>
    obtain rfl := List.mem_singleton.mp hroot
    exact ⟨_, _, .shown h⟩
  | conditional arms otherwise span =>
    obtain ⟨⟨test, body⟩, harm, rfl⟩ := List.mem_map.mp hroot
    obtain ⟨done, rest, rfl⟩ := List.append_of_mem harm
    exact ⟨_, _, .test h⟩
  | loop element index iterable body otherwise span =>
    obtain rfl := List.mem_singleton.mp hroot
    exact ⟨_, _, .iterable h⟩
  | inclusion id target args span =>
    obtain ⟨arg, harg, rfl⟩ := List.mem_map.mp hroot
    obtain ⟨done, rest, rfl⟩ := List.append_of_mem harg
    exact ⟨_, _, .argument h⟩

-- The check comes to all parts of an expression.
theorem exists_reaches_of_part {scope : Scope} : ∀ (e : Expr) {said : List Complaint},
    t.Reaches context scope said (.expr e) →
      ∀ part ∈ e.parts, ∃ said', t.Reaches context scope said' (.expr part) := by
  refine Expr.of_operands fun e ih said h part hpart => ?_
  rw [Expr.parts_eq] at hpart
  rcases List.mem_cons.mp hpart with rfl | hpart
  · exact ⟨said, h⟩
  · obtain ⟨o, ho, hpart⟩ := List.mem_flatMap.mp hpart
    obtain ⟨done, rest, hoperands⟩ := List.append_of_mem ho
    exact ih o ho (.operand h hoperands) part hpart

theorem exists_reaches_of_mem {e : Expr} (h : e ∈ t.exprs) :
    ∃ scope said, t.Reaches context scope said (.expr e) := by
  obtain ⟨node, hnode, root, hroot, hpart⟩ := Node.holds_partsOfAll t.body h
  obtain ⟨scope, said, hreached⟩ := (reachesNode_of_mem hnode).root hroot
  obtain ⟨said', hpart⟩ := exists_reaches_of_part root hreached e hpart
  exact ⟨scope, said', hpart⟩

-- The type that a name of a loop has in it.
inductive Binds (context : CheckContext) (t : Template) : Binding → Ty → Prop
  | element {scope : Scope} {said : List Complaint} {element : Binding} {index : Option Binding}
      {iterable : Expr} {body : List Node} {otherwise : Option (List Node)} {span : Span}
      {nodes : List Node} {term : Term} {type : Ty}
      (reached : t.Reaches context scope said
        (.nodes (.loop element index iterable body otherwise span :: nodes)))
      (items : (iterable.checkIterable context.oracle scope).result = some (term, type)) :
    Binds context t element type
  | index {scope : Scope} {said : List Complaint} {element index : Binding} {iterable : Expr}
      {body : List Node} {otherwise : Option (List Node)} {span : Span} {nodes : List Node}
      (reached : t.Reaches context scope said
        (.nodes (.loop element (some index) iterable body otherwise span :: nodes))) :
    Binds context t index .int

section Bound

variable {source : String} {checked : CheckedTemplate} {pending : Pending}

-- Where the whole passes nothing was complained of on the way.
theorem Reaches.silent (h : t.Reaches context scope said pending)
    (hbind : t.bind context source = .ok checked) :
    said = [] ∧ pending.complaints context scope = [] := by
  have hpure := check_of_bind hbind
  have hprefix := h.said_prefix
  rw [hpure, Check.complaints_pure, List.prefix_nil] at hprefix
  exact List.append_eq_nil_iff.mp hprefix

theorem Reaches.typed (h : t.Reaches context scope said pending)
    (hbind : t.bind context source = .ok checked) (e : Expr) : ¬ e.ReadsUntyped scope := by
  rintro ⟨m, ident, slot, -, hfound⟩
  exact (h.blamed _ (Scope.mem_of_find? hfound) rfl).ne_nil (h.silent hbind).1

theorem exists_typeOf? (hbind : t.bind context source = .ok checked) {e : Expr}
    (he : e ∈ t.exprs) : ∃ τ, checked.typeOf? e = some τ := by
  obtain ⟨Γ, hdeclares, -⟩ := exists_bind_iff.mp ⟨checked, hbind⟩
  have hids := Node.ids_of_checkAll t.body (checkAll_of_bind hbind hdeclares)
  obtain ⟨n, hn, hid⟩ := List.mem_map.mp (hids.mem_iff.mpr (List.mem_map_of_mem he))
  have hsome : ((Statement.notesOfAll checked.body).find? (·.id == e.id)).isSome = true :=
    List.find?_isSome.mpr ⟨n, hn, by simpa using hid⟩
  obtain ⟨note, hnote⟩ := Option.isSome_iff_exists.mp hsome
  exact ⟨note.type, by simp [CheckedTemplate.typeOf?, hnote]⟩

theorem exists_binds (hbind : t.bind context source = .ok checked) {element : Binding}
    {index : Option Binding} {iterable : Expr} {body : List Node} {otherwise : Option (List Node)}
    {span : Span} (h : .loop element index iterable body otherwise span ∈ t.nodes) :
    (∃ τ, t.Binds context element τ) ∧ ∀ name, index = some name → t.Binds context name .int := by
  have hreached : t.ReachesNode context _ := reachesNode_of_mem h
  obtain ⟨scope, said, nodes, hloop⟩ := hreached
  constructor
  · have hsilent := (List.append_eq_nil_iff.mp (hloop.inside.silent hbind).1).2
    have htyped := hloop.typed hbind iterable
    have hsome : (iterable.checkIterable context.oracle scope).result ≠ none := fun hnone =>
      (iterable.fails_checkIterable.mp hnone).elim (absurd hsilent) htyped
    obtain ⟨⟨term, type⟩, hitems⟩ := Option.ne_none_iff_exists'.mp hsome
    exact ⟨type, .element hloop hitems⟩
  · rintro name rfl
    exact .index hloop

end Bound

-- In whatever state the check is, an expression has a type just if nothing in it is complained of
-- and it reads no name without a type, and such a name was complained of before. What is made of an
-- operand without a type is not complained of itself. So where all passes, all has a type.
theorem mistakes_reported (context : CheckContext) (t : Template) :
    (∀ e ∈ t.exprs, ∃ scope said, t.Reaches context scope said (.expr e)) ∧
    (∀ scope said pending, t.Reaches context scope said pending →
      said ++ pending.complaints context scope <+: (t.check context).complaints ∧
      ∀ e : Expr,
        ((e.check context.oracle scope).result = none ↔
          (e.check context.oracle scope).complaints ≠ [] ∨
            ∃ m ident slot, .name m ident ∈ e.parts ∧ scope.find? ident = some (slot, none) ∧
              t.Blamed context said ⟨ident, none⟩) ∧
        ((∃ o ∈ e.subjects, (o.check context.oracle scope).result = none) →
          (e.check context.oracle scope).complaints =
            e.operands.flatMap fun o => (o.check context.oracle scope).complaints) ∧
        ((e.check context.oracle scope).result = none →
          (e.checkCondition context.oracle scope).complaints =
              (e.check context.oracle scope).complaints ∧
            (e.checkShown context.oracle scope).complaints =
              (e.check context.oracle scope).complaints ∧
            (e.checkIterable context.oracle scope).complaints =
              (e.check context.oracle scope).complaints)) ∧
    ∀ source checked, t.bind context source = .ok checked →
      (∀ e ∈ t.exprs, ∃ τ, checked.typeOf? e = some τ) ∧
      ∀ element index iterable body otherwise span,
        .loop element index iterable body otherwise span ∈ t.nodes →
          (∃ τ, t.Binds context element τ) ∧
            ∀ name, index = some name → t.Binds context name .int := by
  refine ⟨fun e => exists_reaches_of_mem, fun scope said pending h => ⟨h.said_prefix, fun e =>
    ⟨?_, Expr.complaints_of_untyped, fun hnone => ⟨Expr.complaints_checkCondition_of_untyped hnone,
      Expr.complaints_checkShown_of_untyped hnone,
      Expr.complaints_checkIterable_of_untyped hnone⟩⟩⟩, fun source checked hbind =>
    ⟨fun e => exists_typeOf? hbind, fun _ _ _ _ _ _ => exists_binds hbind⟩⟩
  refine Iff.trans e.fails_check (or_congr_right ⟨?_, ?_⟩)
  · rintro ⟨m, ident, slot, hreads, hfound⟩
    exact ⟨m, ident, slot, hreads, hfound, h.blamed _ (Scope.mem_of_find? hfound) rfl⟩
  · rintro ⟨m, ident, slot, hreads, hfound, -⟩
    exact ⟨m, ident, slot, hreads, hfound⟩

-- Does the body begin with a loop?
def beginsWithLoop (t : Template) : Bool :=
  match t.body with
  | .loop _ _ _ _ _ _ :: _ => true
  | _ => false

theorem exists_loop_of_begins (h : t.beginsWithLoop) :
    ∃ element index iterable body otherwise span,
      .loop element index iterable body otherwise span ∈ t.nodes := by
  unfold beginsWithLoop at h
  split at h
  · next element index iterable body otherwise span nodes hbody =>
    refine ⟨element, index, iterable, body, otherwise, span, ?_⟩
    rw [Template.nodes, hbody]
    cases otherwise <;> exact List.mem_cons_self
  · cases h

-- A loop through a parameter, with its element shown.
theorem mistakes_reported_names : ∃ t checked element,
    parse "@param list<string> names\n@for(name in names)$\x7bname\x7d@end" true = .ok t ∧
      t.bind ⟨Declarations.empty.oracle, fun _ => none⟩ "" = .ok checked ∧ t.exprs.length = 2 ∧
      (∀ e ∈ t.exprs, ∃ τ, checked.typeOf? e = some τ) ∧
      ∃ τ, t.Binds ⟨Declarations.empty.oracle, fun _ => none⟩ element τ := by
  let context : CheckContext := ⟨Declarations.empty.oracle, fun _ => none⟩
  have hany : (parse "@param list<string> names\n@for(name in names)$\x7bname\x7d@end"
      true).toOption.any fun t =>
        (t.bind context "").toOption.isSome ∧ t.exprs.length = 2 ∧ t.beginsWithLoop := by
    decide +kernel
  obtain ⟨t, ht, hdecided⟩ := (Option.any_eq_true _ _).mp hany
  obtain ⟨hbind, hexprs, hloop⟩ := of_decide_eq_true hdecided
  obtain ⟨checked, hchecked⟩ := Option.isSome_iff_exists.mp hbind
  obtain ⟨element, index, iterable, body, otherwise, span, hmem⟩ := exists_loop_of_begins hloop
  obtain ⟨htypes, hloops⟩ :=
    (mistakes_reported context t).2.2 "" checked (eq_ok_of_toOption hchecked)
  exact ⟨t, checked, element, eq_ok_of_toOption ht, eq_ok_of_toOption hchecked, hexprs, htypes,
    (hloops _ _ _ _ _ _ hmem).1⟩

end Template

end Stencil
