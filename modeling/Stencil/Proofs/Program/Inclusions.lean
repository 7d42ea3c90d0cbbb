import Stencil.Proofs.Program.Layout

/-!
Which inclusion of a template each inclusion of its program is made from.
-/

namespace Stencil

-- An inclusion as it is written: its target and its arguments.
structure Node.Inclusion where
  target : String
  args : List Argument

-- An inclusion made ready.
structure Op.Inclusion where
  site : Nat
  target : String
  args : List (Option Formula)

mutual

-- All inclusions of a template, in the order in which they stand in it.
def Node.inclusions : Node → List Node.Inclusion
  | .text _ _ | .interpolation _ _ _ => []
  | .conditional arms none _ => Node.inclusionsOfArms arms
  | .conditional arms (some otherwise) _ =>
    Node.inclusionsOfArms arms ++ Node.inclusionsOfAll otherwise
  | .loop _ _ _ body none _ => Node.inclusionsOfAll body
  | .loop _ _ _ body (some otherwise) _ =>
    Node.inclusionsOfAll body ++ Node.inclusionsOfAll otherwise
  | .inclusion _ target args _ => [⟨target, args⟩]

def Node.inclusionsOfAll : List Node → List Node.Inclusion
  | [] => []
  | n :: ns => n.inclusions ++ Node.inclusionsOfAll ns

def Node.inclusionsOfArms : List Arm → List Node.Inclusion
  | [] => []
  | .mk _ body :: arms => Node.inclusionsOfAll body ++ Node.inclusionsOfArms arms

end

mutual

def Op.inclusions : Op → List Op.Inclusion
  | .literal _ | .escaped _ | .raw _ => []
  | .branch arms otherwise => Op.inclusionsOfArms arms ++ Op.inclusionsOfAll otherwise
  | .loop _ _ _ body otherwise => Op.inclusionsOfAll body ++ Op.inclusionsOfAll otherwise
  | .inclusion site target args => [⟨site, target, args⟩]

def Op.inclusionsOfAll : List Op → List Op.Inclusion
  | [] => []
  | op :: ops => op.inclusions ++ Op.inclusionsOfAll ops

def Op.inclusionsOfArms : List OpArm → List Op.Inclusion
  | [] => []
  | .mk _ body :: arms => Op.inclusionsOfAll body ++ Op.inclusionsOfArms arms

end

def Template.inclusions (t : Template) : List Node.Inclusion := Node.inclusionsOfAll t.body

def Program.inclusions (p : Program) : List Op.Inclusion := Op.inclusionsOfAll p.body

theorem Node.inclusions_conditional {arms : List Arm} {otherwise : Option (List Node)}
    {span : Span} : (Node.conditional arms otherwise span).inclusions =
      Node.inclusionsOfArms arms ++ Node.inclusionsOfAll (otherwise.getD []) := by
  cases otherwise <;> simp [Node.inclusions, Node.inclusionsOfAll]

theorem Node.inclusions_loop {element : Binding} {index : Option Binding} {iterable : Expr}
    {body : List Node} {otherwise : Option (List Node)} {span : Span} :
    (Node.loop element index iterable body otherwise span).inclusions =
      Node.inclusionsOfAll body ++ Node.inclusionsOfAll (otherwise.getD []) := by
  cases otherwise <;> simp [Node.inclusions, Node.inclusionsOfAll]

mutual

theorem Node.target_inclusions : ∀ node : Node,
    node.inclusions.map Node.Inclusion.target = node.targets
  | .text _ _ | .interpolation _ _ _ | .inclusion _ _ _ _ => rfl
  | .conditional arms none _ => Node.target_inclusionsOfArms arms
  | .conditional arms (some otherwise) _ => by
      simp [Node.inclusions, Node.targets, Node.target_inclusionsOfArms arms,
        Node.target_inclusionsOfAll otherwise]
  | .loop _ _ _ body none _ => Node.target_inclusionsOfAll body
  | .loop _ _ _ body (some otherwise) _ => by
      simp [Node.inclusions, Node.targets, Node.target_inclusionsOfAll body,
        Node.target_inclusionsOfAll otherwise]

theorem Node.target_inclusionsOfAll : ∀ nodes : List Node,
    (Node.inclusionsOfAll nodes).map Node.Inclusion.target = Node.targetsOfAll nodes
  | [] => rfl
  | node :: nodes => by
      simp [Node.inclusionsOfAll, Node.targetsOfAll, Node.target_inclusions node,
        Node.target_inclusionsOfAll nodes]

theorem Node.target_inclusionsOfArms : ∀ arms : List Arm,
    (Node.inclusionsOfArms arms).map Node.Inclusion.target = Node.targetsOfArms arms
  | [] => rfl
  | .mk _ body :: arms => by
      simp [Node.inclusionsOfArms, Node.targetsOfArms, Node.target_inclusionsOfAll body,
        Node.target_inclusionsOfArms arms]

end

theorem Node.length_inclusions (node : Node) : node.inclusions.length = node.targets.length := by
  rw [← node.target_inclusions, List.length_map]

theorem Node.length_inclusionsOfAll (nodes : List Node) :
    (Node.inclusionsOfAll nodes).length = (Node.targetsOfAll nodes).length := by
  rw [← Node.target_inclusionsOfAll nodes, List.length_map]

theorem Node.length_inclusionsOfArms (arms : List Arm) :
    (Node.inclusionsOfArms arms).length = (Node.targetsOfArms arms).length := by
  rw [← Node.target_inclusionsOfArms arms, List.length_map]

theorem Op.inclusionsOfAll_append (ops ops' : List Op) :
    Op.inclusionsOfAll (ops ++ ops') = Op.inclusionsOfAll ops ++ Op.inclusionsOfAll ops' := by
  induction ops with
  | nil => rfl
  | cons op ops ih => simp [Op.inclusionsOfAll, ih]

theorem textOps_inclusions (mode : Mode) (text : String) :
    Op.inclusionsOfAll (textOps mode text) = [] := by
  unfold textOps
  split <;> rfl

-- An inclusion made ready has the number and the target of the one that is written, and for each
-- parameter of the target the code of its argument.
structure Op.Inclusion.Made (context : CheckContext) (written : Node.Inclusion × Nat)
    (made : Op.Inclusion) : Prop where
  site : made.site = written.2
  target : made.target = written.1.target
  args : ∃ scope schema ts, context.schemas made.target = some schema ∧
    Argument.Fill context.oracle scope schema written.1.args 0 schema.params ts ∧
    made.args = ts.map (·.map Term.formula)

open Op.Inclusion (Made)

mutual

theorem Statement.inclusions_op (mode : Mode) (site : Nat) {context : CheckContext} :
    ∀ {scope : Scope} {node : Node} {s : Statement}, node.Elaborates context scope s →
      List.Forall₂ (Made context) (node.inclusions.zipIdx site) (s.op mode site).1.inclusions
  | _, _, _, .text _ _ => .nil
  | _, _, _, @Node.Elaborates.interpolation _ _ raw _ _ _ _ _ => by
      cases raw <;> exact .nil
  | _, _, _, @Node.Elaborates.conditional _ _ arms otherwise _ branches els harms hels => by
      have hfirst := Statement.inclusions_branchOps mode site harms
      have hsecond := Statement.inclusions_ops mode
        (site + (Node.targetsOfArms arms).length) "" hels
      rw [Node.inclusions_conditional, List.zipIdx_append, Node.length_inclusionsOfArms]
      simp only [Statement.op, Op.inclusions, Statement.site_branchOps mode site harms]
      exact List.rel_append hfirst hsecond
  | _, _, _, @Node.Elaborates.loop _ _ element index iterable body otherwise _ it item statements els
      _ _ hbody hels => by
      have hfirst := Statement.inclusions_ops mode site "" hbody
      have hsecond := Statement.inclusions_ops mode
        (site + (Node.targetsOfAll body).length) "" hels
      rw [Node.inclusions_loop, List.zipIdx_append, Node.length_inclusionsOfAll]
      simp only [Statement.op, Op.inclusions, Statement.site_ops mode site "" hbody]
      exact List.rel_append hfirst hsecond
  | scope, _, _, @Node.Elaborates.inclusion _ _ _ target args _ schema ts found filled =>
      .cons ⟨rfl, rfl, scope, schema, ts, found, filled, rfl⟩ .nil

theorem Statement.inclusions_ops (mode : Mode) (site : Nat) {context : CheckContext}
    (pending : String) : ∀ {scope : Scope} {nodes : List Node} {ss : List Statement},
      Node.ElaborateAll context scope nodes ss →
      List.Forall₂ (Made context) ((Node.inclusionsOfAll nodes).zipIdx site)
        (Op.inclusionsOfAll (Statement.ops mode site pending ss).1)
  | _, _, _, .nil => by
      simp only [Statement.ops, textOps_inclusions]
      exact .nil
  | _, _, _, @Node.ElaborateAll.cons _ _ node s nodes ss first rest => by
      by_cases htext : ∃ content, s = .text content
      · obtain ⟨content, rfl⟩ := htext
        cases first
        simpa [Node.inclusionsOfAll, Node.inclusions, Statement.ops] using
          Statement.inclusions_ops mode site (pending ++ content) rest
      · have hfirst := Statement.inclusions_op mode site first
        have hrest := Statement.inclusions_ops mode (site + node.targets.length) "" rest
        rw [Statement.ops_cons fun content h => htext ⟨content, h⟩, Node.inclusionsOfAll,
          List.zipIdx_append, Node.length_inclusions, Op.inclusionsOfAll_append,
          textOps_inclusions, List.nil_append, Op.inclusionsOfAll,
          Statement.site_op mode site first]
        exact List.rel_append hfirst hrest

theorem Statement.inclusions_branchOps (mode : Mode) (site : Nat) {context : CheckContext} :
    ∀ {scope : Scope} {arms : List Arm} {branches : List Branch},
      Arm.ElaborateAll context scope arms branches →
      List.Forall₂ (Made context) ((Node.inclusionsOfArms arms).zipIdx site)
        (Op.inclusionsOfArms (Statement.branchOps mode site branches).1)
  | _, _, _, .nil => .nil
  | _, _, _, @Arm.ElaborateAll.cons _ _ _ nodes _ _ _ _ _ _ body rest => by
      have hfirst := Statement.inclusions_ops mode site "" body
      have hrest := Statement.inclusions_branchOps mode
        (site + (Node.targetsOfAll nodes).length) rest
      rw [Node.inclusionsOfArms, List.zipIdx_append, Node.length_inclusionsOfAll]
      simp only [Statement.branchOps, Op.inclusionsOfArms, Statement.site_ops mode site "" body]
      exact List.rel_append hfirst hrest

end

-- An inclusion of a program, and the one that stands in the template at its number.
theorem Template.Elaborates.made {context : CheckContext} {t : Template}
    {checked : CheckedTemplate} (h : t.Elaborates context checked) {name : String} {mode : Mode}
    {made : Op.Inclusion} (hmade : made ∈ (checked.program name mode).inclusions) :
    ∃ written, t.inclusions[made.site]? = some written ∧ Made context (written, made.site) made := by
  have hall := Statement.inclusions_ops mode 0 "" h.body
  obtain ⟨hlength, hget⟩ := List.forall₂_iff_get.mp hall
  obtain ⟨i, hi, hmade⟩ := List.mem_iff_getElem.mp hmade
  have hi' : i < t.inclusions.length := by
    rw [List.length_zipIdx] at hlength
    exact Nat.lt_of_lt_of_eq hi hlength.symm
  have hwritten := hget i (by simpa [Template.inclusions] using hi') hi
  simp only [List.get_eq_getElem, List.getElem_zipIdx, Nat.zero_add] at hwritten
  have hsite : made.site = i := by
    rw [← hmade]
    exact hwritten.site
  rw [hsite]
  refine ⟨_, List.getElem?_eq_getElem hi', ?_⟩
  rw [← hmade]
  exact hwritten

end Stencil
