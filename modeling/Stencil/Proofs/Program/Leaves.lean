import Stencil.Proofs.Program.Safety

/-!
What the operations of a program stem from: fixed text from runs of text in its template, and what
is printed from interpolations.
-/

namespace Stencil

mutual

-- The operations that hold no others.
def Op.leaves : Op → List Op
  | .literal t => [.literal t]
  | .escaped code => [.escaped code]
  | .raw code => [.raw code]
  | .branch arms otherwise => Op.leavesOfArms arms ++ Op.leavesOfAll otherwise
  | .loop _ _ _ body otherwise => Op.leavesOfAll body ++ Op.leavesOfAll otherwise
  | .inclusion site target args => [.inclusion site target args]

def Op.leavesOfAll : List Op → List Op
  | [] => []
  | op :: ops => op.leaves ++ Op.leavesOfAll ops

def Op.leavesOfArms : List OpArm → List Op
  | [] => []
  | .mk _ body :: arms => Op.leavesOfAll body ++ Op.leavesOfArms arms

end

def Program.leaves (p : Program) : List Op := Op.leavesOfAll p.body

-- A program that prints no value as it is.
def Program.NoRaw (p : Program) : Prop := ∀ code, .raw code ∉ p.leaves

theorem Op.leavesOfAll_append (ops ops' : List Op) :
    Op.leavesOfAll (ops ++ ops') = Op.leavesOfAll ops ++ Op.leavesOfAll ops' := by
  induction ops with
  | nil => rfl
  | cons op ops ih => simp [Op.leavesOfAll, ih]

section Inclusions

variable {site : Nat} {target : String} {args : List (Option Formula)}

mutual

theorem Op.mem_inclusions_of_leaf : ∀ op : Op,
    .inclusion site target args ∈ op.leaves → ⟨site, target, args⟩ ∈ op.inclusions
  | .literal t, h => by simp [Op.leaves] at h
  | .escaped code, h => by simp [Op.leaves] at h
  | .raw code, h => by simp [Op.leaves] at h
  | .branch arms otherwise, h => by
      obtain harms | hother := List.mem_append.mp h
      · exact List.mem_append_left _ (Op.mem_inclusionsOfArms_of_leaf arms harms)
      · exact List.mem_append_right _ (Op.mem_inclusionsOfAll_of_leaf otherwise hother)
  | .loop iterable element index body otherwise, h => by
      obtain hbody | hother := List.mem_append.mp h
      · exact List.mem_append_left _ (Op.mem_inclusionsOfAll_of_leaf body hbody)
      · exact List.mem_append_right _ (Op.mem_inclusionsOfAll_of_leaf otherwise hother)
  | .inclusion site target args, h => by simpa [Op.leaves, Op.inclusions] using h

theorem Op.mem_inclusionsOfAll_of_leaf : ∀ ops : List Op,
    .inclusion site target args ∈ Op.leavesOfAll ops →
      ⟨site, target, args⟩ ∈ Op.inclusionsOfAll ops
  | [], h => nomatch h
  | op :: ops, h => by
      obtain hfirst | hrest := List.mem_append.mp h
      · exact List.mem_append_left _ (Op.mem_inclusions_of_leaf op hfirst)
      · exact List.mem_append_right _ (Op.mem_inclusionsOfAll_of_leaf ops hrest)

theorem Op.mem_inclusionsOfArms_of_leaf : ∀ arms : List OpArm,
    .inclusion site target args ∈ Op.leavesOfArms arms →
      ⟨site, target, args⟩ ∈ Op.inclusionsOfArms arms
  | [], h => nomatch h
  | .mk test body :: arms, h => by
      obtain hbody | hrest := List.mem_append.mp h
      · exact List.mem_append_left _ (Op.mem_inclusionsOfAll_of_leaf body hbody)
      · exact List.mem_append_right _ (Op.mem_inclusionsOfArms_of_leaf arms hrest)

end

end Inclusions

-- Fixed text that is not empty.
def textRuns (text : String) : List String := if text.isEmpty then [] else [text]

mutual

-- The runs of text inside of a node that is not text itself.
def Node.runs : Node → List String
  | .text _ _ | .interpolation _ _ _ | .inclusion _ _ _ _ => []
  | .conditional arms none _ => Node.runsOfArms arms
  | .conditional arms (some otherwise) _ => Node.runsOfArms arms ++ Node.runsOfAll "" otherwise
  | .loop _ _ _ body none _ => Node.runsOfAll "" body
  | .loop _ _ _ body (some otherwise) _ =>
    Node.runsOfAll "" body ++ Node.runsOfAll "" otherwise

-- Those of a body, after text that its first run goes on from.
def Node.runsOfAll (pending : String) : List Node → List String
  | [] => textRuns pending
  | .text content _ :: nodes => Node.runsOfAll (pending ++ content) nodes
  | node :: nodes => textRuns pending ++ (node.runs ++ Node.runsOfAll "" nodes)

def Node.runsOfArms : List Arm → List String
  | [] => []
  | .mk _ body :: arms => Node.runsOfAll "" body ++ Node.runsOfArms arms

end

-- The texts of a template that nothing else stands in, as far as each goes, in their order.
def Template.runs (t : Template) : List String := Node.runsOfAll "" t.body

theorem Node.runs_conditional (arms : List Arm) (otherwise : Option (List Node)) (span : Span) :
    (Node.conditional arms otherwise span).runs =
      Node.runsOfArms arms ++ Node.runsOfAll "" (otherwise.getD []) := by
  cases otherwise <;> simp [Node.runs, Node.runsOfAll, textRuns]

theorem Node.runs_loop (element : Binding) (index : Option Binding) (iterable : Expr)
    (body : List Node) (otherwise : Option (List Node)) (span : Span) :
    (Node.loop element index iterable body otherwise span).runs =
      Node.runsOfAll "" body ++ Node.runsOfAll "" (otherwise.getD []) := by
  cases otherwise <;> simp [Node.runs, Node.runsOfAll, textRuns]

theorem Node.runsOfAll_cons {node : Node} (h : ∀ content span, node ≠ .text content span)
    (pending : String) (nodes : List Node) :
    Node.runsOfAll pending (node :: nodes) =
      textRuns pending ++ (node.runs ++ Node.runsOfAll "" nodes) := by
  cases node with
  | text content span => exact absurd rfl (h content span)
  | _ => rfl

-- What an operation that holds no others may be made from. Inclusions are dealt with elsewhere.
def Op.Stems (oracle : Oracle) (mode : Mode) (runs : List String) (nodes : List Node) : Op → Prop
  | .literal t => ∃ run ∈ runs, t = .ofString mode run
  | .escaped code => ∃ value span scope t, .interpolation false value span ∈ nodes ∧
      value.Elaborates oracle scope t ∧ code = t.formula
  | .raw code => ∃ value span scope t, .interpolation true value span ∈ nodes ∧
      value.Elaborates oracle scope t ∧ code = t.formula
  | _ => True

theorem Op.Stems.mono {oracle : Oracle} {mode : Mode} {runs runs' : List String}
    {nodes nodes' : List Node} {op : Op} (h : op.Stems oracle mode runs nodes)
    (hruns : runs ⊆ runs') (hnodes : nodes ⊆ nodes') : op.Stems oracle mode runs' nodes' := by
  cases op with
  | literal t =>
      obtain ⟨run, hrun, ht⟩ := h
      exact ⟨run, hruns hrun, ht⟩
  | escaped code =>
      obtain ⟨value, span, scope, t, hnode, hcode⟩ := h
      exact ⟨value, span, scope, t, hnodes hnode, hcode⟩
  | raw code =>
      obtain ⟨value, span, scope, t, hnode, hcode⟩ := h
      exact ⟨value, span, scope, t, hnodes hnode, hcode⟩
  | _ => trivial

theorem textOps_stem {oracle : Oracle} {mode : Mode} {nodes : List Node} (text : String) :
    ∀ op ∈ Op.leavesOfAll (textOps mode text), op.Stems oracle mode (textRuns text) nodes := by
  unfold textOps textRuns
  split
  · exact fun op hop => nomatch hop
  · intro op hop
    obtain rfl : op = .literal (.ofString mode text) := by
      simpa [Op.leavesOfAll, Op.leaves] using hop
    exact ⟨text, List.mem_singleton_self text, rfl⟩

section Stems

variable {context : CheckContext} (mode : Mode)

mutual

-- Generation makes the operations of a node from what stands in it.
theorem Statement.op_stems (site : Nat) :
    ∀ {scope : Scope} {node : Node} {s : Statement}, node.Elaborates context scope s →
      (∀ content span, node ≠ .text content span) →
      ∀ op ∈ (s.op mode site).1.leaves, op.Stems context.oracle mode node.runs node.parts
  | _, _, _, .text content span, htext, _, _ => absurd rfl (htext content span)
  | scope, _, _, @Node.Elaborates.interpolation _ _ raw value span t elaborates _, _, op, hop => by
      cases raw with
      | false =>
          obtain rfl := List.mem_singleton.mp hop
          exact ⟨value, span, scope, t, List.mem_singleton_self _, elaborates, rfl⟩
      | true =>
          obtain rfl := List.mem_singleton.mp hop
          exact ⟨value, span, scope, t, List.mem_singleton_self _, elaborates, rfl⟩
  | _, _, _, @Node.Elaborates.conditional _ _ arms otherwise span branches els harms hels, _, op,
      hop => by
      rw [Node.runs_conditional, Node.parts_conditional]
      obtain hop | hop := List.mem_append.mp hop
      · exact (Statement.branchOps_stem _ harms op hop).mono (List.subset_append_left ..)
          (List.subset_cons_of_subset _ (List.subset_append_left ..))
      · exact (Statement.ops_stem _ "" hels op hop).mono (List.subset_append_right ..)
          (List.subset_cons_of_subset _ (List.subset_append_right ..))
  | _, _, _, .loop _ _ hbody hels, _, op, hop => by
      rw [Node.runs_loop, Node.parts_loop]
      obtain hop | hop := List.mem_append.mp hop
      · exact (Statement.ops_stem _ "" hbody op hop).mono (List.subset_append_left ..)
          (List.subset_cons_of_subset _ (List.subset_append_left ..))
      · exact (Statement.ops_stem _ "" hels op hop).mono (List.subset_append_right ..)
          (List.subset_cons_of_subset _ (List.subset_append_right ..))
  | _, _, _, .inclusion _ _, _, op, hop => by
      obtain rfl := List.mem_singleton.mp hop
      trivial

theorem Statement.ops_stem (site : Nat) (pending : String) :
    ∀ {scope : Scope} {nodes : List Node} {ss : List Statement},
      Node.ElaborateAll context scope nodes ss →
      ∀ op ∈ Op.leavesOfAll (Statement.ops mode site pending ss).1,
        op.Stems context.oracle mode (Node.runsOfAll pending nodes) (Node.partsOfAll nodes)
  | _, _, _, .nil, op, hop => textOps_stem pending op hop
  | _, _, _, @Node.ElaborateAll.cons _ _ node s nodes ss first rest, op, hop => by
      by_cases htext : ∃ content span, node = .text content span
      · obtain ⟨content, span, rfl⟩ := htext
        cases first
        exact (Statement.ops_stem site (pending ++ content) rest op hop).mono
          (List.Subset.refl _) (List.subset_append_right ..)
      · have hnode : ∀ content span, node ≠ .text content span :=
          fun content span h => htext ⟨content, span, h⟩
        have hs : ∀ content, s ≠ .text content := by
          rintro content rfl
          cases first
          exact hnode _ _ rfl
        rw [Statement.ops_cons hs, Op.leavesOfAll_append] at hop
        rw [Node.runsOfAll_cons hnode]
        obtain hop | hop := List.mem_append.mp hop
        · exact (textOps_stem pending op hop).mono (List.subset_append_left ..) (List.Subset.refl _)
        obtain hop | hop := List.mem_append.mp hop
        · exact (Statement.op_stems site first hnode op hop).mono
            (List.subset_append_of_subset_right _ (List.subset_append_left ..))
            (List.subset_append_left ..)
        · exact (Statement.ops_stem _ "" rest op hop).mono
            (List.subset_append_of_subset_right _ (List.subset_append_right ..))
            (List.subset_append_right ..)

theorem Statement.branchOps_stem (site : Nat) :
    ∀ {scope : Scope} {arms : List Arm} {branches : List Branch},
      Arm.ElaborateAll context scope arms branches →
      ∀ op ∈ Op.leavesOfArms (Statement.branchOps mode site branches).1,
        op.Stems context.oracle mode (Node.runsOfArms arms) (Node.partsOfArms arms)
  | _, _, _, .nil, _, hop => nomatch hop
  | _, _, _, .cons _ _ body rest, op, hop => by
      obtain hop | hop := List.mem_append.mp hop
      · exact (Statement.ops_stem site "" body op hop).mono (List.subset_append_left ..)
          (List.subset_append_left ..)
      · exact (Statement.branchOps_stem _ rest op hop).mono (List.subset_append_right ..)
          (List.subset_append_right ..)

end

end Stems

-- Each operation of a program is made from what stands in its template.
theorem Template.Elaborates.stems {context : CheckContext} {t : Template}
    {checked : CheckedTemplate} (h : t.Elaborates context checked) {name : String} {mode : Mode} :
    ∀ op ∈ (checked.program name mode).leaves, op.Stems context.oracle mode t.runs t.nodes :=
  Statement.ops_stem mode 0 "" h.body

-- A template that asks for no value to be printed as it is.
def Template.NoRaw (t : Template) : Prop :=
  ∀ value span, .interpolation true value span ∉ t.nodes

def Node.isRaw : Node → Bool
  | .interpolation raw _ _ => raw
  | _ => false

instance (t : Template) : Decidable t.NoRaw :=
  decidable_of_iff (∀ node ∈ t.nodes, node.isRaw = false) <| by
    constructor
    · intro h value span hnode
      exact nomatch h _ hnode
    · intro h node hnode
      cases node with
      | interpolation raw value span =>
          cases raw with
          | false => rfl
          | true => exact absurd hnode (h value span)
      | _ => rfl

theorem Template.Elaborates.noRaw {context : CheckContext} {t : Template}
    {checked : CheckedTemplate} (h : t.Elaborates context checked) (hraw : t.NoRaw)
    {name : String} {mode : Mode} : (checked.program name mode).NoRaw := by
  intro code hcode
  obtain ⟨value, span, -, -, hnode, -⟩ := h.stems _ hcode
  exact hraw value span hnode

end Stencil
