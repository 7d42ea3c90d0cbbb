import Stencil.Proofs.Typing.Header
import Stencil.Registry.Basic

/-!
The slots and the site numbers that generation hands out, and the programs of the two modes. These
differ in their fixed text only, which byte mode has encoded.
-/

namespace Stencil

mutual

-- Slots are only ever added.
theorem Statement.le_slots (n : Nat) : ∀ s : Statement, n ≤ s.slots n
  | .text _ | .interpolation _ _ | .inclusion _ _ => Nat.le_refl n
  | .conditional arms otherwise =>
      Nat.le_trans (Statement.le_slotsOfBranches n arms) (Statement.le_slotsOfAll _ otherwise)
  | .loop _ element index body otherwise => by
      have hbody := Statement.le_slotsOfAll (max n (index.getD element + 1)) body
      have hotherwise := Statement.le_slotsOfAll
        (Statement.slotsOfAll (max n (index.getD element + 1)) body) otherwise
      simp only [Statement.slots]
      omega

theorem Statement.le_slotsOfAll (n : Nat) : ∀ ss : List Statement, n ≤ Statement.slotsOfAll n ss
  | [] => Nat.le_refl n
  | s :: ss => Nat.le_trans (Statement.le_slots n s) (Statement.le_slotsOfAll _ ss)

theorem Statement.le_slotsOfBranches (n : Nat) :
    ∀ bs : List Branch, n ≤ Statement.slotsOfBranches n bs
  | [] => Nat.le_refl n
  | .mk _ body :: bs =>
      Nat.le_trans (Statement.le_slotsOfAll n body) (Statement.le_slotsOfBranches _ bs)

end

theorem Statement.ops_cons {mode : Mode} {site : Nat} {pending : String} {s : Statement}
    {ss : List Statement} (h : ∀ content, s ≠ .text content) :
    Statement.ops mode site pending (s :: ss) =
      (textOps mode pending ++
          (s.op mode site).1 :: (Statement.ops mode (s.op mode site).2 "" ss).1,
        (Statement.ops mode (s.op mode site).2 "" ss).2) := by
  cases s with
  | text content => exact absurd rfl (h content)
  | _ => rfl

theorem Node.targets_conditional {arms : List Arm} {otherwise : Option (List Node)}
    {span : Span} : (Node.conditional arms otherwise span).targets =
      Node.targetsOfArms arms ++ Node.targetsOfAll (otherwise.getD []) := by
  cases otherwise <;> simp [Node.targets, Node.targetsOfAll]

theorem Node.targets_loop {element : Binding} {index : Option Binding} {iterable : Expr}
    {body : List Node} {otherwise : Option (List Node)} {span : Span} :
    (Node.loop element index iterable body otherwise span).targets =
      Node.targetsOfAll body ++ Node.targetsOfAll (otherwise.getD []) := by
  cases otherwise <;> simp [Node.targets, Node.targetsOfAll]

mutual

-- Generation numbers inclusions as they stand in the template.
theorem Statement.site_op (mode : Mode) (site : Nat) {context : CheckContext} :
    ∀ {scope : Scope} {node : Node} {s : Statement}, node.Elaborates context scope s →
      (s.op mode site).2 = site + node.targets.length
  | _, _, _, .text _ _ => rfl
  | _, _, _, @Node.Elaborates.interpolation _ _ raw _ _ _ _ _ => by
      cases raw <;> rfl
  | _, _, _, @Node.Elaborates.conditional _ _ arms otherwise _ branches els harms hels => by
      have hsites := Statement.site_branchOps mode site harms
      have hels := Statement.site_ops mode (site + (Node.targetsOfArms arms).length) "" hels
      simp [Statement.op, Node.targets_conditional, hsites, hels, Nat.add_assoc]
  | _, _, _, @Node.Elaborates.loop _ _ element index iterable body otherwise _ it item statements els
      _ _ hbody hels => by
      have hsites := Statement.site_ops mode site "" hbody
      have hels := Statement.site_ops mode (site + (Node.targetsOfAll body).length) "" hels
      simp [Statement.op, Node.targets_loop, hsites, hels, Nat.add_assoc]
  | _, _, _, .inclusion _ _ => rfl

theorem Statement.site_ops (mode : Mode) (site : Nat) {context : CheckContext} (pending : String) :
    ∀ {scope : Scope} {nodes : List Node} {ss : List Statement},
      Node.ElaborateAll context scope nodes ss →
      (Statement.ops mode site pending ss).2 = site + (Node.targetsOfAll nodes).length
  | _, _, _, .nil => rfl
  | _, _, _, @Node.ElaborateAll.cons _ _ node s nodes ss first rest => by
      by_cases htext : ∃ content, s = .text content
      · obtain ⟨content, rfl⟩ := htext
        cases first
        simpa [Statement.ops, Node.targetsOfAll, Node.targets] using
          Statement.site_ops mode site (pending ++ content) rest
      · have hfirst := Statement.site_op mode site first
        have hrest := Statement.site_ops mode (site + node.targets.length) "" rest
        rw [Statement.ops_cons fun content h => htext ⟨content, h⟩]
        simp [hfirst, hrest, Node.targetsOfAll, Nat.add_assoc]

theorem Statement.site_branchOps (mode : Mode) (site : Nat) {context : CheckContext} :
    ∀ {scope : Scope} {arms : List Arm} {branches : List Branch},
      Arm.ElaborateAll context scope arms branches →
      (Statement.branchOps mode site branches).2 = site + (Node.targetsOfArms arms).length
  | _, _, _, .nil => rfl
  | _, _, _, @Arm.ElaborateAll.cons _ _ _ nodes _ _ _ _ _ _ body rest => by
      have hbody := Statement.site_ops mode site "" body
      have hrest := Statement.site_branchOps mode (site + (Node.targetsOfAll nodes).length) rest
      simp_all [Statement.branchOps, Node.targetsOfArms, Nat.add_assoc]

end

mutual

-- An operation of text mode, and one of byte mode that is the same with its fixed text encoded.
inductive Op.Encodes : Op → Op → Prop
  | literal (s : String) : Op.Encodes (.literal (.text s)) (.literal (.encoded (Text.encode s)))
  | escaped (value : Formula) : Op.Encodes (.escaped value) (.escaped value)
  | raw (value : Formula) : Op.Encodes (.raw value) (.raw value)
  | branch {arms arms' : List OpArm} {otherwise otherwise' : List Op} :
    OpArm.EncodeAll arms arms' → Op.EncodeAll otherwise otherwise' →
    Op.Encodes (.branch arms otherwise) (.branch arms' otherwise')
  | loop {body body' otherwise otherwise' : List Op} (iterable : Formula) (element : Nat)
    (index : Option Nat) :
    Op.EncodeAll body body' → Op.EncodeAll otherwise otherwise' →
    Op.Encodes (.loop iterable element index body otherwise)
      (.loop iterable element index body' otherwise')
  | inclusion (site : Nat) (target : String) (args : List (Option Formula)) :
    Op.Encodes (.inclusion site target args) (.inclusion site target args)

inductive Op.EncodeAll : List Op → List Op → Prop
  | nil : Op.EncodeAll [] []
  | cons {op op' : Op} {ops ops' : List Op} :
    Op.Encodes op op' → Op.EncodeAll ops ops' → Op.EncodeAll (op :: ops) (op' :: ops')

inductive OpArm.EncodeAll : List OpArm → List OpArm → Prop
  | nil : OpArm.EncodeAll [] []
  | cons {body body' : List Op} {arms arms' : List OpArm} (test : Formula) :
    Op.EncodeAll body body' → OpArm.EncodeAll arms arms' →
    OpArm.EncodeAll (.mk test body :: arms) (.mk test body' :: arms')

end

-- A program of text mode, and one of byte mode.
structure Program.Encodes (p q : Program) : Prop where
  name : p.name = q.name
  text : p.mode = .text
  bytes : q.mode = .bytes
  schema : p.schema = q.schema
  frameSize : p.frameSize = q.frameSize
  body : Op.EncodeAll p.body q.body

theorem Op.EncodeAll.append {ops₁ ops₁' ops₂ ops₂' : List Op} (h₁ : EncodeAll ops₁ ops₁')
    (h₂ : EncodeAll ops₂ ops₂') : EncodeAll (ops₁ ++ ops₂) (ops₁' ++ ops₂') := by
  induction ops₁ generalizing ops₁' with
  | nil =>
      cases h₁
      exact h₂
  | cons op ops ih =>
      cases h₁ with
      | cons hop hops => exact .cons hop (ih hops)

theorem textOps_encode (content : String) :
    Op.EncodeAll (textOps .text content) (textOps .bytes content) := by
  unfold textOps
  by_cases h : content.isEmpty = true
  · rw [if_pos h, if_pos h]
    exact .nil
  · rw [if_neg h, if_neg h]
    exact .cons (.literal content) .nil

mutual

-- Both generators hand out the same site numbers.
theorem Statement.op_encodes (site : Nat) : ∀ s : Statement,
    (s.op .text site).1.Encodes (s.op .bytes site).1 ∧ (s.op .text site).2 = (s.op .bytes site).2
  | .text content => ⟨.literal content, rfl⟩
  | .interpolation true value => ⟨.raw value.formula, rfl⟩
  | .interpolation false value => ⟨.escaped value.formula, rfl⟩
  | .conditional arms otherwise => by
      obtain ⟨harms, hsite⟩ := Statement.branchOps_encode site arms
      obtain ⟨hotherwise, hlast⟩ :=
        Statement.ops_encode (Statement.branchOps .text site arms).2 "" otherwise
      simp only [Statement.op, ← hsite]
      exact ⟨.branch harms hotherwise, hlast⟩
  | .loop iterable element index body otherwise => by
      obtain ⟨hbody, hsite⟩ := Statement.ops_encode site "" body
      obtain ⟨hotherwise, hlast⟩ :=
        Statement.ops_encode (Statement.ops .text site "" body).2 "" otherwise
      simp only [Statement.op, ← hsite]
      exact ⟨.loop _ _ _ hbody hotherwise, hlast⟩
  | .inclusion target args => ⟨.inclusion site target _, rfl⟩

theorem Statement.ops_encode (site : Nat) (pending : String) : ∀ ss : List Statement,
    Op.EncodeAll (Statement.ops .text site pending ss).1 (Statement.ops .bytes site pending ss).1 ∧
      (Statement.ops .text site pending ss).2 = (Statement.ops .bytes site pending ss).2
  | [] => ⟨textOps_encode pending, rfl⟩
  | s :: ss => by
      by_cases htext : ∃ content, s = .text content
      · obtain ⟨content, rfl⟩ := htext
        exact Statement.ops_encode site (pending ++ content) ss
      · have hs : ∀ content, s ≠ .text content := fun content h => htext ⟨content, h⟩
        obtain ⟨hfirst, hsite⟩ := Statement.op_encodes site s
        obtain ⟨hrest, hlast⟩ := Statement.ops_encode (s.op .text site).2 "" ss
        rw [Statement.ops_cons hs, Statement.ops_cons hs, ← hsite]
        exact ⟨(textOps_encode pending).append (.cons hfirst hrest), hlast⟩

theorem Statement.branchOps_encode (site : Nat) : ∀ bs : List Branch,
    OpArm.EncodeAll (Statement.branchOps .text site bs).1 (Statement.branchOps .bytes site bs).1 ∧
      (Statement.branchOps .text site bs).2 = (Statement.branchOps .bytes site bs).2
  | [] => ⟨.nil, rfl⟩
  | .mk test body :: bs => by
      obtain ⟨hbody, hsite⟩ := Statement.ops_encode site "" body
      obtain ⟨hrest, hlast⟩ := Statement.branchOps_encode (Statement.ops .text site "" body).2 bs
      simp only [Statement.branchOps, ← hsite]
      exact ⟨.cons test.formula hbody hrest, hlast⟩

end

end Stencil
