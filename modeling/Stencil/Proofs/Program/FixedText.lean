import Stencil.Proofs.Program.Leaves
import Stencil.Proofs.Template.Grammar

/-!
Every text of a template is fixed text of its program: an operation that writes this text and
nothing else.
-/

namespace Stencil

open Template

def Node.text? : Node → Option (String × Span)
  | .text content span => some (content, span)
  | _ => none

def Template.Item.text? : Item → Option (String × Span)
  | .text content span => some (content, span)
  | _ => none

mutual

-- The texts of a row are those of the nodes, in the same order.
theorem Node.texts_items : ∀ node : Node,
    node.items.filterMap Item.text? = node.parts.filterMap Node.text?
  | .text _ _ | .interpolation _ _ _ | .inclusion _ _ _ _ => rfl
  | .conditional arms none span => by
    have harms := Node.texts_itemsOfArms arms (.condition · span.start) fun _ => rfl
    simp [Node.items, Node.parts, List.filterMap_cons, Node.text?, Item.text?, harms]
  | .conditional arms (some otherwise) span => by
    have harms := Node.texts_itemsOfArms arms (.condition · span.start) fun _ => rfl
    have helse := Node.texts_itemsOfAll otherwise
    simp [Node.items, Node.parts, List.filterMap_cons, Node.text?, Item.text?, harms, helse]
  | .loop element index iterable body none span => by
    have hbody := Node.texts_itemsOfAll body
    simp [Node.items, Node.parts, List.filterMap_cons, Node.text?, Item.text?, hbody]
  | .loop element index iterable body (some otherwise) span => by
    have hbody := Node.texts_itemsOfAll body
    have helse := Node.texts_itemsOfAll otherwise
    simp [Node.items, Node.parts, List.filterMap_cons, Node.text?, Item.text?, hbody, helse]

theorem Node.texts_itemsOfAll : ∀ nodes : List Node,
    (Node.itemsOfAll nodes).filterMap Item.text? = (Node.partsOfAll nodes).filterMap Node.text?
  | [] => rfl
  | node :: nodes => by
    simp [Node.itemsOfAll, Node.partsOfAll, Node.texts_items node, Node.texts_itemsOfAll nodes]

theorem Node.texts_itemsOfArms : ∀ (arms : List Arm) (opener : Expr → Item),
    (∀ test, (opener test).text? = none) →
      (Node.itemsOfArms opener arms).filterMap Item.text? =
        (Node.partsOfArms arms).filterMap Node.text?
  | [], _, _ => rfl
  | .mk test body :: arms, opener, hopener => by
    have harms := Node.texts_itemsOfArms arms .elseCondition fun _ => rfl
    simp [Node.itemsOfArms, Node.partsOfArms, hopener, Node.texts_itemsOfAll body, harms]

end

theorem Template.mem_nodes_iff {t : Template} {content : String} {span : Span} :
    .text content span ∈ t.nodes ↔ .text content span ∈ Node.itemsOfAll t.body := by
  have hnode : .text content span ∈ t.nodes ↔
      (content, span) ∈ (Node.partsOfAll t.body).filterMap Node.text? := by
    rw [List.mem_filterMap]
    refine ⟨fun h => ⟨_, h, rfl⟩, ?_⟩
    rintro ⟨node, hmem, htext⟩
    cases node with
    | text =>
      cases htext
      exact hmem
    | _ => cases htext
  rw [hnode, ← Node.texts_itemsOfAll, List.mem_filterMap]
  refine ⟨?_, fun h => ⟨_, h, rfl⟩⟩
  rintro ⟨item, hmem, htext⟩
  cases item with
  | text =>
    cases htext
    exact hmem
  | _ => cases htext

namespace Node

-- Where no text comes first, text from before does not go on.
theorem runsOfAll_of_apart {nodes : List Node} {content : String} {span : Span}
    (h : TextsApart (.text content span :: nodes)) (pending : String) :
    runsOfAll pending nodes = textRuns pending ++ runsOfAll "" nodes := by
  cases nodes with
  | nil => simp [runsOfAll, textRuns]
  | cons node nodes =>
    cases node with
    | text => exact absurd ⟨rfl, rfl⟩ (List.isChain_cons_cons.1 h).1
    | _ => simp [runsOfAll, textRuns]

section Runs

variable {content : String} {span : Span}

mutual

-- Text that has no other text beside it is a run of its own.
theorem mem_runs : ∀ {node : Node}, (∀ block ∈ node.blocks, TextsApart block) →
    (∀ content span, node ≠ .text content span) → content ≠ "" →
    .text content span ∈ node.parts → content ∈ node.runs
  | .text content span, _, htext, _, _ => absurd rfl (htext content span)
  | .interpolation _ _ _, _, _, _, hmem => by simp [parts] at hmem
  | .inclusion _ _ _ _, _, _, _, hmem => by simp [parts] at hmem
  | .conditional arms none span, hapart, _, hne, hmem => by
    rcases List.mem_cons.1 hmem with hmem | hmem
    · cases hmem
    · exact mem_runsOfArms hapart hne hmem
  | .conditional arms (some otherwise) span, hapart, _, hne, hmem => by
    rcases List.mem_cons.1 hmem with hmem | hmem
    · cases hmem
    rcases List.mem_append.1 hmem with hmem | hmem
    · exact List.mem_append_left _ (mem_runsOfArms
        (fun block hblock => hapart block (List.mem_append_left _ hblock)) hne hmem)
    · exact List.mem_append_right _ (mem_runsOfAll
        (fun block hblock => hapart block (List.mem_append_right _ hblock)) hne hmem)
  | .loop element index iterable body none span, hapart, _, hne, hmem => by
    rcases List.mem_cons.1 hmem with hmem | hmem
    · cases hmem
    · exact mem_runsOfAll hapart hne hmem
  | .loop element index iterable body (some otherwise) span, hapart, _, hne, hmem => by
    rcases List.mem_cons.1 hmem with hmem | hmem
    · cases hmem
    rcases List.mem_append.1 hmem with hmem | hmem
    · exact List.mem_append_left _ (mem_runsOfAll
        (fun block hblock => hapart block (List.mem_append_left _ hblock)) hne hmem)
    · exact List.mem_append_right _ (mem_runsOfAll
        (fun block hblock => hapart block (List.mem_append_right _ hblock)) hne hmem)

theorem mem_runsOfAll : ∀ {nodes : List Node},
    (∀ block ∈ nodes :: blocksOfAll nodes, TextsApart block) → content ≠ "" →
    .text content span ∈ partsOfAll nodes → content ∈ runsOfAll "" nodes
  | [], _, _, hmem => nomatch hmem
  | node :: nodes, hapart, hne, hmem => by
    have hnodes : TextsApart (node :: nodes) := hapart _ List.mem_cons_self
    have hrest : ∀ block ∈ nodes :: blocksOfAll nodes, TextsApart block := by
      refine List.forall_mem_cons.2 ⟨hnodes.of_cons, fun block hblock => ?_⟩
      exact hapart block (List.mem_cons_of_mem _ (List.mem_append_right _ hblock))
    by_cases htext : ∃ content span, node = .text content span
    · obtain ⟨first, place, rfl⟩ := htext
      have hruns : runsOfAll "" (.text first place :: nodes) =
          textRuns first ++ runsOfAll "" nodes := by
        rw [runsOfAll, String.empty_append, runsOfAll_of_apart hnodes]
      rw [hruns]
      rcases List.mem_cons.1 hmem with hmem | hmem
      · cases hmem
        exact List.mem_append_left _ (by simp [textRuns, hne])
      · exact List.mem_append_right _ (mem_runsOfAll hrest hne hmem)
    · have hnode : ∀ content span, node ≠ .text content span :=
        fun content span h => htext ⟨content, span, h⟩
      rw [runsOfAll_cons hnode]
      rcases List.mem_append.1 hmem with hmem | hmem
      · refine List.mem_append_right _ (List.mem_append_left _ (mem_runs (fun block hblock => ?_)
          hnode hne hmem))
        exact hapart block (List.mem_cons_of_mem _ (List.mem_append_left _ hblock))
      · exact List.mem_append_right _ (List.mem_append_right _ (mem_runsOfAll hrest hne hmem))

theorem mem_runsOfArms : ∀ {arms : List Arm},
    (∀ block ∈ blocksOfArms arms, TextsApart block) → content ≠ "" →
    .text content span ∈ partsOfArms arms → content ∈ runsOfArms arms
  | [], _, _, hmem => nomatch hmem
  | .mk test body :: arms, hapart, hne, hmem => by
    rcases List.mem_append.1 hmem with hmem | hmem
    · exact List.mem_append_left _ (mem_runsOfAll
        (fun block hblock => hapart block (List.mem_append_left _ hblock)) hne hmem)
    · exact List.mem_append_right _ (mem_runsOfArms
        (fun block hblock => hapart block (List.mem_append_right _ hblock)) hne hmem)

end

end Runs

end Node

theorem literal_mem_textOps {mode : Mode} {run pending : String} (h : run ∈ textRuns pending) :
    .literal (.ofString mode run) ∈ Op.leavesOfAll (textOps mode pending) := by
  unfold textRuns at h
  unfold textOps
  split at h
  · cases h
  · next hpending =>
    obtain rfl := List.mem_singleton.1 h
    rw [if_neg hpending]
    exact List.mem_singleton_self _

section Literals

variable {context : CheckContext} (mode : Mode) {run : String}

mutual

-- Generation makes an operation of every run of text.
theorem Statement.literal_mem_op (site : Nat) : ∀ {scope : Scope} {node : Node} {s : Statement},
    node.Elaborates context scope s → run ∈ node.runs →
      .literal (.ofString mode run) ∈ (s.op mode site).1.leaves
  | _, _, _, .text content span, hrun => nomatch hrun
  | _, _, _, .interpolation _ _, hrun => by simp [Node.runs] at hrun
  | _, _, _, .inclusion _ _, hrun => by simp [Node.runs] at hrun
  | _, _, _, .conditional harms hels, hrun => by
    rw [Node.runs_conditional] at hrun
    rcases List.mem_append.1 hrun with hrun | hrun
    · exact List.mem_append_left _ (Statement.literal_mem_branchOps _ harms hrun)
    · exact List.mem_append_right _ (Statement.literal_mem_ops _ "" hels hrun)
  | _, _, _, .loop _ _ hbody hels, hrun => by
    rw [Node.runs_loop] at hrun
    rcases List.mem_append.1 hrun with hrun | hrun
    · exact List.mem_append_left _ (Statement.literal_mem_ops _ "" hbody hrun)
    · exact List.mem_append_right _ (Statement.literal_mem_ops _ "" hels hrun)

theorem Statement.literal_mem_ops (site : Nat) (pending : String) :
    ∀ {scope : Scope} {nodes : List Node} {ss : List Statement},
      Node.ElaborateAll context scope nodes ss → run ∈ Node.runsOfAll pending nodes →
        .literal (.ofString mode run) ∈ Op.leavesOfAll (Statement.ops mode site pending ss).1
  | _, _, _, .nil, hrun => literal_mem_textOps hrun
  | _, _, _, @Node.ElaborateAll.cons _ _ node s nodes ss first rest, hrun => by
    by_cases htext : ∃ content span, node = .text content span
    · obtain ⟨content, span, rfl⟩ := htext
      cases first
      exact Statement.literal_mem_ops site (pending ++ content) rest hrun
    · have hnode : ∀ content span, node ≠ .text content span :=
        fun content span h => htext ⟨content, span, h⟩
      have hs : ∀ content, s ≠ .text content := by
        rintro content rfl
        cases first
        exact hnode _ _ rfl
      rw [Node.runsOfAll_cons hnode] at hrun
      rw [Statement.ops_cons hs, Op.leavesOfAll_append]
      rcases List.mem_append.1 hrun with hrun | hrun
      · exact List.mem_append_left _ (literal_mem_textOps hrun)
      refine List.mem_append_right _ ?_
      rcases List.mem_append.1 hrun with hrun | hrun
      · exact List.mem_append_left _ (Statement.literal_mem_op site first hrun)
      · exact List.mem_append_right _ (Statement.literal_mem_ops _ "" rest hrun)

theorem Statement.literal_mem_branchOps (site : Nat) :
    ∀ {scope : Scope} {arms : List Arm} {branches : List Branch},
      Arm.ElaborateAll context scope arms branches → run ∈ Node.runsOfArms arms →
        .literal (.ofString mode run) ∈
          Op.leavesOfArms (Statement.branchOps mode site branches).1
  | _, _, _, .nil, hrun => nomatch hrun
  | _, _, _, .cons _ _ body rest, hrun => by
    rcases List.mem_append.1 hrun with hrun | hrun
    · exact List.mem_append_left _ (Statement.literal_mem_ops site "" body hrun)
    · exact List.mem_append_right _ (Statement.literal_mem_branchOps _ rest hrun)

end

end Literals

-- Every text of a template whose texts stand apart is written by one operation of its program.
theorem Template.Elaborates.literal_mem {context : CheckContext} {t : Template}
    {checked : CheckedTemplate} (h : t.Elaborates context checked)
    (hapart : ∀ block ∈ t.blocks, Node.TextsApart block) {content : String} {span : Span}
    (hmem : .text content span ∈ t.nodes) (hne : content ≠ "") (name : String) (mode : Mode) :
    .literal (.ofString mode content) ∈ (checked.program name mode).leaves :=
  Statement.literal_mem_ops mode 0 "" h.body (Node.mem_runsOfAll hapart hne hmem)

end Stencil
