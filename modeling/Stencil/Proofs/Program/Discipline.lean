import Stencil.Proofs.Program.Generation
import Stencil.Proofs.Program.Slots

/-!
Programs of checked templates keep to their slots. The names visible at a place own the slots below
their number, and a loop takes the next ones.
-/

namespace Stencil

theorem Scope.lt_of_find? {scope : Scope} {name : String} {slot : Nat} {type : Option Ty}
    (h : scope.find? name = some (slot, type)) : slot < scope.length := by
  induction scope with
  | nil => cases h
  | cons l outer ih =>
    rw [find?] at h
    by_cases hname : l.name = name
    · rw [if_pos hname] at h
      obtain ⟨rfl, -⟩ := Prod.mk.inj (Option.some.inj h)
      exact Nat.lt_succ_self _
    · rw [if_neg hname] at h
      exact Nat.lt_succ_of_lt (ih h)

section Reads

variable {oracle : Oracle} {scope : Scope}

mutual

-- Code reads the slots of visible names only.
theorem Term.reads_lt : ∀ {e : Expr} {t : Term}, e.Elaborates oracle scope t →
    ∀ i ∈ t.formula.reads, i < scope.length
  | _, _, .literal _ _, _, hi => nomatch hi
  | _, _, .name found, i, hi => by
    obtain rfl := List.mem_singleton.mp hi
    exact Scope.lt_of_find? found
  | _, _, @Expr.Elaborates.list _ _ m items ts element items_elaborate _, i, hi => by
    rw [Term.formula] at hi
    cases hconstants : Formula.constants? (Term.formulas ts) with
    | none =>
      simp only [hconstants] at hi
      exact Term.readsOfAll_lt items_elaborate i hi
    | some cs => simp [hconstants, Formula.reads] at hi
  | _, _, .field object _ _, i, hi => Term.reads_lt object i hi
  | _, _, .method object _ _ args _, i, hi => by
    obtain hobject | hargs := List.mem_append.mp hi
    · exact Term.reads_lt object i hobject
    · exact Term.readsOfAll_lt args i hargs
  | _, _, .builtin object _, i, hi => Term.reads_lt object i hi
  | _, _, .contains object _ needle _, i, hi => by
    obtain hobject | hneedle := List.mem_append.mp hi
    · exact Term.reads_lt object i hobject
    · exact Term.reads_lt needle i hneedle
  | _, _, @Expr.Elaborates.unary _ _ m op operand t type operand_elaborates _, i, hi => by
    cases op <;> exact Term.reads_lt operand_elaborates i hi
  | _, _, @Expr.Elaborates.binary _ _ m op lhs rhs a b type lhs_elaborates rhs_elaborates _, i,
      hi => by
    have hparts : i ∈ a.formula.reads ++ b.formula.reads := by
      cases op <;> exact hi
    obtain hlhs | hrhs := List.mem_append.mp hparts
    · exact Term.reads_lt lhs_elaborates i hlhs
    · exact Term.reads_lt rhs_elaborates i hrhs

theorem Term.readsOfAll_lt : ∀ {es : List Expr} {ts : List Term},
    Expr.ElaborateAll oracle scope es ts →
    ∀ i ∈ Formula.readsOfAll (Term.formulas ts), i < scope.length
  | _, _, .nil, _, hi => nomatch hi
  | _, _, .cons first rest, i, hi => by
    obtain hfirst | hrest := List.mem_append.mp hi
    · exact Term.reads_lt first i hfirst
    · exact Term.readsOfAll_lt rest i hrest

end

theorem Argument.reads_lt {schema : Schema} {args : List Argument} {i : Nat}
    {params : List Parameter} {ts : List (Option Term)}
    (h : Argument.Fill oracle scope schema args i params ts) :
    ∀ j ∈ Formula.readsOfGiven (ts.map (·.map Term.formula)), j < scope.length := by
  induction h with
  | nil => exact fun _ hj => nomatch hj
  | omitted _ _ _ ih => exact ih
  | given _ elaborates _ _ ih =>
    intro j hj
    obtain hfirst | hrest := List.mem_append.mp hj
    · exact Term.reads_lt elaborates j hfirst
    · exact ih j hrest

end Reads

namespace Op

theorem allSlotSafe_append {stored : List Nat} {ops ops' : List Op} :
    AllSlotSafe stored (ops ++ ops') ↔ AllSlotSafe stored ops ∧ AllSlotSafe stored ops' := by
  induction ops with
  | nil => simp [AllSlotSafe]
  | cons op ops ih => simp [AllSlotSafe, ih, and_assoc]

theorem slotsOfAll_append (ops ops' : List Op) :
    slotsOfAll (ops ++ ops') = slotsOfAll ops ++ slotsOfAll ops' := by
  induction ops with
  | nil => rfl
  | cons op ops ih => simp [slotsOfAll, ih]

end Op

theorem allSlotSafe_textOps (stored : List Nat) (mode : Mode) (text : String) :
    Op.AllSlotSafe stored (textOps mode text) := by
  unfold textOps
  split
  · trivial
  · exact ⟨trivial, trivial⟩

theorem slots_textOps (mode : Mode) (text : String) :
    Op.slotsOfAll (textOps mode text) = [] := by
  unfold textOps
  split <;> rfl

-- The slots of the visible names, each once.
structure Scope.Stored (scope : Scope) (stored : List Nat) : Prop where
  nodup : stored.Nodup
  mem_iff : ∀ i, i ∈ stored ↔ i < scope.length

theorem Scope.Stored.subset {scope : Scope} {stored slots : List Nat} (h : scope.Stored stored)
    (hslots : ∀ i ∈ slots, i < scope.length) : slots ⊆ stored :=
  fun i hi => (h.mem_iff i).mpr (hslots i hi)

-- A loop adds its own.
theorem Scope.Stored.inLoop {scope : Scope} {stored : List Nat} (h : scope.Stored stored)
    (element : Binding) (index : Option Binding) (type : Option Ty) :
    (scope.inLoop element index type).Stored
      (Op.bound scope.length (index.map fun _ => scope.length + 1) ++ stored) := by
  have hfresh : ∀ i, scope.length ≤ i → i ∉ stored := fun i hi hmem => by
    have hlt := (h.mem_iff i).mp hmem
    omega
  constructor
  · cases index with
    | none => exact List.nodup_cons.mpr ⟨hfresh _ (Nat.le_refl _), h.nodup⟩
    | some index =>
      refine List.nodup_cons.mpr ⟨?_, List.nodup_cons.mpr ⟨hfresh _ (Nat.le_succ _), h.nodup⟩⟩
      simpa using hfresh _ (Nat.le_refl _)
  · intro i
    rw [Scope.length_inLoop]
    cases index with
    | none =>
      simp only [Op.bound, Binding.depthInside, Option.map_none, Option.toList_none,
        List.singleton_append, List.mem_cons, h.mem_iff, Option.elim_none]
      omega
    | some index =>
      simp only [Op.bound, Binding.depthInside, Option.map_some, Option.toList_some,
        List.cons_append, List.nil_append, List.mem_cons, h.mem_iff, Option.elim_some]
      omega

theorem Binding.lt_of_mem_bound {depth i : Nat} {index : Option Binding}
    (h : i ∈ Op.bound depth (index.map fun _ => depth + 1)) :
    i < Binding.depthInside depth index := by
  cases index with
  | none =>
    obtain rfl := List.mem_singleton.mp h
    exact Nat.lt_succ_self _
  | some index =>
    have hcases : i = depth ∨ i = depth + 1 := by simpa [Op.bound] using h
    simp only [Binding.depthInside, Option.elim_some]
    omega

section Bodies

variable {context : CheckContext}

mutual

-- What a node becomes reads only what stands in the slots of the names around it.
theorem Statement.slotSafe_op (mode : Mode) (site : Nat) : ∀ {scope : Scope} {node : Node}
    {s : Statement} {stored : List Nat}, node.Elaborates context scope s → scope.Stored stored →
      (s.op mode site).1.SlotSafe stored
  | _, _, _, _, .text _ _, _ => trivial
  | _, _, _, _, @Node.Elaborates.interpolation _ _ raw _ _ _ elaborates _, hstored => by
    have hreads := hstored.subset (Term.reads_lt elaborates)
    cases raw <;> exact hreads
  | _, _, _, _, .conditional harms hels, hstored =>
    ⟨Statement.slotSafe_branchOps mode site harms hstored,
      Statement.slotSafe_ops mode _ "" hels hstored⟩
  | _, _, _, _, @Node.Elaborates.loop _ scope element index iterable body otherwise _ it item
      statements els hit _ hbody hels, hstored => by
    have hinside := hstored.inLoop element index (some item)
    exact ⟨hstored.subset (Term.reads_lt hit), hinside.nodup,
      Statement.slotSafe_ops mode site "" hbody hinside,
      Statement.slotSafe_ops mode _ "" hels hstored⟩
  | _, _, _, _, .inclusion _ filled, hstored => hstored.subset (Argument.reads_lt filled)

theorem Statement.slotSafe_ops (mode : Mode) (site : Nat) (pending : String) : ∀ {scope : Scope}
    {nodes : List Node} {ss : List Statement} {stored : List Nat},
      Node.ElaborateAll context scope nodes ss → scope.Stored stored →
      Op.AllSlotSafe stored (Statement.ops mode site pending ss).1
  | _, _, _, stored, .nil, _ => allSlotSafe_textOps stored mode pending
  | _, _, _, stored, @Node.ElaborateAll.cons _ _ node s nodes ss first rest, hstored => by
    by_cases htext : ∃ content, s = .text content
    · obtain ⟨content, rfl⟩ := htext
      exact Statement.slotSafe_ops mode site (pending ++ content) rest hstored
    · rw [Statement.ops_cons fun content h => htext ⟨content, h⟩]
      refine Op.allSlotSafe_append.mpr ⟨allSlotSafe_textOps stored mode pending, ?_, ?_⟩
      · exact Statement.slotSafe_op mode site first hstored
      · exact Statement.slotSafe_ops mode _ "" rest hstored

theorem Statement.slotSafe_branchOps (mode : Mode) (site : Nat) : ∀ {scope : Scope}
    {arms : List Arm} {branches : List Branch} {stored : List Nat},
      Arm.ElaborateAll context scope arms branches → scope.Stored stored →
      Op.ArmsSlotSafe stored (Statement.branchOps mode site branches).1
  | _, _, _, _, .nil, _ => trivial
  | _, _, _, _, .cons test _ body rest, hstored =>
    ⟨hstored.subset (Term.reads_lt test), Statement.slotSafe_ops mode site "" body hstored,
      Statement.slotSafe_branchOps mode _ rest hstored⟩

end

mutual

-- All slots are among those that are counted, also where `n` were counted before.
theorem Statement.slots_op_lt (mode : Mode) (site n : Nat) : ∀ {scope : Scope} {node : Node}
    {s : Statement}, node.Elaborates context scope s → scope.length ≤ n →
      ∀ i ∈ (s.op mode site).1.slots, i < s.slots n
  | _, _, _, .text _ _, _, _, hi => nomatch hi
  | _, _, _, @Node.Elaborates.interpolation _ _ raw _ _ _ elaborates _, hn, i, hi => by
    have hlt : i < _ := Term.reads_lt elaborates i (by cases raw <;> exact hi)
    exact Nat.lt_of_lt_of_le hlt hn
  | _, _, _, @Node.Elaborates.conditional _ _ arms otherwise _ branches els harms hels, hn, i,
      hi => by
    have hgrows := Statement.le_slotsOfBranches n branches
    obtain harm | hother := List.mem_append.mp hi
    · exact Nat.lt_of_lt_of_le (Statement.slots_branchOps_lt mode site n harms hn i harm)
        (Statement.le_slotsOfAll _ els)
    · exact Statement.slots_ops_lt mode _ _ "" hels (Nat.le_trans hn hgrows) i hother
  | _, _, _, @Node.Elaborates.loop _ scope element index iterable body otherwise _ it item
      statements els hit _ hbody hels, hn, i, hi => by
    simp only [Statement.slots, Binding.getD_add_one]
    generalize hinner : max n (Binding.depthInside scope.length index) = inner
    have hgrows := Statement.le_slotsOfAll inner statements
    have hgrows' := Statement.le_slotsOfAll (Statement.slotsOfAll inner statements) els
    obtain hfront | hother := List.mem_append.mp hi
    · obtain hheader | hbody' := List.mem_append.mp hfront
      · have hlt : i < inner := by
          obtain hiterable | hbound := List.mem_append.mp hheader
          · have hlt := Term.reads_lt hit i hiterable
            omega
          · have hlt := Binding.lt_of_mem_bound hbound
            omega
        omega
      · have hlength : (scope.inLoop element index (some item)).length ≤ inner := by
          rw [Scope.length_inLoop]
          omega
        have hlt := Statement.slots_ops_lt mode site inner "" hbody hlength i hbody'
        omega
    · exact Statement.slots_ops_lt mode _ _ "" hels (by omega) i hother
  | _, _, _, .inclusion _ filled, hn, i, hi =>
    Nat.lt_of_lt_of_le (Argument.reads_lt filled i hi) hn

theorem Statement.slots_ops_lt (mode : Mode) (site n : Nat) (pending : String) : ∀ {scope : Scope}
    {nodes : List Node} {ss : List Statement}, Node.ElaborateAll context scope nodes ss →
      scope.length ≤ n →
      ∀ i ∈ Op.slotsOfAll (Statement.ops mode site pending ss).1, i < Statement.slotsOfAll n ss
  | _, _, _, .nil, _, i, hi => by simp [Statement.ops, slots_textOps] at hi
  | _, _, _, @Node.ElaborateAll.cons _ _ node s nodes ss first rest, hn, i, hi => by
    by_cases htext : ∃ content, s = .text content
    · obtain ⟨content, rfl⟩ := htext
      exact Statement.slots_ops_lt mode site n (pending ++ content) rest hn i hi
    · rw [Statement.ops_cons fun content h => htext ⟨content, h⟩, Op.slotsOfAll_append,
        slots_textOps, List.nil_append] at hi
      have hgrows := Statement.le_slots n s
      obtain hfirst | hrest := List.mem_append.mp hi
      · exact Nat.lt_of_lt_of_le (Statement.slots_op_lt mode site n first hn i hfirst)
          (Statement.le_slotsOfAll _ ss)
      · exact Statement.slots_ops_lt mode _ _ "" rest (Nat.le_trans hn hgrows) i hrest

theorem Statement.slots_branchOps_lt (mode : Mode) (site n : Nat) : ∀ {scope : Scope}
    {arms : List Arm} {branches : List Branch}, Arm.ElaborateAll context scope arms branches →
      scope.length ≤ n →
      ∀ i ∈ Op.slotsOfArms (Statement.branchOps mode site branches).1,
        i < Statement.slotsOfBranches n branches
  | _, _, _, .nil, _, _, hi => nomatch hi
  | _, _, _, @Arm.ElaborateAll.cons _ _ test nodes arms t ss branches htest _ hbody harms, hn, i,
      hi => by
    have hgrows := Statement.le_slotsOfAll n ss
    have hgrows' := Statement.le_slotsOfBranches (Statement.slotsOfAll n ss) branches
    obtain hfront | hrest := List.mem_append.mp hi
    · have hlt : i < Statement.slotsOfAll n ss := by
        obtain htest' | hbody' := List.mem_append.mp hfront
        · have hlt := Term.reads_lt htest i htest'
          omega
        · exact Statement.slots_ops_lt mode site n "" hbody hn i hbody'
      exact Nat.lt_of_lt_of_le hlt hgrows'
    · exact Statement.slots_branchOps_lt mode _ _ harms (Nat.le_trans hn hgrows) i hrest

end

end Bodies

theorem Schema.stored_scope (schema : Schema) :
    schema.scope.Stored (List.range schema.size) where
  nodup := List.nodup_range
  mem_iff i := by rw [List.mem_range, Schema.length_scope]

-- Parameters take the first slots, and loops those behind.
theorem Template.Elaborates.frameSafe {context : CheckContext} {t : Template}
    {checked : CheckedTemplate} (h : t.Elaborates context checked) (name : String) (mode : Mode) :
    (checked.program name mode).FrameSafe where
  slots_lt := Statement.slots_ops_lt mode 0 checked.schema.size "" h.body
    (Nat.le_of_eq checked.schema.length_scope)
  params_le := Statement.le_slotsOfAll checked.schema.size checked.body
  slotSafe := Statement.slotSafe_ops mode 0 "" h.body checked.schema.stored_scope

end Stencil
