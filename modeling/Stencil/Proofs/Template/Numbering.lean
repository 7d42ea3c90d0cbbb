import Stencil.Proofs.Expr.Numbers
import Stencil.Proofs.Template.Extents
import Stencil.Proofs.Template.Numbers

/-!
The numbers of a template that was read. They are given from zero on as its source is read: to the
defaults of the parameters, and then to the items of the body.
-/

namespace Stencil

open Markup Template

namespace Template.Item

-- The numbers in an item.
def numbers : Item → List Nat
  | .interpolation _ value _ => value.ids
  | .inclusion id _ args _ => id :: Argument.idsOfAll args
  | .condition test _ | .elseCondition test => test.ids
  | .loop header _ => Binding.numbers header.1 header.2.1 ++ header.2.2.ids
  | .text _ _ | .otherwise | .close _ => []

-- The same numbers in the order in which they are given. An inclusion is numbered after its
-- arguments.
def numbering : Item → List Nat
  | .interpolation _ value _ => value.numbering
  | .inclusion id _ args _ => Code.argumentNumbering args ++ [id]
  | .condition test _ | .elseCondition test => test.numbering
  | .loop header _ => Code.headerNumbering header
  | .text _ _ | .otherwise | .close _ => []

theorem numbering_perm (item : Item) : item.numbering.Perm item.numbers := by
  cases item with
  | interpolation _ value _ => exact value.numbering_perm
  | inclusion id _ args _ =>
    exact (List.perm_append_singleton _ _).trans ((Expr.numberingOfAll_perm _).cons id)
  | condition test _ | elseCondition test => exact test.numbering_perm
  | loop header _ => exact header.2.2.numbering_perm.append_left _
  | text | otherwise | close => exact .refl _

-- All expressions in an item.
def parts (item : Item) : List Expr := item.exprs.flatMap Expr.parts

theorem numbering_sublist {item : Item} {e : Expr} (h : e ∈ item.parts) :
    e.numbering.Sublist item.numbering := by
  obtain ⟨root, hroot, hpart⟩ := List.mem_flatMap.mp h
  refine (Expr.numbering_infix hpart).sublist.trans ?_
  cases item with
  | interpolation | condition | elseCondition =>
    obtain rfl := List.mem_singleton.mp hroot
    exact .refl _
  | loop =>
    obtain rfl := List.mem_singleton.mp hroot
    exact List.sublist_append_right _ _
  | inclusion id target args span =>
    refine .trans ?_ (List.sublist_append_left _ _)
    rw [Code.argumentNumbering, Expr.numberingOfAll_eq_flatMap]
    exact (List.infix_of_mem_flatten (List.mem_map_of_mem hroot)).sublist
  | text | otherwise | close => cases hroot

end Template.Item

namespace Node

mutual

-- The expressions of a node are those of its items, in the same order.
theorem exprs_items : ∀ node : Node, node.exprs = node.items.flatMap Item.parts
  | .text _ _ => rfl
  | .interpolation _ _ _ => by simp [exprs, items, Item.parts, Item.exprs]
  | .conditional arms none span => by
    have harms := exprs_itemsOfArms arms (.condition · span.start) fun test => by
      simp [Item.parts, Item.exprs]
    simp [exprs, items, Item.parts, Item.exprs, harms]
  | .conditional arms (some otherwise) span => by
    have harms := exprs_itemsOfArms arms (.condition · span.start) fun test => by
      simp [Item.parts, Item.exprs]
    simp [exprs, items, Item.parts, Item.exprs, harms, exprs_itemsOfAll otherwise]
  | .loop element index iterable body none span => by
    simp [exprs, items, Item.parts, Item.exprs, exprs_itemsOfAll body]
  | .loop element index iterable body (some otherwise) span => by
    simp [exprs, items, Item.parts, Item.exprs, exprs_itemsOfAll body, exprs_itemsOfAll otherwise]
  | .inclusion _ _ _ _ => by
    simp [exprs, items, Item.parts, Item.exprs, Expr.partsOfAll_eq_flatMap]

theorem exprs_itemsOfAll : ∀ nodes : List Node,
    exprsOfAll nodes = (itemsOfAll nodes).flatMap Item.parts
  | [] => rfl
  | node :: nodes => by
    simp [exprsOfAll, itemsOfAll, exprs_items node, exprs_itemsOfAll nodes]

theorem exprs_itemsOfArms : ∀ (arms : List Arm) (opener : Expr → Item),
    (∀ test, (opener test).parts = test.parts) →
      exprsOfArms arms = (itemsOfArms opener arms).flatMap Item.parts
  | [], _, _ => rfl
  | .mk test body :: arms, opener, hopener => by
    have harms := exprs_itemsOfArms arms .elseCondition fun test => by
      simp [Item.parts, Item.exprs]
    simp [exprsOfArms, itemsOfArms, exprs_itemsOfAll body, hopener, harms]

end

mutual

-- So are its numbers.
theorem numbers_items : ∀ node : Node, node.numbers = node.items.flatMap Item.numbers
  | .text _ _ => rfl
  | .interpolation _ _ _ | .inclusion _ _ _ _ => by simp [numbers, items, Item.numbers]
  | .conditional arms none span => by
    have harms := numbers_itemsOfArms arms (.condition · span.start) fun _ => rfl
    simp [numbers, items, Item.numbers, harms]
  | .conditional arms (some otherwise) span => by
    have harms := numbers_itemsOfArms arms (.condition · span.start) fun _ => rfl
    simp [numbers, items, Item.numbers, harms, numbers_itemsOfAll otherwise]
  | .loop element index iterable body none span => by
    simp [numbers, items, Item.numbers, numbers_itemsOfAll body]
  | .loop element index iterable body (some otherwise) span => by
    simp [numbers, items, Item.numbers, numbers_itemsOfAll body, numbers_itemsOfAll otherwise]

theorem numbers_itemsOfAll : ∀ nodes : List Node,
    numbersOfAll nodes = (itemsOfAll nodes).flatMap Item.numbers
  | [] => rfl
  | node :: nodes => by
    simp [itemsOfAll, numbers_items node, numbers_itemsOfAll nodes]

theorem numbers_itemsOfArms : ∀ (arms : List Arm) (opener : Expr → Item),
    (∀ test, (opener test).numbers = test.ids) →
      numbersOfArms arms = (itemsOfArms opener arms).flatMap Item.numbers
  | [], _, _ => rfl
  | .mk test body :: arms, opener, hopener => by
    have harms := numbers_itemsOfArms arms .elseCondition fun _ => rfl
    simp [itemsOfArms, numbers_itemsOfAll body, hopener, harms]

end

end Node

namespace Code

variable {α : Type} {held : List Nat} {reader : Reader α} {ids : α → List Nat}

-- Code is read with the numbers from the next free one on.
theorem Issues.runOn {slice : Slice} {n m : Nat} {a : α} (hreader : Issues [] reader ids)
    (h : reader.runOn slice n = .ok (a, m)) : List.range n ++ ids a = List.range m := by
  obtain ⟨ts, c, -, hrun, rfl⟩ := exists_run_of_runOn h
  exact hreader _ _ _ _ hrun (List.append_nil _)

end Code

namespace Template

variable {n m : Nat}

-- All that a token can be read to, and the next free number behind it.
inductive ReadTo (n : Nat) : List Item → Nat → Prop
  | nothing : ReadTo n [] n
  | text (content : String) (span : Span) : ReadTo n [.text content span] n
  | interpolation (raw : Bool) (span : Span) {slice : Slice} {value : Expr} {m : Nat}
    (code : Code.completeExpression.runOn slice n = .ok (value, m)) :
    ReadTo n [.interpolation raw value span] m
  | condition (start : Nat) {slice : Slice} {test : Expr} {m : Nat}
    (code : Code.completeExpression.runOn slice n = .ok (test, m)) :
    ReadTo n [.condition test start] m
  | elseCondition {slice : Slice} {test : Expr} {m : Nat}
    (code : Code.completeExpression.runOn slice n = .ok (test, m)) :
    ReadTo n [.elseCondition test] m
  | loop (start : Nat) {slice : Slice} {header : Binding × Option Binding × Expr} {m : Nat}
    (code : Code.loopHeader.runOn slice n = .ok (header, m)) : ReadTo n [.loop header start] m
  | inclusion (target : String) (span : Span) {slice : Slice} {args : List Argument} {m : Nat}
    (code : Code.inclusionArgs.runOn slice n = .ok (args, m)) :
    ReadTo n [.inclusion m target args span] (m + 1)
  | otherwise : ReadTo n [.otherwise] n
  | close (stop : Nat) : ReadTo n [.close stop] n

theorem readTo_of_readToken {t : Token} {row : List Item} (h : readToken n t = .ok (row, m)) :
    ReadTo n row m := by
  cases t with
  | text s =>
    obtain ⟨rfl, rfl⟩ := Prod.mk.inj (Except.ok.inj h)
    exact .text _ _
  | interpolation raw slice span =>
    obtain ⟨⟨value, k⟩, hrun, hrow⟩ := exists_of_map_eq_ok h
    obtain ⟨rfl, rfl⟩ := Prod.mk.inj hrow
    exact .interpolation raw span hrun
  | tag tag span =>
    cases tag with
    | condition slice =>
      obtain ⟨⟨test, k⟩, hrun, hrow⟩ := exists_of_map_eq_ok h
      obtain ⟨rfl, rfl⟩ := Prod.mk.inj hrow
      exact .condition span.start hrun
    | elseCondition slice =>
      obtain ⟨⟨test, k⟩, hrun, hrow⟩ := exists_of_map_eq_ok h
      obtain ⟨rfl, rfl⟩ := Prod.mk.inj hrow
      exact .elseCondition hrun
    | loop slice =>
      obtain ⟨⟨header, k⟩, hrun, hrow⟩ := exists_of_map_eq_ok h
      obtain ⟨rfl, rfl⟩ := Prod.mk.inj hrow
      exact .loop span.start hrun
    | inclusion target slice =>
      obtain ⟨⟨args, k⟩, hrun, hrow⟩ := exists_of_map_eq_ok h
      obtain ⟨rfl, rfl⟩ := Prod.mk.inj hrow
      exact .inclusion target span hrun
    | otherwise =>
      obtain ⟨rfl, rfl⟩ := Prod.mk.inj (Except.ok.inj h)
      exact .otherwise
    | close =>
      obtain ⟨rfl, rfl⟩ := Prod.mk.inj (Except.ok.inj h)
      exact .close _
    | comment | param =>
      obtain ⟨rfl, rfl⟩ := Prod.mk.inj (Except.ok.inj h)
      exact .nothing

theorem ReadTo.numbering {row : List Item} (h : ReadTo n row m) :
    List.range n ++ row.flatMap Item.numbering = List.range m := by
  cases h with
  | nothing | text | otherwise | close => exact List.append_nil _
  | interpolation raw span code | condition start code | elseCondition code =>
    rw [List.flatMap_singleton]
    exact Code.issues_completeExpression.runOn code
  | loop start code =>
    rw [List.flatMap_singleton]
    exact Code.issues_loopHeader.runOn code
  | inclusion target span code =>
    rw [List.flatMap_singleton, Item.numbering, ← List.append_assoc,
      Code.issues_inclusionArgs.runOn code]
    exact List.range_succ.symm

theorem numbering_of_readTokens {ts : List Token} {items : List Item}
    (h : readTokens n ts = .ok (items, m)) :
    List.range n ++ items.flatMap Item.numbering = List.range m := by
  induction ts generalizing n items with
  | nil =>
    obtain ⟨rfl, rfl⟩ := Prod.mk.inj (Except.ok.inj h)
    exact List.append_nil _
  | cons t ts ih =>
    obtain ⟨first, k, rest, hfirst, hrest, rfl⟩ := readTokens_cons h
    rw [List.flatMap_append, ← List.append_assoc, (readTo_of_readToken hfirst).numbering, ih hrest]

theorem numbering_of_readHeader {ts : List Token} {params : List ParamDecl}
    (h : readHeader n ts = .ok (params, m)) :
    List.range n ++ params.flatMap (fun decl => Code.defaultNumbering decl.default) =
      List.range m := by
  fun_induction readHeader n ts generalizing params m with
  | case1 n =>
    obtain ⟨rfl, rfl⟩ := Prod.mk.inj (Except.ok.inj h)
    exact List.append_nil _
  | case2 n ts slice span ih =>
    obtain ⟨decl, k, others, hparam, hrest, rfl⟩ := readHeader_cons h
    rw [List.flatMap_cons, ← List.append_assoc, Code.issues_paramDecl.runOn hparam, ih k hrest]
  | case3 n t ts hother ih => exact ih h

-- The defaults of the parameters.
def defaults (t : Template) : List Expr := t.params.filterMap ParamDecl.default

theorem flatMap_defaults (params : List ParamDecl) :
    params.flatMap (fun decl => Code.defaultNumbering decl.default) =
      (params.filterMap ParamDecl.default).flatMap Expr.numbering := by
  induction params with
  | nil => rfl
  | cons decl params ih =>
    rw [List.flatMap_cons, ih]
    cases hdefault : decl.default <;> simp [hdefault]

-- All numbers of a template, in the order in which they are given.
def numbering (t : Template) : List Nat :=
  t.defaults.flatMap Expr.numbering ++ (Node.itemsOfAll t.body).flatMap Item.numbering

section Parsed

variable {source : String} {trimLines : Bool} {t : Template}

theorem numbering_of_parse (h : parse source trimLines = .ok t) :
    t.numbering = List.range t.idCount := by
  obtain ⟨ts, n, items, hheader, htokens, hitems⟩ := exists_readings_of_parse h
  have hdefaults : t.defaults.flatMap Expr.numbering = List.range n := by
    rw [defaults, ← flatMap_defaults, ← numbering_of_readHeader hheader]
    rfl
  rw [numbering, hitems, flatMap_mergeTexts Item.numbering fun _ _ => rfl, hdefaults]
  exact numbering_of_readTokens htokens

-- All expressions, those in the defaults of the parameters included.
def allExprs (t : Template) : List Expr := t.defaults.flatMap Expr.parts ++ t.exprs

-- All numbers, those of the defaults included.
def allNumbers (t : Template) : List Nat := t.defaults.flatMap Expr.ids ++ t.numbers

theorem numbering_perm (t : Template) : t.numbering.Perm t.allNumbers := by
  rw [allNumbers, numbers, Node.numbers_itemsOfAll]
  exact (List.Perm.flatMap_left _ fun e _ => e.numbering_perm).append
    (List.Perm.flatMap_left _ fun item _ => item.numbering_perm)

theorem numbering_sublist {e : Expr} (h : e ∈ t.allExprs) : e.numbering.Sublist t.numbering := by
  rw [allExprs, exprs, Node.exprs_itemsOfAll, List.mem_append, List.mem_flatMap,
    List.mem_flatMap] at h
  rcases h with ⟨root, hroot, hpart⟩ | ⟨item, hitem, hpart⟩
  · refine ((Expr.numbering_infix hpart).trans ?_).sublist.trans (List.sublist_append_left _ _)
    exact List.infix_of_mem_flatten (List.mem_map_of_mem hroot)
  · refine ((Item.numbering_sublist hpart).trans ?_).trans (List.sublist_append_right _ _)
    exact (List.infix_of_mem_flatten (List.mem_map_of_mem hitem)).sublist

-- The numbers in a template that was read are those below its count, each given once, and an
-- expression has a greater one than the expressions in it.
theorem numbers_dense (h : parse source trimLines = .ok t) :
    t.allNumbers.Perm (List.range t.idCount) ∧
      ∀ e ∈ t.allExprs, ∀ part ∈ e.parts.tail, part.id < e.id := by
  have hnumbering := numbering_of_parse h
  refine ⟨hnumbering ▸ t.numbering_perm.symm, fun e he part hpart => ?_⟩
  have hgrows : e.numbering.Pairwise (· < ·) :=
    (hnumbering ▸ List.pairwise_lt_range).sublist (numbering_sublist he)
  exact Expr.id_lt_of_pairwise hgrows hpart

-- A default, a loop over it with an index, a product of a sum in parentheses and the least integer,
-- and an inclusion.
def numbered : String :=
  "@param list<int> s=[1]\n@for(x,i in s)$\x7b(x + i) * -9223372036854775808\x7d@template.a(x)@end"

theorem numbers_dense_numbered : ∃ t, parse numbered true = .ok t ∧ t.idCount = 12 ∧
    t.allNumbers.Perm (List.range 12) ∧
      ∀ e ∈ t.allExprs, ∀ part ∈ e.parts.tail, part.id < e.id := by
  have hany : (parse numbered true).toOption.any fun t => t.idCount = 12 := by
    decide +kernel
  obtain ⟨t, ht, hdecided⟩ := (Option.any_eq_true _ _).mp hany
  have hcount : t.idCount = 12 := of_decide_eq_true hdecided
  obtain ⟨hperm, hparts⟩ := numbers_dense (eq_ok_of_toOption ht)
  exact ⟨t, eq_ok_of_toOption ht, hcount, hcount ▸ hperm, hparts⟩

-- The numbers in the body are all different, and below the count.
theorem issued_of_parse (h : parse source trimLines = .ok t) : Issued t.idCount t.numbers := by
  have hperm : t.allNumbers.Perm (List.range t.idCount) :=
    numbering_of_parse h ▸ t.numbering_perm.symm
  have hbody : t.numbers.Sublist t.allNumbers := List.sublist_append_right _ _
  exact ⟨(hperm.nodup_iff.mpr List.nodup_range).sublist hbody, fun i hi =>
    List.mem_range.mp (hperm.mem_iff.mp (hbody.subset hi))⟩

-- The expressions of a body that was read have different numbers.
theorem nodup_of_parse (h : parse source trimLines = .ok t) : (t.exprs.map Expr.id).Nodup :=
  (issued_of_parse h).nodup.sublist (Node.ids_sublist_numbersOfAll t.body)

end Parsed

end Template

end Stencil
