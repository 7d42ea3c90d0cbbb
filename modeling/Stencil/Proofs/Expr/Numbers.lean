import Mathlib.Data.List.Nodup
import Mathlib.Data.List.Perm.Basic
import Stencil.Proofs.Effects
import Stencil.Template.Header

/-!
Reading an expression numbers it and all expressions in it, without gaps and each behind its parts.
-/

namespace Stencil

mutual

-- An expression and all expressions in it, each before its parts.
def Expr.parts : Expr → List Expr
  | .literal m value => [.literal m value]
  | .name m ident => [.name m ident]
  | .list m items => .list m items :: Expr.partsOfAll items
  | .member m object field => .member m object field :: object.parts
  | .call m object method args =>
    .call m object method args :: object.parts ++ Expr.partsOfAll args
  | .unary m op operand => .unary m op operand :: operand.parts
  | .binary m op lhs rhs => .binary m op lhs rhs :: lhs.parts ++ rhs.parts

def Expr.partsOfAll : List Expr → List Expr
  | [] => []
  | e :: es => e.parts ++ Expr.partsOfAll es

end

-- The numbers of an expression and of all expressions in it.
def Expr.ids (e : Expr) : List Nat := e.parts.map Expr.id

def Expr.idsOfAll (es : List Expr) : List Nat := (Expr.partsOfAll es).map Expr.id

-- Numbers below the next free one, no two the same.
structure Issued (next : Nat) (ids : List Nat) : Prop where
  nodup : ids.Nodup
  lt : ∀ i ∈ ids, i < next

mutual

-- The numbers of an expression and of all expressions in it, each behind those of its parts.
def Expr.numbering : Expr → List Nat
  | .literal m _ | .name m _ => [m.id]
  | .list m items => Expr.numberingOfAll items ++ [m.id]
  | .member m object _ => object.numbering ++ [m.id]
  | .call m object _ args => object.numbering ++ Expr.numberingOfAll args ++ [m.id]
  | .unary m _ operand => operand.numbering ++ [m.id]
  | .binary m _ lhs rhs => lhs.numbering ++ rhs.numbering ++ [m.id]

def Expr.numberingOfAll : List Expr → List Nat
  | [] => []
  | e :: es => e.numbering ++ Expr.numberingOfAll es

end

-- A reader gives the numbers from the next free one on, in the order in which they stand in what it
-- reads. Those in `held` were the last to be given before it.
def Code.Issues {α : Type} (held : List Nat) (reader : Code.Reader α) (ids : α → List Nat) : Prop :=
  ∀ (c : Code.Cursor) (a : α) (c' : Code.Cursor) (others : List Nat), reader.run c = .ok (a, c') →
    others ++ held = List.range c.nextId → others ++ ids a = List.range c'.nextId

namespace Code

namespace Issues

variable {α β : Type} {held : List Nat} {reader : Reader α} {ids : α → List Nat}

theorem pure {a : α} (h : held = ids a) : Issues held (Pure.pure a) ids := by
  intro c b c' others hrun hheld
  obtain ⟨rfl, rfl⟩ := Prod.mk.inj (Except.ok.inj hrun)
  exact h ▸ hheld

theorem throw {fault : Fault} : Issues held (MonadExcept.throw fault) ids := by
  intro c b c' others hrun
  cases hrun

theorem bind {f : α → Reader β} {ids' : β → List Nat} (hreader : Issues held reader ids)
    (hf : ∀ a, Issues (ids a) (f a) ids') : Issues held (reader >>= f) ids' := by
  intro c b c' others hrun hheld
  obtain ⟨a, between, hfirst, hrest⟩ := exists_of_run_bind hrun
  exact hf a between b c' others hrest (hreader c a between others hfirst hheld)

theorem map {f : α → β} {ids' : β → List Nat} (h : Issues held reader ids)
    (hids : ∀ a, ids a = ids' (f a)) : Issues held (f <$> reader) ids' := by
  rw [← bind_pure_comp]
  exact h.bind fun a => .pure (hids a)

theorem get : Issues held MonadState.get fun _ => held := by
  intro c a c' others hrun hheld
  obtain ⟨rfl, rfl⟩ := Prod.mk.inj (Except.ok.inj hrun)
  exact hheld

-- What more was given before stands in front.
theorem after (h : Issues [] reader ids) (held : List Nat) :
    Issues held reader fun a => held ++ ids a := by
  intro c a c' others hrun hheld
  have hids := h c a c' (others ++ held) hrun (by simpa using hheld)
  simpa using hids

-- A reader that gives no numbers.
theorem keep (h : Issues [] reader fun _ => []) (held : List Nat) :
    Issues held reader fun _ => held := by
  simpa using h.after held

end Issues

variable {held : List Nat}

-- Readers of parts that are no expressions.
namespace Reader

theorem issues_next? : Issues [] next? fun _ => [] := .bind .get fun _ => .pure rfl

theorem issues_here : Issues [] here fun _ => [] := .bind .get fun _ => .pure rfl

theorem issues_skip : Issues [] skip fun _ => [] := by
  intro s a s' others hrun hheld
  obtain ⟨-, rfl⟩ := Prod.mk.inj (Except.ok.inj hrun)
  exact hheld

theorem issues_fail {α : Type} {defect : Defect} {ids : α → List Nat} :
    Issues held (fail defect) ids :=
  .bind (issues_here.keep held) fun _ => .throw

theorem issues_fail_bind {α β : Type} {defect : Defect} {f : α → Reader β} {ids : β → List Nat} :
    Issues held (fail defect >>= f) ids := by
  intro s a s' others hrun
  cases hrun

theorem issues_unexpected {α : Type} {expected : String} {ids : α → List Nat} :
    Issues held (unexpected expected) ids :=
  .bind (issues_next?.keep held) fun _ => issues_fail

theorem issues_atSymbol {s : Symbol} : Issues [] (atSymbol s) fun _ => [] := by
  refine .bind issues_next? fun token => ?_
  split <;> exact .pure rfl

theorem issues_accept {s : Symbol} : Issues [] (accept s) fun _ => [] := by
  refine .bind issues_atSymbol fun found => ?_
  split
  · exact .bind issues_skip fun _ => .pure rfl
  · exact .pure rfl

theorem issues_expect {s : Symbol} : Issues [] (expect s) fun _ => [] := by
  refine .bind issues_atSymbol fun found => ?_
  split
  · exact .bind issues_here fun _ => .bind issues_skip fun _ => .pure rfl
  · exact issues_unexpected

theorem issues_expectIdent {what : String} : Issues [] (expectIdent what) fun _ => [] := by
  refine .bind issues_next? fun token => ?_
  split
  · exact .bind issues_here fun _ => .bind issues_skip fun _ => .pure rfl
  · exact issues_unexpected

theorem issues_expectEnd : Issues [] expectEnd fun _ => [] := by
  refine .bind issues_next? fun token => ?_
  split
  · exact issues_unexpected
  · exact .pure rfl

theorem issues_ensureNotEmpty : Issues [] ensureNotEmpty fun _ => [] := by
  refine .bind issues_next? fun token => ?_
  split
  · exact issues_fail
  · exact .pure rfl

-- The one reader that hands out a number.
theorem issues_freshId : Issues held freshId fun i => held ++ [i] := by
  intro c i c' others hrun hheld
  obtain ⟨rfl, rfl⟩ := Prod.mk.inj (Except.ok.inj hrun)
  rw [← List.append_assoc, hheld]
  exact List.range_succ.symm

end Reader

open Reader

theorem issues_tokenCount : Issues [] tokenCount fun _ => [] := .bind .get fun _ => .pure rfl

theorem issues_nextOperator? {looseness : Nat} :
    Issues [] (nextOperator? looseness) fun _ => [] := by
  refine .bind issues_next? fun token => ?_
  split <;> exact .pure rfl

theorem issues_leastIntLiteral? : Issues [] leastIntLiteral? fun _ => [] := by
  refine .bind .get fun cursor => ?_
  split
  · split <;> exact .pure rfl
  · exact .pure rfl

-- The numbers that a reader of expressions gives to what it reads.
abbrev Measured.numbering (e : Measured) : List Nat := e.expr.numbering

abbrev Numbers (reader : Reader Measured) : Prop := Issues [] reader Measured.numbering

-- A node gets the number behind those of its children.
theorem issues_node {span : Span} {children : List Measured} {make : Mark → Expr}
    (h : ∀ i, (make ⟨i, span⟩).numbering = held ++ [i]) :
    Issues held (node span children make) Measured.numbering := by
  unfold node
  simp only
  split
  · exact .throw
  · exact .bind issues_freshId fun i => .pure (h i).symm

theorem issues_literal {span : Span} {value : Literal} : Numbers (literal span value) :=
  .bind issues_skip fun _ => issues_node fun _ => rfl

theorem issues_chain {operand : Reader Measured} (hoperand : Numbers operand) (looseness : Nat) :
    ∀ (fuel : Nat) (lhs : Measured),
      Issues lhs.numbering (chain operand looseness fuel lhs) Measured.numbering
  | 0, lhs => .pure rfl
  | fuel + 1, lhs => by
    refine .bind (issues_nextOperator?.keep _) fun op => ?_
    split
    · exact .pure rfl
    · refine .bind (issues_skip.keep _) fun _ => .bind (hoperand.after _) fun rhs => ?_
      refine .bind (issues_node fun i => ?_) fun whole => issues_chain hoperand looseness fuel whole
      simp [Expr.numbering]

theorem issues_binary {operand : Reader Measured} (hoperand : Numbers operand) :
    ∀ looseness : Nat, Numbers (binary operand looseness)
  | 0 => hoperand
  | looseness + 1 => by
    have hdeeper := issues_binary hoperand looseness
    refine .bind hdeeper fun lhs => .bind (issues_tokenCount.keep _) fun count => ?_
    exact issues_chain hdeeper (looseness + 1) count lhs

abbrev numberingOfAll (es : List Measured) : List Nat := Expr.numberingOfAll (es.map (·.expr))

theorem numberingOfAll_singleton (e : Measured) : numberingOfAll [e] = e.numbering :=
  List.append_nil _

theorem issues_commaSeparated {item : Reader Measured} (hitem : Numbers item) :
    ∀ fuel : Nat, Issues [] (commaSeparated item fuel) numberingOfAll
  | 0 => .bind hitem fun e => .pure (numberingOfAll_singleton e).symm
  | fuel + 1 => by
    refine .bind hitem fun first => .bind (issues_accept.keep _) fun comma => ?_
    split
    · refine .bind ((issues_commaSeparated hitem fuel).after _) fun rest => ?_
      exact .pure rfl
    · exact .pure (numberingOfAll_singleton first).symm

theorem issues_items {item : Reader Measured} (hitem : Numbers item) (close : Symbol) :
    Issues [] (items item close) numberingOfAll := by
  refine .bind issues_atSymbol fun found => ?_
  split
  · exact .pure rfl
  · exact .bind issues_tokenCount fun count => issues_commaSeparated hitem count

theorem issues_primary {expr : Reader Measured} (hexpr : Numbers expr) :
    Numbers (primary expr) := by
  refine .bind issues_here fun span => .bind issues_next? fun token => ?_
  split
  · split
    · exact issues_literal
    · exact issues_fail
  · exact issues_literal
  · exact issues_literal
  · exact issues_literal
  · exact issues_literal
  · exact issues_literal
  · exact .bind issues_skip fun _ => issues_node fun _ => rfl
  · refine .bind issues_skip fun _ => .bind hexpr fun inner => ?_
    exact .bind (issues_expect.keep _) fun _ => .pure rfl
  · refine .bind issues_skip fun _ => .bind (issues_items hexpr _) fun es => ?_
    exact .bind (issues_expect.keep _) fun _ => issues_node fun _ => rfl
  · exact issues_unexpected

theorem issues_memberChain {expr : Reader Measured} (hexpr : Numbers expr) :
    ∀ (fuel : Nat) (object : Measured),
      Issues object.numbering (memberChain expr fuel object) Measured.numbering
  | 0, object => .pure rfl
  | fuel + 1, object => by
    refine .bind (issues_accept.keep _) fun dot => ?_
    split
    · refine .bind (issues_expectIdent.keep _) fun (name, nameSpan) => ?_
      refine .bind (issues_accept.keep _) fun paren => ?_
      split
      · refine .bind ((issues_items hexpr _).after _) fun args => ?_
        refine .bind (issues_expect.keep _) fun close => ?_
        refine .bind (issues_node fun i => ?_) fun whole => issues_memberChain hexpr fuel whole
        simp [Expr.numbering]
      · refine .bind (issues_node fun i => ?_) fun whole => issues_memberChain hexpr fuel whole
        simp [Expr.numbering]
    · exact .pure rfl

theorem issues_postfixed {expr : Reader Measured} (hexpr : Numbers expr) :
    Numbers (postfixed expr) := by
  refine .bind (issues_primary hexpr) fun object => ?_
  exact .bind (issues_tokenCount.keep _) fun count => issues_memberChain hexpr count object

theorem issues_signed {deeper : Reader Measured} (hdeeper : Numbers deeper) :
    Numbers (signed deeper) := by
  refine .bind issues_here fun sign => .bind issues_accept fun bang => ?_
  split
  · exact .bind hdeeper fun operand => issues_node fun _ => rfl
  · refine .bind issues_accept fun minus => ?_
    split
    · refine .bind issues_leastIntLiteral? fun least => ?_
      split
      · exact issues_literal
      · exact .bind hdeeper fun operand => issues_node fun _ => rfl
    · exact issues_postfixed (issues_binary hdeeper loosest)

theorem issues_operand : ∀ depth : Nat, Numbers (operand depth)
  | 0 => issues_fail
  | depth + 1 => issues_signed (issues_operand depth)

theorem issues_expression : Issues [] expression Expr.numbering :=
  .bind (issues_binary (issues_operand maxNesting) loosest) fun _ => .pure rfl

theorem issues_completeExpression : Issues [] completeExpression Expr.numbering := by
  refine .bind issues_ensureNotEmpty fun _ => .bind issues_expression fun e => ?_
  exact .bind (issues_expectEnd.keep _) fun _ => .pure rfl

theorem issues_typeOver {deeper : Reader TypeExpr}
    (hdeeper : Issues [] deeper fun _ => []) :
    Issues [] (typeOver deeper) fun _ => [] := by
  refine .bind issues_expectIdent fun ident => ?_
  dsimp only
  split
  · refine .bind issues_accept fun less => ?_
    split
    · refine .bind hdeeper fun element => ?_
      exact .bind issues_expect fun _ => .pure rfl
    · exact .pure rfl
  · exact .pure rfl

theorem issues_typeAt : ∀ depth : Nat, Issues [] (typeAt depth) fun _ => []
  | 0 => issues_typeOver issues_fail
  | depth + 1 => issues_typeOver (issues_typeAt depth)

end Code

namespace Expr

theorem partsOfAll_eq_flatMap (es : List Expr) : partsOfAll es = es.flatMap parts := by
  induction es with
  | nil => rfl
  | cons e es ih => simp [partsOfAll, ih]

-- The expressions that an expression is made of, in source order.
def operands : Expr → List Expr
  | .literal _ _ | .name _ _ => []
  | .list _ items => items
  | .member _ object _ => [object]
  | .call _ object _ args => object :: args
  | .unary _ _ operand => [operand]
  | .binary _ _ lhs rhs => [lhs, rhs]

theorem parts_eq (e : Expr) : e.parts = e :: e.operands.flatMap parts := by
  cases e <;> simp [parts, operands, partsOfAll_eq_flatMap]

theorem numberingOfAll_eq_flatMap (es : List Expr) : numberingOfAll es = es.flatMap numbering := by
  induction es with
  | nil => rfl
  | cons e es ih => simp [numberingOfAll, ih]

theorem numbering_eq (e : Expr) : e.numbering = e.operands.flatMap numbering ++ [e.id] := by
  cases e <;> simp [numbering, operands, id, mark, numberingOfAll_eq_flatMap]

mutual

-- What holds of an expression where it holds of its operands holds of all expressions.
theorem of_operands {P : Expr → Prop} (step : ∀ e, (∀ o ∈ e.operands, P o) → P e) : ∀ e : Expr, P e
  | .literal _ _ => step _ (by simp [operands])
  | .name _ _ => step _ (by simp [operands])
  | .list _ items => step _ (of_operandsAll step items)
  | .member _ object _ => step _ (by simpa [operands] using of_operands step object)
  | .call _ object _ args =>
    step _ (List.forall_mem_cons.mpr ⟨of_operands step object, of_operandsAll step args⟩)
  | .unary _ _ operand => step _ (by simpa [operands] using of_operands step operand)
  | .binary _ _ lhs rhs =>
    step _ (by simpa [operands] using And.intro (of_operands step lhs) (of_operands step rhs))

theorem of_operandsAll {P : Expr → Prop} (step : ∀ e, (∀ o ∈ e.operands, P o) → P e) :
    ∀ es : List Expr, ∀ e ∈ es, P e
  | [] => by simp
  | e :: es => List.forall_mem_cons.mpr ⟨of_operands step e, of_operandsAll step es⟩

end

-- The numbers of an expression and of its parts, in one order or the other.
theorem numbering_perm (e : Expr) : e.numbering.Perm e.ids := by
  induction e using of_operands with
  | step e ih =>
    rw [numbering_eq, ids, parts_eq, List.map_cons, List.map_flatMap]
    exact (List.perm_append_singleton _ _).trans ((List.Perm.flatMap_left _ ih).cons _)

theorem numberingOfAll_perm (es : List Expr) : (numberingOfAll es).Perm (idsOfAll es) := by
  rw [numberingOfAll_eq_flatMap, idsOfAll, partsOfAll_eq_flatMap, List.map_flatMap]
  exact List.Perm.flatMap_left _ fun e _ => numbering_perm e

-- The numbers of a part stand together among those of the whole.
theorem numbering_infix {e part : Expr} (h : part ∈ e.parts) : part.numbering <:+: e.numbering := by
  induction e using of_operands with
  | step e ih =>
    rw [parts_eq, List.mem_cons, List.mem_flatMap] at h
    rcases h with rfl | ⟨operand, hoperand, hpart⟩
    · exact List.infix_refl _
    · have hwhole : operand.numbering <:+: e.operands.flatMap numbering :=
        List.infix_of_mem_flatten (List.mem_map_of_mem hoperand)
      rw [numbering_eq e]
      exact ((ih operand hoperand hpart).trans hwhole).trans (List.prefix_append _ _).isInfix

-- Where numbers only grow, an expression has a greater one than the expressions in it.
theorem id_lt_of_pairwise {e part : Expr} (h : e.numbering.Pairwise (· < ·))
    (hpart : part ∈ e.parts.tail) : part.id < e.id := by
  rw [numbering_eq] at h
  obtain ⟨-, -, hlast⟩ := List.pairwise_append.mp h
  rw [parts_eq, List.tail_cons, List.mem_flatMap] at hpart
  obtain ⟨operand, hoperand, hpart⟩ := hpart
  have hmem : part.id ∈ operand.numbering :=
    (numbering_perm operand).mem_iff.mpr (List.mem_map_of_mem hpart)
  exact hlast _ (List.mem_flatMap.mpr ⟨operand, hoperand, hmem⟩) _ List.mem_cons_self

end Expr

end Stencil
