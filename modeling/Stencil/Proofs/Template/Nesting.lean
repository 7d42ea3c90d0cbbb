import Stencil.Proofs.Expr.Bookkeeping
import Stencil.Proofs.Template.Numbering

/-!
How deep a template that was read is nested: its expressions, the types of its parameters and the
blocks of its body. Reading it never took more operands or types inside one another than that.
-/

namespace Stencil

open Markup Template

-- How many lists of lists a type is.
def TypeExpr.levels : TypeExpr → Nat
  | named _ => 0
  | list element => element.levels + 1

mutual

-- How many blocks are inside one another in a node.
def Node.nesting : Node → Nat
  | .text _ _ | .interpolation _ _ _ | .inclusion _ _ _ _ => 0
  | .conditional arms none _ => Node.nestingOfArms arms + 1
  | .conditional arms (some otherwise) _ =>
    max (Node.nestingOfArms arms) (Node.nestingOfAll otherwise) + 1
  | .loop _ _ _ body none _ => Node.nestingOfAll body + 1
  | .loop _ _ _ body (some otherwise) _ =>
    max (Node.nestingOfAll body) (Node.nestingOfAll otherwise) + 1

def Node.nestingOfAll : List Node → Nat
  | [] => 0
  | node :: nodes => max node.nesting (Node.nestingOfAll nodes)

def Node.nestingOfArms : List Arm → Nat
  | [] => 0
  | .mk _ body :: arms => max (Node.nestingOfAll body) (Node.nestingOfArms arms)

end

namespace Node

theorem nesting_conditional (arms : List Arm) (otherwise : Option (List Node)) (span : Span) :
    (conditional arms otherwise span).nesting =
      max (nestingOfArms arms) (nestingOfAll (otherwise.getD [])) + 1 := by
  cases otherwise <;> simp [nesting, nestingOfAll]

theorem nesting_loop (element : Binding) (index : Option Binding) (iterable : Expr)
    (body : List Node) (otherwise : Option (List Node)) (span : Span) :
    (loop element index iterable body otherwise span).nesting =
      max (nestingOfAll body) (nestingOfAll (otherwise.getD [])) + 1 := by
  cases otherwise <;> simp [nesting, nestingOfAll]

end Node

namespace Code

theorem yields_fail {α : Type} {defect : Defect} {post : α → Prop} :
    Yields (Reader.fail defect : Reader α) post :=
  .behind fun _ => .throw

theorem yields_fail_bind {α β : Type} {defect : Defect} {f : α → Reader β} {post : β → Prop} :
    Yields (Reader.fail defect >>= f) post := by
  intro c b c' hrun
  cases hrun

theorem yields_typeOver {deeper : Reader TypeExpr} {depth : Nat}
    (hdeeper : Yields deeper fun type => type.levels < depth) :
    Yields (typeOver deeper) fun type => type.levels ≤ depth := by
  refine .behind fun (name, _) => ?_
  dsimp only
  split
  · refine .behind fun less => ?_
    split
    · exact .bind hdeeper fun element hlevels => .behind fun _ => .pure hlevels
    · exact .pure (Nat.zero_le _)
  · exact .pure (Nat.zero_le _)

theorem yields_typeAt : ∀ depth : Nat, Yields (typeAt depth) fun type => type.levels ≤ depth
  | 0 => yields_typeOver yields_fail
  | depth + 1 =>
    yields_typeOver fun s type s' hrun => Nat.lt_succ_of_le (yields_typeAt depth s type s' hrun)

theorem yields_paramDecl (span : Span) :
    Yields (paramDecl span) fun decl => decl.type.levels ≤ maxNesting := by
  refine .behind fun first => ?_
  have hend (decl : ParamDecl) (hlevels : decl.type.levels ≤ maxNesting) : Yields (do
      if (← Reader.next?).isSome then Reader.fail .invalidParam
      return decl : Reader ParamDecl) fun decl => decl.type.levels ≤ maxNesting := by
    refine .behind fun token => ?_
    dsimp only
    split
    · exact yields_fail_bind
    · exact .pure hlevels
  dsimp only
  split
  · exact yields_fail_bind
  · refine .bind (yields_typeAt maxNesting) fun type hlevels => .behind fun name => ?_
    split
    · exact yields_fail
    · refine .behind fun _ => .behind fun assign => ?_
      split
      · exact .behind fun _ => .behind fun default => hend _ hlevels
      · exact .behind fun default => hend _ hlevels

end Code

namespace Template

namespace Builder

-- A reader of bodies in which so many blocks may stand inside one another.
abbrev NestsTo (depth : Nat) (body : BodyReader) : Prop :=
  Yields body fun read => Node.nestingOfAll read.1 ≤ depth

theorem nesting_consText (s : Slice) (nodes : List Node) :
    Node.nestingOfAll (consText s nodes) = Node.nestingOfAll nodes := by
  unfold consText
  split <;> simp [Node.nestingOfAll, Node.nesting]

section

variable {depth : Nat} {body : BodyReader}

theorem yields_arms (hbody : NestsTo depth body) (opener : Span) :
    ∀ (fuel : Nat) (test : Slice), Yields (arms body opener fuel test) fun read =>
      Node.nestingOfArms read.1 ≤ depth ∧ Node.nestingOfAll (read.2.1.getD []) ≤ depth
  | 0, _ => .throw
  | fuel + 1, test => by
    refine .behind fun test => .bind hbody fun (nodes, stop) hnodes => ?_
    cases stop with
    | elseCondition next span =>
      refine .bind (yields_arms hbody opener fuel next) fun (rest, otherwise, span) hrest => ?_
      exact .pure ⟨Nat.max_le.mpr ⟨hnodes, hrest.1⟩, hrest.2⟩
    | otherwise span =>
      refine .bind hbody fun (otherwise, stop) hotherwise => .behind fun span => ?_
      exact .pure ⟨Nat.max_le.mpr ⟨hnodes, Nat.zero_le _⟩, hotherwise⟩
    | endOfSource | close =>
      refine .behind fun span => ?_
      exact .pure ⟨Nat.max_le.mpr ⟨hnodes, Nat.zero_le _⟩, Nat.zero_le _⟩

theorem yields_conditional (hbody : NestsTo depth body) (opener : Span) (test : Slice) :
    Yields (conditional body opener test) fun node => node.nesting ≤ depth + 1 := by
  refine .behind fun count => ?_
  refine .bind (yields_arms hbody opener _ test) fun (arms, otherwise, span) hread => .pure ?_
  rw [Node.nesting_conditional]
  exact Nat.succ_le_succ (Nat.max_le.mpr hread)

theorem yields_loop (hbody : NestsTo depth body) (opener : Span) (header : Slice) :
    Yields (loop body opener header) fun node => node.nesting ≤ depth + 1 := by
  refine .behind fun (element, index, iterable) => .bind hbody fun (nodes, stop) hnodes => ?_
  cases stop with
  | otherwise span =>
    refine .bind hbody fun (otherwise, stop) hotherwise => .behind fun span => .pure ?_
    rw [Node.nesting_loop]
    exact Nat.succ_le_succ (Nat.max_le.mpr ⟨hnodes, hotherwise⟩)
  | endOfSource | close | elseCondition =>
    refine .behind fun span => .pure ?_
    rw [Node.nesting_loop]
    exact Nat.succ_le_succ (Nat.max_le.mpr ⟨hnodes, Nat.zero_le _⟩)

end

-- A node in front of what follows.
theorem yields_followed {depth : Nat} {following : BodyReader} (hrest : NestsTo depth following)
    {node : Node} (hnode : node.nesting ≤ depth) :
    NestsTo depth (do
      let (rest, stop) ← following
      return (node :: rest, stop)) :=
  .bind hrest fun (_, _) hrest => .pure (Nat.max_le.mpr ⟨hnode, hrest⟩)

theorem yields_nodes {inner : Option BodyReader} {depth : Nat}
    (hinner : ∀ body ∈ inner, ∃ less < depth, NestsTo less body) :
    ∀ fuel : Nat, NestsTo depth (nodes inner fuel)
  | 0 => .pure (Nat.zero_le _)
  | fuel + 1 => by
    have hrest := yields_nodes hinner fuel
    refine .behind fun token => ?_
    split
    · exact .pure (Nat.zero_le _)
    · refine .bind hrest fun _ hrest => .pure ?_
      exact (nesting_consText _ _).trans_le hrest
    · exact .behind fun value => yields_followed hrest (Nat.zero_le _)
    · split
      · exact hrest
      · exact .throw
      · split
        · exact .throw
        · next body =>
          obtain ⟨less, hless, hbody⟩ := hinner body rfl
          exact .bind (yields_conditional hbody _ _) fun node hnode =>
            yields_followed hrest (Nat.le_trans hnode hless)
      · split
        · exact .throw
        · next body =>
          obtain ⟨less, hless, hbody⟩ := hinner body rfl
          exact .bind (yields_loop hbody _ _) fun node hnode =>
            yields_followed hrest (Nat.le_trans hnode hless)
      · exact .behind fun args => .behind fun id => yields_followed hrest (Nat.zero_le _)
      · exact .pure (Nat.zero_le _)
      · exact .pure (Nat.zero_le _)
      · exact .pure (Nat.zero_le _)

theorem yields_bodyAt : ∀ depth : Nat, NestsTo depth (bodyAt depth)
  | 0 => by
    have hinner : ∀ body ∈ (none : Option BodyReader), ∃ less < 0, NestsTo less body := by
      intro body hbody
      cases hbody
    exact .behind fun _ => yields_nodes hinner _
  | depth + 1 => by
    have hinner : ∀ body ∈ some (bodyAt depth), ∃ less < depth + 1, NestsTo less body := by
      rintro body ⟨⟩
      exact ⟨depth, Nat.lt_succ_self _, yields_bodyAt depth⟩
    exact .behind fun _ => yields_nodes hinner _

theorem yields_wholeBody : Yields wholeBody fun nodes => Node.nestingOfAll nodes ≤ maxNesting := by
  refine .bind (yields_bodyAt maxNesting) fun (nodes, stop) hnodes => ?_
  cases stop with
  | endOfSource => exact .pure hnodes
  | elseCondition | otherwise | close => exact .throw

theorem yields_wholeTemplate (params : List (Slice × Span)) :
    Yields (wholeTemplate params) fun t => Node.nestingOfAll t.body ≤ maxNesting :=
  .behind fun _ => .bind yields_wholeBody fun _ hnodes => .behind fun _ => .pure hnodes

end Builder

section Heights

variable {n m : Nat}

-- A reader whose heights are in the books makes no expression too tall.
theorem height_of_runOn {α : Type} {keeper : Code.Keeper α} {reader : Code.Reader α}
    {exprs : α → List Expr} {slice : Slice} {a : α} (h : Code.Accords keeper reader exprs)
    (hread : reader.runOn slice n = .ok (a, m)) : ∀ e ∈ exprs a, e.height ≤ maxNesting := by
  obtain ⟨ts, c, -, hrun, -⟩ := Code.exists_run_of_runOn hread
  obtain ⟨b, -, -, -, hentered⟩ := h.read hrun
  exact fun e he => (hentered e he).shallow

-- Books for which nothing can be read beyond what is allowed.
theorem booksKept_least : Code.BooksKept (throw ⟨.nestingTooDeep, 0⟩) (throw ⟨.nestingTooDeep, 0⟩)
    (maxNesting + 1) :=
  Code.booksKept (Nat.lt_succ_self _) _ _

theorem ReadTo.height_le {row : List Item} (h : ReadTo n row m) :
    ∀ item ∈ row, ∀ e ∈ item.exprs, e.height ≤ maxNesting := by
  have hbooks := booksKept_least
  cases h with
  | nothing => exact List.forall_mem_nil _
  | text | otherwise | close => exact List.forall_mem_singleton.mpr (List.forall_mem_nil _)
  | interpolation raw span code | condition start code | elseCondition code =>
    have hheight := height_of_runOn hbooks.expression code
    exact List.forall_mem_singleton.mpr hheight
  | loop start code =>
    have hheight := height_of_runOn hbooks.header code
    exact List.forall_mem_singleton.mpr hheight
  | inclusion target span code =>
    have hheight := height_of_runOn hbooks.args code
    exact List.forall_mem_singleton.mpr hheight

theorem height_of_readTokens {ts : List Token} {items : List Item}
    (h : readTokens n ts = .ok (items, m)) :
    ∀ item ∈ items, ∀ e ∈ item.exprs, e.height ≤ maxNesting := by
  induction ts generalizing n items with
  | nil =>
    obtain ⟨rfl, -⟩ := Prod.mk.inj (Except.ok.inj h)
    exact List.forall_mem_nil _
  | cons t ts ih =>
    obtain ⟨first, k, rest, hfirst, hrest, rfl⟩ := readTokens_cons h
    exact List.forall_mem_append.mpr ⟨(readTo_of_readToken hfirst).height_le, ih hrest⟩

-- Declarations, with their types and their defaults.
theorem shallow_of_readHeader {ts : List Token} {params : List ParamDecl}
    (h : readHeader n ts = .ok (params, m)) : ∀ p ∈ params,
      p.type.levels ≤ maxNesting ∧ ∀ e ∈ p.default, e.height ≤ maxNesting := by
  fun_induction readHeader n ts generalizing params m with
  | case1 n =>
    obtain ⟨rfl, -⟩ := Prod.mk.inj (Except.ok.inj h)
    exact List.forall_mem_nil _
  | case2 n ts slice span ih =>
    obtain ⟨decl, k, others, hparam, hrest, rfl⟩ := readHeader_cons h
    obtain ⟨tokens, c, -, hrun, -⟩ := Code.exists_run_of_runOn hparam
    have hdefault := height_of_runOn (booksKept_least.declaration span) hparam
    exact List.forall_mem_cons.mpr ⟨⟨Code.yields_paramDecl span _ _ _ hrun, fun e he =>
      hdefault e (Option.mem_toList.mpr he)⟩, ih k hrest⟩
  | case3 n t ts hother ih => exact ih h

end Heights

section Parsed

variable {source : String} {trimLines : Bool} {t : Template}

theorem height_of_parse (h : parse source trimLines = .ok t) :
    ∀ e ∈ t.allExprs, e.height ≤ maxNesting := by
  obtain ⟨ts, n, items, hheader, htokens, hitems⟩ := exists_readings_of_parse h
  -- An expression is no taller than the one that it is in.
  have hpart {root e : Expr} (hroot : root.height ≤ maxNesting) (he : e ∈ root.parts) :
      e.height ≤ maxNesting :=
    Nat.le_trans (Code.height_le_of_mem_parts he) hroot
  intro e he
  rcases List.mem_append.mp he with he | he
  · obtain ⟨root, hroot, he⟩ := List.mem_flatMap.mp he
    obtain ⟨p, hp, hdefault⟩ := List.mem_filterMap.mp hroot
    exact hpart ((shallow_of_readHeader hheader p hp).2 root hdefault) he
  · rw [exprs, Node.exprs_itemsOfAll, hitems, flatMap_mergeTexts Item.parts fun _ _ => rfl] at he
    obtain ⟨item, hitem, he⟩ := List.mem_flatMap.mp he
    obtain ⟨root, hroot, he⟩ := List.mem_flatMap.mp he
    exact hpart (height_of_readTokens htokens item hitem root hroot) he

theorem levels_of_parse (h : parse source trimLines = .ok t) :
    ∀ p ∈ t.params, p.type.levels ≤ maxNesting := by
  obtain ⟨ts, n, items, hheader, -⟩ := exists_readings_of_parse h
  exact fun p hp => (shallow_of_readHeader hheader p hp).1

theorem nesting_of_parse (h : parse source trimLines = .ok t) :
    Node.nestingOfAll t.body ≤ maxNesting := by
  obtain ⟨tokens, ts, -, -, hof⟩ := exists_tokens_of_parse h
  have hread : ((Builder.wholeTemplate (splitHeader ts).1).run ⟨(splitHeader ts).2, 0⟩).map
      Prod.fst = .ok t := hof
  obtain ⟨⟨read, p⟩, hrun, rfl⟩ := exists_of_map_eq_ok hread
  exact Builder.yields_wholeTemplate _ _ _ _ hrun

-- In a template that was read, no expression is too tall, no type is a list of too many lists and
-- no block is inside of too many others. Reading code never takes more operands or types inside
-- one another than that, however much further it would be allowed to: this is so for a reader that
-- looks only into its books, and it does what the plain reader does. The heights that the plain
-- reader carries along and those in the books are the true ones.
theorem nesting_capped (h : parse source trimLines = .ok t) :
    (∀ e ∈ t.allExprs, e.height ≤ maxNesting) ∧
      (∀ p ∈ t.params, p.type.levels ≤ maxNesting) ∧ Node.nestingOfAll t.body ≤ maxNesting ∧
      (∀ c m c', Code.measured.run c = .ok (m, c') → m.height = m.expr.height) ∧
      ∀ (beyond : Code.Keeper Expr) (beyondType : Code.Keeper TypeExpr) (fuel : Nat),
        maxNesting < fuel → Code.BooksKept beyond beyondType fuel := by
  refine ⟨height_of_parse h, levels_of_parse h, nesting_of_parse h, fun c m c' hrun => ?_,
    fun beyond beyondType fuel hfuel => Code.booksKept hfuel beyond beyondType⟩
  exact Code.height_of_measured hrun

-- A list of lists, two blocks, and operands in parentheses and behind signs.
def towers : String :=
  "@param list<list<int>> s=[[1]]\n@for(x in s)@if(!!(x.a))$\x7b-(-(1))\x7d@end@end"

theorem nesting_capped_towers : ∃ t, parse towers true = .ok t ∧
    t.params.map (·.type.levels) = [2] ∧ Node.nestingOfAll t.body = 2 ∧
      (∀ e ∈ t.allExprs, e.height ≤ maxNesting) ∧
      ∀ fuel, maxNesting < fuel →
        Code.BooksKept (throw ⟨.nestingTooDeep, 0⟩) (throw ⟨.nestingTooDeep, 0⟩) fuel := by
  have hany : (parse towers true).toOption.any fun t =>
      t.params.map (·.type.levels) = [2] ∧ Node.nestingOfAll t.body = 2 := by
    decide +kernel
  obtain ⟨t, ht, hdecided⟩ := (Option.any_eq_true _ _).mp hany
  obtain ⟨hlevels, hnesting⟩ := of_decide_eq_true hdecided
  obtain ⟨hheight, -, -, -, hbooks⟩ := nesting_capped (eq_ok_of_toOption ht)
  exact ⟨t, eq_ok_of_toOption ht, hlevels, hnesting, hheight, hbooks _ _⟩

end Parsed

end Template

end Stencil
