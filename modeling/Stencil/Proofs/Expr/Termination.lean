import Stencil.Proofs.Expr.Halting

/-!
The descent comes to an end at every place of every table, and the plain reader does the same. The
recursion goes down by the room that is left for operands and types, and the loops by the tokens.
-/

namespace Stencil.Code

section Within

open Reader

variable (room : Nat)

-- The readers of expressions and of the code in tags, with room for only so many levels.

def measuredWithin : Reader Measured := binary (operand room) loosest

def expressionWithin : Reader Expr := return (← measuredWithin room).expr

def completeExpressionWithin : Reader Expr := do
  ensureNotEmpty
  let e ← expressionWithin room
  expectEnd
  return e

def paramDeclWithin (span : Span) : Reader ParamDecl := do
  if (← nextIdent?).isNone then fail .invalidParam
  let type ← typeAt room
  match ← nextIdent? with
  | none => fail .invalidParam
  | some name =>
    skip
    let default ←
      if ← accept .assign then
        ensureNotEmpty
        some <$> expressionWithin room
      else pure none
    if (← next?).isSome then fail .invalidParam
    return ⟨name, type, default, span⟩

def loopHeaderWithin : Reader (Binding × Option Binding × Expr) := do
  let element ← loopName
  let index ← if ← accept .comma then some <$> loopName else pure none
  if (← nextIdent?) = some "in" then
    skip
    let iterable ← completeExpressionWithin room
    return (element, index, iterable)
  else fail .invalidForHeader

def argumentsWithin : Nat → Reader (List Argument)
  | 0 => return []
  | fuel + 1 => do
    let name ← argumentName?
    ensureNotEmpty
    let value ← expressionWithin room
    if ← accept .comma then return ⟨name, value⟩ :: (← argumentsWithin fuel)
    else return [⟨name, value⟩]

def inclusionArgsWithin : Reader (List Argument) := do
  if (← next?).isNone then return []
  else
    let args ← argumentsWithin room ((← get).tokens.length + 1)
    expectEnd
    return args

end Within

-- The readers that are begun from outside.
structure Readers where
  expression : Reader Expr
  type : Reader TypeExpr
  items : Symbol → Reader (List Measured)
  inclusionArgs : Reader (List Argument)
  loopHeader : Reader (Binding × Option Binding × Expr)
  paramDecl : Span → Reader ParamDecl

namespace Readers

def within (room : Nat) : Readers where
  expression := expressionWithin room
  type := typeAt room
  items := Code.items (measuredWithin room)
  inclusionArgs := inclusionArgsWithin room
  loopHeader := loopHeaderWithin room
  paramDecl := paramDeclWithin room

def plain : Readers where
  expression := Code.expression
  type := typeExpression
  items := Code.items measured
  inclusionArgs := Code.inclusionArgs
  loopHeader := Code.loopHeader
  paramDecl := Code.paramDecl

theorem argumentsWithin_maxNesting (fuel : Nat) :
    argumentsWithin maxNesting fuel = arguments fuel := by
  induction fuel with
  | zero => rfl
  | succ fuel ih =>
    rw [arguments, argumentsWithin, ih]
    rfl

-- With room for all levels they are the readers that run.
theorem within_maxNesting : within maxNesting = plain := by
  have hargs : inclusionArgsWithin maxNesting = Code.inclusionArgs := by
    simp only [Code.inclusionArgs, inclusionArgsWithin, argumentsWithin_maxNesting]
  rw [within, hargs]
  rfl

end Readers

namespace Descent

-- At each place with this much open, a descent halts and has passed a token if it reads something.
def Advances {α : Type} (table : Table) (depth : Nat) (x : Nat → Descent α) (reader : Reader α) :
    Prop :=
  ∀ p : Place, p.index < table.entries.length → p.depth = depth →
    Halts table p (fun _ q => p.index < q.index) x reader

section Grammar

variable {table : Table} {depth : Nat} {p : Place}

-- Each round passes an operator, so the reader does not run out of rounds.
theorem halts_chain {looseness : Nat} {deeper : Reader Measured}
    (hdeeper : Advances table depth (fun m => (unrolled m).binary looseness) deeper) :
    ∀ (fuel : Nat) (lhs : Measured) (p : Place), p.index < table.entries.length →
      p.depth = depth → p.left table ≤ fuel →
      Halts table p (fun _ _ => True) (fun m => (unrolled m).chain looseness lhs)
        (Code.chain deeper (looseness + 1) fuel lhs)
  | 0, lhs, p, hp, hdepth, hfuel => by
    have hnext := runAt_next?_of_left hp (Nat.eq_zero_of_le_zero hfuel)
    have hop : (nextOperator? (looseness + 1)).runAt table p = some (.ok none, p) :=
      (runAt_bind_of_ok hnext).trans rfl
    exact .unroll (.looked hop (.pure hp trivial))
  | fuel + 1, lhs, p, hp, hdepth, hfuel => by
    refine .unroll (.bind (halts_nextOperator? hp) ?_)
    rintro op q - ⟨rfl, hop⟩
    cases op with
    | none => exact .pure hp trivial
    | some op =>
      refine .bind (halts_skip hp (hop rfl)) fun _ q hq hlt => ?_
      refine .bind (hdeeper q hq.inside (hq.depth.trans hdepth)) fun rhs r hr _ => ?_
      refine .bind (halts_node hr.inside) fun whole s hs _ => ?_
      have hends := (hq.trans hr).trans hs
      have hsum := hends.sum
      have hfar := Nat.le_trans hr.forth hs.forth
      exact halts_chain hdeeper fuel whole s hs.inside (hends.depth.trans hdepth) (by omega)

theorem advances_binary {operand : Reader Measured}
    (hoperand : Advances table depth (fun m => (unrolled m).operand) operand) :
    ∀ looseness : Nat, Advances table depth (fun m => (unrolled m).binary looseness)
      (Code.binary operand looseness)
  | 0 => fun p hp hdepth => .unroll (hoperand p hp hdepth)
  | looseness + 1 => fun p hp hdepth => by
    have hdeeper := advances_binary hoperand looseness
    refine .unroll (.bind (hdeeper p hp hdepth) fun lhs q hq hlt => .read rfl ?_)
    have hchain := halts_chain hdeeper (q.left table) lhs q hq.inside (hq.depth.trans hdepth)
      (Nat.le_refl _)
    exact hchain.imp fun _ r hr _ => Nat.lt_of_lt_of_le hlt hr.forth

-- What is inside of an operand: expressions whose operands are one level further down.

section Inside

variable {expr : Reader Measured}
  (hexpr : Advances table depth (fun m => measured (unrolled m)) expr)

include hexpr

theorem halts_commaSeparated : ∀ (fuel : Nat) (p : Place), p.index < table.entries.length →
    p.depth = depth → p.left table ≤ fuel →
    Halts table p (fun _ _ => True) (fun m => (unrolled m).commaSeparated)
      (Code.commaSeparated expr fuel)
  | 0, p, hp, hdepth, hfuel => by
    refine .unroll (.bind (hexpr p hp hdepth) fun first q hq hlt => ?_)
    have hsum := hq.sum
    omega
  | fuel + 1, p, hp, hdepth, hfuel => by
    refine .unroll (.bind (hexpr p hp hdepth) fun first q hq hlt => ?_)
    refine .bind (halts_accept hq.inside) fun comma r hr _ => ?_
    cases comma with
    | false => exact .pure hr.inside trivial
    | true =>
      have hends := hq.trans hr
      have hsum := hends.sum
      have hfar := hr.forth
      have hrest := halts_commaSeparated fuel r hr.inside (hends.depth.trans hdepth) (by omega)
      exact .bind hrest fun rest s hs _ => .pure hs.inside trivial

theorem halts_items {close : Symbol} (hp : p.index < table.entries.length)
    (hdepth : p.depth = depth) :
    Halts table p (fun _ _ => True) (fun m => items (unrolled m) close)
      (Code.items expr close) := by
  refine .bind (halts_atSymbol hp) ?_
  rintro found q - ⟨rfl, -⟩
  cases found with
  | true => exact .pure hp trivial
  | false => exact .read rfl (halts_commaSeparated hexpr _ q hp hdepth (Nat.le_refl _))

theorem advances_primary :
    Advances table depth (fun m => primary (unrolled m)) (Code.primary expr) := by
  intro p hp hdepth
  refine halts_here hp fun span span' hsame => ?_
  refine halts_next? hp (halts_unexpected hp) fun token hleft => ?_
  obtain rfl := hsame hleft
  cases token with
  | int n digits =>
    cases hword : Number.word? n with
    | none =>
      simp only [hword]
      exact halts_fail hp
    | some w =>
      simp only [hword]
      exact halts_literal hp hleft
  | float x => exact halts_literal hp hleft
  | text s => exact halts_literal hp hleft
  | ident name =>
    by_cases htrue : name = "true"
    · subst htrue
      exact halts_literal hp hleft
    by_cases hfalse : name = "false"
    · subst hfalse
      exact halts_literal hp hleft
    by_cases hnull : name = "null"
    · subst hnull
      exact halts_literal hp hleft
    simp only
    refine .bind (halts_skip hp hleft) fun _ q hq hlt => ?_
    exact (halts_node hq.inside).imp fun _ r hr _ => Nat.lt_of_lt_of_le hlt hr.forth
  | symbol s =>
    cases s with
    | openParen =>
      refine .bind (halts_skip hp hleft) fun _ q hq hlt => ?_
      refine .bind (hexpr q hq.inside (hq.depth.trans hdepth)) fun inner r hr _ => ?_
      refine .bind (halts_expect hr.inside) fun _ s hs _ => .pure hs.inside ?_
      exact Nat.lt_of_lt_of_le hlt (hr.trans hs).forth
    | openBracket =>
      refine .bind (halts_skip hp hleft) fun _ q hq hlt => ?_
      refine .bind (halts_items hexpr hq.inside (hq.depth.trans hdepth)) fun es r hr _ => ?_
      refine .bind (halts_expect hr.inside) fun close s hs _ => ?_
      exact (halts_node hs.inside).imp fun _ t ht _ =>
        Nat.lt_of_lt_of_le hlt ((hr.trans hs).trans ht).forth
    | _ => exact halts_unexpected hp

theorem halts_memberChain : ∀ (fuel : Nat) (object : Measured) (p : Place),
    p.index < table.entries.length → p.depth = depth → p.left table ≤ fuel →
    Halts table p (fun _ _ => True) (fun m => (unrolled m).memberChain object)
      (Code.memberChain expr fuel object)
  | 0, object, p, hp, hdepth, hfuel => by
    have hnext := runAt_next?_of_left hp (Nat.eq_zero_of_le_zero hfuel)
    have hdot : (accept .dot).runAt table p = some (.ok false, p) :=
      (runAt_bind_of_ok ((runAt_bind_of_ok hnext).trans rfl)).trans rfl
    exact .unroll (.looked hdot (.pure hp trivial))
  | fuel + 1, object, p, hp, hdepth, hfuel => by
    refine .unroll (.bind (halts_accept hp) fun dot q hq hdot => ?_)
    cases dot with
    | false => exact .pure hq.inside trivial
    | true =>
      have hlt := hdot rfl
      refine .bind (halts_expectIdent hq.inside) fun (name, nameSpan) r hr _ => ?_
      refine .bind (halts_accept hr.inside) fun paren s hs _ => ?_
      have hends := (hq.trans hr).trans hs
      have hfar := (hr.trans hs).forth
      cases paren with
      | true =>
        refine .bind (halts_items hexpr hs.inside (hends.depth.trans hdepth)) fun args t ht _ => ?_
        refine .bind (halts_expect ht.inside) fun close u hu _ => ?_
        refine .bind (halts_node hu.inside) fun whole v hv _ => ?_
        have hrest := (ht.trans hu).trans hv
        have hsum := (hends.trans hrest).sum
        have hfarther := hrest.forth
        exact halts_memberChain fuel whole v hv.inside ((hends.trans hrest).depth.trans hdepth)
          (by omega)
      | false =>
        refine .bind (halts_node hs.inside) fun whole t ht _ => ?_
        have hsum := (hends.trans ht).sum
        have hfarther := ht.forth
        exact halts_memberChain fuel whole t ht.inside ((hends.trans ht).depth.trans hdepth)
          (by omega)

theorem advances_postfixed :
    Advances table depth (fun m => postfixed (unrolled m)) (Code.postfixed expr) := by
  intro p hp hdepth
  refine .bind (advances_primary hexpr p hp hdepth) fun object q hq hlt => .read rfl ?_
  have hchain := halts_memberChain hexpr (q.left table) object q hq.inside (hq.depth.trans hdepth)
    (Nat.le_refl _)
  exact hchain.imp fun _ r hr _ => Nat.lt_of_lt_of_le hlt hr.forth

end Inside

theorem advances_signed {deeper : Reader Measured}
    (hdeeper : Advances table depth (fun m => (unrolled m).operand) deeper) :
    Advances table depth (fun m => signed (unrolled m)) (Code.signed deeper) := by
  intro p hp hdepth
  refine halts_here hp fun sign sign' hsame => .bind (halts_accept hp) fun bang q hq hbang => ?_
  cases bang with
  | true =>
    have hlt := hbang rfl
    have hsum := hq.sum
    obtain rfl := hsame (by omega)
    refine .bind (hdeeper q hq.inside (hq.depth.trans hdepth)) fun operand r hr _ => ?_
    exact (halts_node hr.inside).imp fun _ s hs _ => Nat.lt_of_lt_of_le hlt (hr.trans hs).forth
  | false =>
    refine .bind (halts_accept hq.inside) fun minus r hr hminus => ?_
    cases minus with
    | true =>
      have hlt := Nat.lt_of_le_of_lt hq.forth (hminus rfl)
      have hsum := (hq.trans hr).sum
      obtain rfl := hsame (by omega)
      refine .bind (halts_leastIntLiteral? hr.inside) ?_
      rintro least s - ⟨rfl, hleast⟩
      cases least with
      | some digits =>
        exact (halts_literal hr.inside (hleast rfl)).imp fun _ _ _ hlt' => Nat.lt_trans hlt hlt'
      | none =>
        have hdeep := (hq.trans hr).depth.trans hdepth
        refine .bind (hdeeper s hr.inside hdeep) fun operand t ht _ => ?_
        exact (halts_node ht.inside).imp fun _ u hu _ => Nat.lt_of_lt_of_le hlt (ht.trans hu).forth
    | false =>
      have hends := hq.trans hr
      have hpostfixed := advances_postfixed (advances_binary hdeeper loosest) r hends.inside
        (hends.depth.trans hdepth)
      exact hpostfixed.imp fun _ _ _ hlt => Nat.lt_of_le_of_lt hends.forth hlt

-- As many operands as there is room for: the depth is what bounds the descent.
theorem advances_operand : ∀ (room depth : Nat), maxNesting - depth = room →
    Advances table depth (fun m => (unrolled m).operand) (Code.operand room)
  | 0, depth, hroom => fun p hp hdepth => .unroll (halts_nested_full hp (by omega))
  | room + 1, depth, hroom => fun p hp hdepth => by
    have hdeeper := advances_operand room (depth + 1) (by omega)
    refine .unroll (.nested (by omega) ?_)
    exact advances_signed hdeeper { p with depth := p.depth + 1 } hp (by rw [hdepth])

theorem advances_typeOver {deeper : Reader TypeExpr}
    (hdeeper : Advances table depth (fun m => nested (unrolled m).type) deeper) :
    Advances table depth (fun m => (unrolled m).type) (typeOver deeper) := by
  intro p hp hdepth
  refine .unroll (.bind (halts_expectIdent hp) fun (name, span) q hq hlt => ?_)
  by_cases hlist : name = "list"
  · simp only [if_pos hlist]
    refine .bind (halts_accept hq.inside) fun found r hr _ => ?_
    have hends := hq.trans hr
    cases found with
    | false => exact .pure hr.inside (Nat.lt_of_lt_of_le hlt hr.forth)
    | true =>
      have hdeep := hends.depth.trans hdepth
      refine .bind (hdeeper r hr.inside hdeep) fun element s hs _ => ?_
      refine .bind (halts_expect hs.inside) fun _ t ht _ => .pure ht.inside ?_
      exact Nat.lt_of_lt_of_le hlt ((hr.trans hs).trans ht).forth
  · simp only [if_neg hlist]
    exact .pure hq.inside hlt

theorem advances_type : ∀ (room depth : Nat), maxNesting - depth = room →
    Advances table depth (fun m => (unrolled m).type) (typeAt room)
  | 0, depth, hroom => advances_typeOver fun p hp hdepth => halts_nested_full hp (by omega)
  | room + 1, depth, hroom => advances_typeOver fun p hp hdepth => by
    have hdeeper := advances_type room (depth + 1) (by omega)
    refine .nested (by omega) ?_
    exact hdeeper { p with depth := p.depth + 1 } hp (by rw [hdepth])

end Grammar

section Tags

variable {table : Table} {p : Place}

theorem halts_expression (hp : p.index < table.entries.length) :
    Halts table p (fun _ q => p.index < q.index) (fun m => expression (unrolled m))
      (expressionWithin (maxNesting - p.depth)) := by
  have hoperand : Advances table p.depth _ _ := advances_operand _ p.depth rfl
  refine .bind (advances_binary hoperand loosest p hp rfl) fun e q hq hlt => ?_
  exact .pure hq.inside hlt

theorem halts_completeExpression (hp : p.index < table.entries.length) :
    Halts table p (fun _ _ => True) (fun m => completeExpression (unrolled m))
      (completeExpressionWithin (maxNesting - p.depth)) := by
  refine .bind (halts_ensureNotEmpty hp) ?_
  rintro _ q - rfl
  refine .bind (halts_expression hp) fun e r hr _ => ?_
  exact .bind (halts_expectEnd hr.inside) fun _ s hs _ => .pure hs.inside trivial

theorem halts_loopHeader (hp : p.index < table.entries.length) :
    Halts table p (fun _ _ => True) (fun m => loopHeader (unrolled m))
      (loopHeaderWithin (maxNesting - p.depth)) := by
  refine .bind (halts_loopName hp) fun element q hq _ => ?_
  refine .bind (halts_accept hq.inside) fun comma r hr _ => ?_
  -- What follows the names is read alike whether there is an index or not.
  have hrest (index : Option Binding) (s : Place) (hs : p.Reaches table s) :
      Halts table s (fun _ _ => True) (fun m => do
        if (← nextIdent?) = some "in" then
          skip
          let iterable ← completeExpression (unrolled m)
          return (element, index, iterable)
        else fail .invalidForHeader) (do
        if (← Code.nextIdent?) = some "in" then
          Reader.skip
          let iterable ← completeExpressionWithin (maxNesting - p.depth)
          return (element, index, iterable)
        else Reader.fail .invalidForHeader) := by
    refine .bind (halts_nextIdent? hs.inside) ?_
    rintro word t - ⟨rfl, hword⟩
    by_cases hin : word = some "in"
    · simp only [if_pos hin]
      refine .bind (halts_skip hs.inside (hword (hin ▸ rfl))) fun _ u hu _ => ?_
      rw [← (hs.trans hu).depth]
      refine .bind (halts_completeExpression hu.inside) fun iterable v hv _ => ?_
      exact .pure hv.inside trivial
    · simp only [if_neg hin]
      exact halts_fail hs.inside
  have hends := hq.trans hr
  cases comma with
  | true =>
    have hindex : Halts table r (fun _ _ => True) (fun _ => some <$> loopName)
      (some <$> Code.loopName) := (halts_loopName hr.inside).map fun _ _ _ => trivial
    exact .bind hindex fun index s hs _ => hrest index s (hends.trans hs)
  | false => exact hrest none r hends

theorem halts_arguments {depth : Nat} : ∀ (fuel : Nat) (p : Place),
    p.index < table.entries.length → p.depth = depth → p.left table < fuel →
    Halts table p (fun _ _ => True) (fun m => (unrolled m).arguments)
      (argumentsWithin (maxNesting - depth) fuel)
  | 0, p, hp, hdepth, hfuel => by omega
  | fuel + 1, p, hp, hdepth, hfuel => by
    refine .unroll (.bind (halts_argumentName? hp) fun name q hq _ => ?_)
    refine .bind (halts_ensureNotEmpty hq.inside) ?_
    rintro _ r - rfl
    rw [← hdepth, ← hq.depth]
    refine .bind (halts_expression hq.inside) fun value s hs hlt => ?_
    refine .bind (halts_accept hs.inside) fun comma t ht _ => ?_
    cases comma with
    | false => exact .pure ht.inside trivial
    | true =>
      have hends := (hq.trans hs).trans ht
      have hsum := hends.sum
      have hfar := hq.forth
      have hfarther := ht.forth
      have hrest := halts_arguments fuel t ht.inside (ht.depth.trans hs.depth) (by omega)
      exact .bind hrest fun rest u hu _ => .pure hu.inside trivial

theorem halts_inclusionArgs (hp : p.index < table.entries.length) :
    Halts table p (fun _ _ => True) (fun m => inclusionArgs (unrolled m))
      (inclusionArgsWithin (maxNesting - p.depth)) := by
  refine halts_next? hp (.pure hp trivial) fun _ _ => .read rfl ?_
  refine .bind (halts_arguments _ p hp rfl (Nat.lt_succ_self _)) fun args q hq _ => ?_
  exact .bind (halts_expectEnd hq.inside) fun _ r hr _ => .pure hr.inside trivial

theorem halts_paramDecl {span : Span} (hp : p.index < table.entries.length) :
    Halts table p (fun _ _ => True) (fun m => paramDecl (unrolled m) span)
      (paramDeclWithin (maxNesting - p.depth) span) := by
  refine .bind (halts_nextIdent? hp) ?_
  rintro first q - ⟨rfl, -⟩
  have hend (decl : ParamDecl) {q : Place} (hq : q.index < table.entries.length) :
      Halts table q (fun _ _ => True) (fun _ => do
        if (← next?).isSome then fail .invalidParam
        return decl) (do
        if (← Reader.next?).isSome then Reader.fail .invalidParam
        return decl) :=
    halts_next? hq (.pure hq trivial) fun _ _ => halts_stop hq
  cases first with
  | none => exact halts_stop hp
  | some first =>
    refine .bind (advances_type _ _ rfl q hp rfl) fun type r hr _ => ?_
    refine .bind (halts_nextIdent? hr.inside) ?_
    rintro name s - ⟨rfl, hname⟩
    cases name with
    | none => exact halts_fail hr.inside
    | some name =>
      refine .bind (halts_skip hr.inside (hname rfl)) fun _ t ht _ => ?_
      refine .bind (halts_accept ht.inside) fun assign u hu _ => ?_
      cases assign with
      | true =>
        refine .bind (halts_ensureNotEmpty hu.inside) ?_
        rintro _ v - rfl
        have hdefault : Halts table v (fun _ _ => True)
            (fun m => some <$> expression (unrolled m))
            (some <$> expressionWithin (maxNesting - q.depth)) := by
          rw [← ((hr.trans ht).trans hu).depth]
          exact (halts_expression hu.inside).map fun _ _ _ => trivial
        exact .bind hdefault fun default w hw _ => hend ⟨name, type, default, span⟩ hw.inside
      | false => exact hend ⟨name, type, none, span⟩ hu.inside

end Tags

-- All of them come to an end at a place. What reads an expression or a type has passed a token.
structure Terminates (table : Table) (p : Place) (readers : Readers) : Prop where
  expression : Halts table p (fun _ q => p.index < q.index) (fun n => expression (unrolled n))
    readers.expression
  type : Halts table p (fun _ q => p.index < q.index) (fun n => (unrolled n).type) readers.type
  items : ∀ close, Halts table p (fun _ _ => True) (fun n => items (unrolled n) close)
    (readers.items close)
  inclusionArgs : Halts table p (fun _ _ => True) (fun n => inclusionArgs (unrolled n))
    readers.inclusionArgs
  loopHeader : Halts table p (fun _ _ => True) (fun n => loopHeader (unrolled n))
    readers.loopHeader
  paramDecl : ∀ span, Halts table p (fun _ _ => True) (fun n => paramDecl (unrolled n) span)
    (readers.paramDecl span)

-- The descent comes to an end wherever it begins, however much is open there. With nothing open it
-- does what the readers do, and for code that was cut into tokens they have those before them that
-- are left.
theorem descent_terminates {table : Table} {p : Place} (h : p.index < table.entries.length) :
    Terminates table p (.within (maxNesting - p.depth)) ∧
    (p.depth = 0 → Terminates table p .plain) ∧
    ∀ ts stop, table = .ofTokens ts stop → p.cursor table = ⟨ts.drop p.index, stop, p.nextId⟩ := by
  have hwithin : Terminates table p (.within (maxNesting - p.depth)) := by
    have hoperand : Advances table p.depth _ _ := advances_operand _ p.depth rfl
    refine ⟨halts_expression h, advances_type _ _ rfl p h rfl, fun close => ?_,
      halts_inclusionArgs h, halts_loopHeader h, fun span => halts_paramDecl h⟩
    exact halts_items (advances_binary hoperand loosest) h rfl
  refine ⟨hwithin, fun hdepth => ?_, ?_⟩
  · rwa [hdepth, Nat.sub_zero, Readers.within_maxNesting] at hwithin
  · rintro ts stop rfl
    exact Place.cursor_ofTokens h

-- The code of `- a`.
theorem descent_terminates_signed :
    let ts : List Placed := [⟨.symbol .minus, ⟨0, 1⟩⟩, ⟨.ident "a", ⟨2, 3⟩⟩]
    let p : Place := ⟨0, 0, 7⟩
    p.index < (Table.ofTokens ts 3).entries.length ∧ Terminates (.ofTokens ts 3) p .plain ∧
      p.cursor (.ofTokens ts 3) = ⟨ts, 3, 7⟩ := by
  intro ts p
  have hinside : p.index < (Table.ofTokens ts 3).entries.length := by decide
  obtain ⟨-, hplain, hcursor⟩ := descent_terminates hinside
  exact ⟨hinside, hplain rfl, hcursor ts 3 rfl⟩

example : (expression (unrolled 10)).runAt
    (.ofTokens [⟨.symbol .minus, ⟨0, 1⟩⟩, ⟨.ident "a", ⟨2, 3⟩⟩] 3) ⟨0, 0, 7⟩ =
      some (.ok (.unary ⟨8, ⟨0, 3⟩⟩ .negate (.name ⟨7, ⟨2, 3⟩⟩ "a")), ⟨2, 0, 9⟩) := rfl

end Descent

end Stencil.Code
