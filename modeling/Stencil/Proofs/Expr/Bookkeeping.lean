import Stencil.Proofs.Expr.Books
import Stencil.Proofs.Expr.Writing
import Stencil.Proofs.Template.Numbers

/-!
A reader that keeps books does what the plain reader does. The plain one may descend as far as the
books leave room, and the heights that it carries along are the ones that were entered.
-/

namespace Stencil.Code

theorem heightOfAll_eq_foldr (es : List Expr) :
    Expr.heightOfAll es = (es.map Expr.height).foldr max 0 := by
  induction es with
  | nil => rfl
  | cons e es ih => rw [Expr.heightOfAll, ih, List.map_cons, List.foldr_cons]

theorem height_eq (e : Expr) : e.height = (e.operands.map Expr.height).foldr max 0 + 1 := by
  cases e <;> simp [Expr.height, Expr.operands, heightOfAll_eq_foldr]

theorem tallest_eq_foldr (ms : List Measured) : tallest ms = (ms.map (·.height)).foldr max 0 := by
  induction ms with
  | nil => rfl
  | cons m ms ih => rw [tallest_cons, ih, List.map_cons, List.foldr_cons]

theorem height_le_of_mem_parts {e part : Expr} (h : part ∈ e.parts) : part.height ≤ e.height := by
  induction e using Expr.of_operands with
  | step e ih =>
    rw [Expr.parts_eq, List.mem_cons, List.mem_flatMap] at h
    rcases h with rfl | ⟨operand, hoperand, hpart⟩
    · exact Nat.le_refl _
    · have hle := height_le_of_mem hoperand
      rw [heightOfAll_eq_foldr] at hle
      rw [height_eq e]
      have hpart := ih operand hoperand hpart
      omega

-- Books with `level` operands and types open. No number from the next free one on is in them.
structure Books.Sound (level : Nat) (b : Books) : Prop where
  opened : b.opened = level
  deepest : b.deepest ≤ maxNesting
  fresh : ∀ i h, b.heights i = some h → i < b.cursor.nextId

-- What was entered stays.
def Books.Keep (b b' : Books) : Prop := ∀ i h, b.heights i = some h → b'.heights i = some h

-- An expression with the height that it has, and this and the heights of all expressions in it are
-- entered.
structure Books.Entered (b : Books) (m : Measured) : Prop where
  height : m.height = m.expr.height
  shallow : m.height ≤ maxNesting
  entered : ∀ part ∈ m.expr.parts, b.heights part.id = some part.height

theorem Books.Keep.refl (b : Books) : b.Keep b := fun _ _ h => h

theorem Books.Keep.trans {b b' b'' : Books} (h : b.Keep b') (h' : b'.Keep b'') : b.Keep b'' :=
  fun i height hi => h' i height (h i height hi)

theorem Books.Entered.keep {b b' : Books} {m : Measured} (h : b.Entered m) (hkeep : b.Keep b') :
    b'.Entered m :=
  ⟨h.height, h.shallow, fun part hpart => hkeep _ _ (h.entered part hpart)⟩

section Enter

variable {level : Nat} {b : Books}

-- The next number is new.
theorem Books.Sound.keep_enter (h : b.Sound level) (height : Nat) : b.Keep (b.enter height) := by
  intro i known hi
  have hne : i ≠ b.cursor.nextId := Nat.ne_of_lt (h.fresh i known hi)
  exact (Function.update_of_ne hne _ _).trans hi

theorem Books.Sound.enter (h : b.Sound level) (height : Nat) : (b.enter height).Sound level := by
  refine ⟨h.opened, h.deepest, fun i known hi => ?_⟩
  by_cases hnew : i = b.cursor.nextId
  · exact hnew ▸ Nat.lt_succ_self _
  · have hold : b.heights i = some known := (Function.update_of_ne hnew _ _).symm.trans hi
    exact Nat.lt_succ_of_lt (h.fresh i known hold)

-- An expression made of others that are in the books.
theorem Books.Sound.entered_enter {children : List Measured} {whole : Measured}
    (h : b.Sound level) (hchildren : ∀ m ∈ children, b.Entered m)
    (hid : whole.expr.id = b.cursor.nextId)
    (hoperands : whole.expr.operands = children.map (·.expr))
    (hheight : whole.height = whole.expr.height) (hshallow : whole.height ≤ maxNesting) :
    (b.enter whole.height).Entered whole := by
  refine ⟨hheight, hshallow, fun part hpart => ?_⟩
  rw [Expr.parts_eq, List.mem_cons, List.mem_flatMap, hoperands] at hpart
  rcases hpart with rfl | ⟨operand, hoperand, hpart⟩
  · rw [hid, ← hheight]
    exact Function.update_self _ _ _
  · obtain ⟨child, hchild, rfl⟩ := List.mem_map.mp hoperand
    exact h.keep_enter _ _ _ ((hchildren child hchild).entered part hpart)

theorem Books.Entered.heightOf {m : Measured} (h : b.Entered m) :
    b.heightOf m.expr = m.height := by
  have hself := h.entered m.expr (by rw [Expr.parts_eq]; exact List.mem_cons_self)
  rw [Books.heightOf, hself, h.height]
  rfl

end Enter

-- The outcomes of both readers. Books are in order also where reading failed.
inductive Agree {α β : Type} (level : Nat) (b : Books) (out : α → β) (read : α → List Measured) :
    Except Fault β × Books → Except Fault (α × Cursor) → Prop
  | ok {a : α} {b' : Books} (sound : b'.Sound level) (keep : b.Keep b')
    (entered : ∀ m ∈ read a, b'.Entered m) :
    Agree level b out read (.ok (out a), b') (.ok (a, b'.cursor))
  | error {fault : Fault} {b' : Books} (sound : b'.Sound level) :
    Agree level b out read (.error fault, b') (.error fault)

-- The keeper does what the reader does, with `level` operands and types open. What was read before
-- is in the books, and so is what is read.
def Keeps {α β : Type} (level : Nat) (held : List Measured) (keeper : Keeper β) (reader : Reader α)
    (out : α → β) (read : α → List Measured) : Prop :=
  ∀ b : Books, b.Sound level → (∀ m ∈ held, b.Entered m) →
    Agree level b out read (keeper.run b) (reader.run b.cursor)

namespace Keeps

variable {α β γ δ : Type} {level : Nat} {held : List Measured} {keeper : Keeper β}
  {reader : Reader α} {out : α → β} {read : α → List Measured}

theorem pure {a : α} (h : read a = held) :
    Keeps level held (Pure.pure (out a)) (Pure.pure a) out read := by
  intro b hsound hheld
  exact .ok hsound (.refl b) (h ▸ hheld)

theorem bind {f : β → Keeper δ} {g : α → Reader γ} {out' : γ → δ} {read' : γ → List Measured}
    (h : Keeps level held keeper reader out read)
    (hrest : ∀ a, Keeps level (read a) (f (out a)) (g a) out' read') :
    Keeps level held (keeper >>= f) (reader >>= g) out' read' := by
  intro b hsound hheld
  have hfirst := h b hsound hheld
  have hsteps : (reader >>= g).run b.cursor =
      (reader.run b.cursor).bind fun p => (g p.1).run p.2 := rfl
  rw [run_bind, hsteps]
  generalize keeper.run b = kept at hfirst ⊢
  generalize reader.run b.cursor = plain at hfirst ⊢
  cases hfirst with
  | error hsound => exact .error hsound
  | @ok a b' hsound hkeep hentered =>
    have hsecond := hrest a b' hsound hentered
    simp only [Except.bind]
    generalize (f (out a)).run b' = kept at hsecond ⊢
    generalize (g a).run b'.cursor = plain at hsecond ⊢
    cases hsecond with
    | error hsound => exact .error hsound
    | ok hsound hkeep' hentered' => exact .ok hsound (hkeep.trans hkeep') hentered'

theorem map {γ' : Type} {f : α → γ} {g : β → γ'} {out' : γ → γ'} {read' : γ → List Measured}
    (h : Keeps level held keeper reader out read) (hout : ∀ a, g (out a) = out' (f a))
    (hread : ∀ a, read' (f a) = read a) :
    Keeps level held (g <$> keeper) (f <$> reader) out' read' := by
  rw [← bind_pure_comp, ← bind_pure_comp]
  exact h.bind fun a => by
    rw [hout]
    exact .pure (hread a)

-- What was read before stays in the books.
theorem after (h : Keeps level [] keeper reader out read) (held : List Measured) :
    Keeps level held keeper reader out fun a => held ++ read a := by
  intro b hsound hheld
  have hread := h b hsound (List.forall_mem_nil _)
  generalize keeper.run b = kept at hread ⊢
  generalize reader.run b.cursor = plain at hread ⊢
  cases hread with
  | error hsound => exact .error hsound
  | ok hsound hkeep hentered =>
    exact .ok hsound hkeep (List.forall_mem_append.mpr
      ⟨fun m hm => (hheld m hm).keep hkeep, hentered⟩)

theorem run_lift (b : Books) :
    (liftM reader : Keeper α).run b = match reader.run b.cursor with
      | .ok (a, c) => (.ok a, { b with cursor := c })
      | .error fault => (.error fault, b) := rfl

-- A reader that makes no expressions. The numbers that it gives are not in the books.
theorem lift {ids : α → List Nat} (h : Issues [] reader ids) (held : List Measured) :
    Keeps level held (liftM reader : Keeper α) reader id fun _ => held := by
  intro b hsound hheld
  rw [run_lift]
  cases hread : reader.run b.cursor with
  | error fault => exact .error hsound
  | ok p =>
    obtain ⟨a, c⟩ := p
    have hids := h b.cursor a c (List.range b.cursor.nextId) hread (List.append_nil _)
    have hlength := congrArg List.length hids
    have hnext : b.cursor.nextId ≤ c.nextId := by
      simp only [List.length_append, List.length_range] at hlength
      omega
    have hkeep : b.Keep { b with cursor := c } := fun _ _ hi => hi
    refine .ok ⟨hsound.opened, hsound.deepest, fun i height hi => ?_⟩ hkeep
      fun m hm => (hheld m hm).keep hkeep
    exact Nat.lt_of_lt_of_le (hsound.fresh i height hi) hnext

theorem fail {defect : Defect} :
    Keeps level held (liftM (Reader.fail defect : Reader β) : Keeper β)
      (Reader.fail defect : Reader α) out read :=
  fun _ hsound _ => .error hsound

theorem unexpected {expected : String} :
    Keeps level held (liftM (Reader.unexpected expected : Reader β) : Keeper β)
      (Reader.unexpected expected : Reader α) out read :=
  fun _ hsound _ => .error hsound

theorem stop {defect : Defect} {f : γ → Keeper β} {g : δ → Reader α} :
    Keeps level held ((liftM (Reader.fail defect : Reader γ) : Keeper γ) >>= f)
      ((Reader.fail defect : Reader δ) >>= g) out read :=
  fun _ hsound _ => .error hsound

-- Inside of one more operand or type, as long as there is room.
theorem nested (h : Keeps (level + 1) [] keeper reader out read) (hroom : level < maxNesting) :
    Keeps level [] keeper.nested reader out read := by
  intro b hsound _
  let inside : Books := { b with opened := b.opened + 1, deepest := max b.deepest (b.opened + 1) }
  have hdeepest : inside.deepest ≤ maxNesting :=
    Nat.max_le.mpr ⟨hsound.deepest, hsound.opened ▸ hroom⟩
  have hinside : inside.Sound (level + 1) :=
    ⟨congrArg (· + 1) hsound.opened, hdeepest, hsound.fresh⟩
  have houtside {b' : Books} (hsound' : b'.Sound (level + 1)) :
      Books.Sound level { b' with opened := b'.opened - 1 } :=
    ⟨congrArg (· - 1) hsound'.opened, hsound'.deepest, hsound'.fresh⟩
  have hrun : keeper.nested.run b =
      ((keeper.run inside).1,
        { (keeper.run inside).2 with opened := (keeper.run inside).2.opened - 1 }) :=
    if_pos (hsound.opened ▸ hroom)
  have hread : Agree (level + 1) inside out read (keeper.run inside) (reader.run b.cursor) :=
    h inside hinside (List.forall_mem_nil _)
  rw [hrun]
  generalize keeper.run inside = kept at hread ⊢
  generalize reader.run b.cursor = plain at hread ⊢
  cases hread with
  | error hsound' => exact .error (houtside hsound')
  | ok hsound' hkeep hentered =>
    exact .ok (houtside hsound') hkeep fun m hm => (hentered m hm).keep (.refl _)

-- No more is opened where there is no room.
theorem nested_full (hfull : level = maxNesting) :
    Keeps level [] keeper.nested (Reader.fail .nestingTooDeep : Reader α) out read := by
  intro b hsound hheld
  have hrun : keeper.nested.run b =
      (liftM (Reader.fail .nestingTooDeep : Reader β) : Keeper β).run b :=
    if_neg (by rw [hsound.opened]; omega)
  rw [hrun]
  exact fail b hsound hheld

-- The heights of the parts are found in the books, and that of the whole is entered.
theorem node {span : Span} {children : List Measured} {make : Mark → Expr}
    (hmark : ∀ m, (make m).mark = m)
    (hoperands : ∀ m, (make m).operands = children.map (·.expr)) :
    Keeps level children (Keeper.node span make) (Code.node span children make) Measured.expr
      fun m => [m] := by
  intro b hsound hchildren
  let whole : Measured := ⟨make ⟨b.cursor.nextId, span⟩, tallest children + 1⟩
  have hheight : whole.height = whole.expr.height := by
    have htrue : children.map (·.height) = children.map (Expr.height ∘ (·.expr)) :=
      List.map_congr_left fun child hchild => (hchildren child hchild).height
    rw [height_eq, hoperands, List.map_map, ← htrue, ← tallest_eq_foldr]
  have hfound : (whole.expr.operands.map b.heightOf).foldr max 0 + 1 = whole.height := by
    have hentered : children.map (b.heightOf ∘ (·.expr)) = children.map (·.height) :=
      List.map_congr_left fun child hchild => (hchildren child hchild).heightOf
    rw [hoperands, List.map_map, hentered, ← tallest_eq_foldr]
  by_cases hlimit : maxNesting < whole.height
  · have hkept : (Keeper.node span make).run b = (.error ⟨.nestingTooDeep, span.start⟩, b) :=
      if_pos (hfound ▸ hlimit)
    have hplain : (Code.node span children make).run b.cursor =
        .error ⟨.nestingTooDeep, span.start⟩ := by
      rw [Code.node, if_pos hlimit]
      rfl
    rw [hkept, hplain]
    exact .error hsound
  · have hkept : (Keeper.node span make).run b = (.ok whole.expr, b.enter whole.height) :=
      (if_neg (hfound ▸ hlimit)).trans (by rw [hfound])
    have hplain : (Code.node span children make).run b.cursor =
        .ok (whole, (b.enter whole.height).cursor) := by
      rw [Code.node, if_neg hlimit]
      rfl
    have hid : whole.expr.id = b.cursor.nextId := congrArg Mark.id (hmark _)
    have hwhole := hsound.entered_enter hchildren hid (hoperands _) hheight
      (Nat.le_of_not_lt hlimit)
    rw [hkept, hplain]
    exact .ok (a := whole) (hsound.enter _) (hsound.keep_enter _)
      (List.forall_mem_singleton.mpr hwhole)

end Keeps

open Reader

section Grammar

variable {level : Nat} {held : List Measured}

abbrev KeepsExpr (level : Nat) (keeper : Keeper Expr) (reader : Reader Measured) : Prop :=
  Keeps level [] keeper reader Measured.expr fun m => [m]

theorem keeps_chain {keeper : Keeper Expr} {operand : Reader Measured}
    (hoperand : KeepsExpr level keeper operand) (looseness : Nat) :
    ∀ (fuel : Nat) (lhs : Measured),
      Keeps level [lhs] (Keeper.chain keeper looseness fuel lhs.expr)
        (chain operand looseness fuel lhs) Measured.expr fun m => [m]
  | 0, lhs => .pure rfl
  | fuel + 1, lhs => by
    refine .bind (.lift issues_nextOperator? _) fun op => ?_
    cases op with
    | none => exact .pure rfl
    | some op =>
      refine .bind (.lift issues_skip _) fun _ => .bind (hoperand.after _) fun rhs => ?_
      refine .bind (.node (fun _ => rfl) fun _ => rfl) fun whole => ?_
      exact keeps_chain hoperand looseness fuel whole

theorem keeps_binary {keeper : Keeper Expr} {operand : Reader Measured}
    (hoperand : KeepsExpr level keeper operand) :
    ∀ looseness : Nat, KeepsExpr level (keeper.binary looseness) (binary operand looseness)
  | 0 => hoperand
  | looseness + 1 => by
    have hdeeper := keeps_binary hoperand looseness
    refine .bind hdeeper fun lhs => .bind (.lift issues_tokenCount _) fun count => ?_
    exact keeps_chain hdeeper (looseness + 1) count lhs

abbrev exprsOf (ms : List Measured) : List Expr := ms.map (·.expr)

theorem keeps_commaSeparated {keeper : Keeper Expr} {item : Reader Measured}
    (hitem : KeepsExpr level keeper item) : ∀ fuel : Nat,
    Keeps level [] (keeper.commaSeparated fuel) (commaSeparated item fuel) exprsOf id
  | 0 => .bind hitem fun first => .pure (a := [first]) rfl
  | fuel + 1 => by
    refine .bind hitem fun first => .bind (.lift issues_accept _) fun comma => ?_
    cases comma with
    | false => exact .pure (a := [first]) rfl
    | true =>
      refine .bind ((keeps_commaSeparated hitem fuel).after _) fun rest => ?_
      exact .pure (a := first :: rest) rfl

theorem keeps_items {keeper : Keeper Expr} {item : Reader Measured}
    (hitem : KeepsExpr level keeper item) (close : Symbol) :
    Keeps level [] (keeper.items close) (items item close) exprsOf id := by
  refine .bind (.lift issues_atSymbol _) fun found => ?_
  cases found with
  | true => exact .pure (a := []) rfl
  | false => exact .bind (.lift issues_tokenCount _) fun count => keeps_commaSeparated hitem count

theorem keeps_literal {span : Span} {value : Literal} :
    KeepsExpr level (Keeper.literal span value) (literal span value) :=
  .bind (.lift issues_skip _) fun _ => .node (fun _ => rfl) fun _ => rfl

theorem keeps_word {span : Span} {n : Int} {digits : String} :
    KeepsExpr level
      (match Number.word? n with
        | some w => Keeper.literal span (.int w)
        | none => (fail (.invalidNumber digits) : Reader Expr))
      (match Number.word? n with
        | some w => literal span (.int w)
        | none => fail (.invalidNumber digits)) := by
  cases Number.word? n with
  | none => exact .fail
  | some w => exact keeps_literal

theorem keeps_primary {keeper : Keeper Expr} {expr : Reader Measured}
    (hexpr : KeepsExpr level keeper expr) : KeepsExpr level keeper.primary (primary expr) := by
  refine .bind (.lift issues_here _) fun span => .bind (.lift issues_next? _) fun token => ?_
  cases token with
  | none => exact .unexpected
  | some token =>
    cases token with
    | int n digits => exact keeps_word
    | float x => exact keeps_literal
    | text s => exact keeps_literal
    | ident name =>
      by_cases htrue : name = "true"
      · subst htrue
        exact keeps_literal
      by_cases hfalse : name = "false"
      · subst hfalse
        exact keeps_literal
      by_cases hnull : name = "null"
      · subst hnull
        exact keeps_literal
      simp only [id]
      exact .bind (.lift issues_skip _) fun _ => .node (fun _ => rfl) fun _ => rfl
    | symbol s =>
      cases s with
      | openParen =>
        refine .bind (.lift issues_skip _) fun _ => .bind hexpr fun inner => ?_
        exact .bind (.lift issues_expect _) fun _ => .pure rfl
      | openBracket =>
        refine .bind (.lift issues_skip _) fun _ => .bind (keeps_items hexpr _) fun es => ?_
        exact .bind (.lift issues_expect _) fun _ => .node (fun _ => rfl) fun _ => rfl
      | _ => exact .unexpected

theorem keeps_memberChain {keeper : Keeper Expr} {expr : Reader Measured}
    (hexpr : KeepsExpr level keeper expr) : ∀ (fuel : Nat) (object : Measured),
      Keeps level [object] (keeper.memberChain fuel object.expr) (memberChain expr fuel object)
        Measured.expr fun m => [m]
  | 0, object => .pure rfl
  | fuel + 1, object => by
    refine .bind (.lift issues_accept _) fun dot => ?_
    cases dot with
    | false => exact .pure rfl
    | true =>
      refine .bind (.lift issues_expectIdent _) fun (name, nameSpan) => ?_
      refine .bind (.lift issues_accept _) fun paren => ?_
      cases paren with
      | true =>
        refine .bind ((keeps_items hexpr _).after _) fun args => ?_
        refine .bind (.lift issues_expect _) fun close => ?_
        refine .bind (.node (fun _ => rfl) fun _ => rfl) fun whole => ?_
        exact keeps_memberChain hexpr fuel whole
      | false =>
        refine .bind (.node (fun _ => rfl) fun _ => rfl) fun whole => ?_
        exact keeps_memberChain hexpr fuel whole

theorem keeps_postfixed {keeper : Keeper Expr} {expr : Reader Measured}
    (hexpr : KeepsExpr level keeper expr) : KeepsExpr level keeper.postfixed (postfixed expr) := by
  refine .bind (keeps_primary hexpr) fun object => ?_
  exact .bind (.lift issues_tokenCount _) fun count => keeps_memberChain hexpr count object

theorem keeps_signed {keeper : Keeper Expr} {deeper : Reader Measured}
    (hdeeper : KeepsExpr level keeper deeper) : KeepsExpr level keeper.signed (signed deeper) := by
  refine .bind (.lift issues_here _) fun sign => .bind (.lift issues_accept _) fun bang => ?_
  cases bang with
  | true => exact .bind hdeeper fun operand => .node (fun _ => rfl) fun _ => rfl
  | false =>
    refine .bind (.lift issues_accept _) fun minus => ?_
    cases minus with
    | true =>
      refine .bind (.lift issues_leastIntLiteral? _) fun least => ?_
      cases least with
      | some digits => exact keeps_literal
      | none => exact .bind hdeeper fun operand => .node (fun _ => rfl) fun _ => rfl
    | false => exact keeps_postfixed (keeps_binary hdeeper loosest)

-- However much further `fuel` would allow, both stop at the same depth.
theorem keeps_operand (beyond : Keeper Expr) : ∀ {depth fuel level : Nat},
    level + depth = maxNesting → depth < fuel →
      KeepsExpr level (Keeper.operand beyond fuel) (operand depth)
  | 0, fuel + 1, level, hroom, _ => .nested_full hroom
  | depth + 1, fuel + 1, level, hroom, hfuel =>
    .nested (keeps_signed (keeps_operand beyond (by omega) (by omega))) (by omega)

theorem keeps_type (beyond : Keeper TypeExpr) : ∀ {depth fuel level : Nat},
    level + depth = maxNesting → depth < fuel →
      Keeps level [] (Keeper.type beyond fuel) (typeAt depth) id fun _ => []
  | depth, fuel + 1, level, hroom, hfuel => by
    have hdeeper : ∃ deeper : Reader TypeExpr, typeAt depth = typeOver deeper ∧
        Keeps level [] (Keeper.type beyond fuel).nested deeper id fun _ => [] := by
      cases depth with
      | zero => exact ⟨_, rfl, .nested_full hroom⟩
      | succ depth =>
        exact ⟨_, rfl, .nested (keeps_type beyond (by omega) (by omega)) (by omega)⟩
    obtain ⟨deeper, htype, hdeeper⟩ := hdeeper
    rw [htype]
    refine .bind (.lift issues_expectIdent _) fun (name, _) => ?_
    dsimp only [id]
    split
    · refine .bind (.lift issues_accept _) fun less => ?_
      cases less with
      | true =>
        exact .bind hdeeper fun element => .bind (.lift issues_expect _) fun _ => .pure rfl
      | false => exact .pure rfl
    · exact .pure rfl

-- An expression by itself, with the height that it has.
abbrev Measured.of (e : Expr) : Measured := ⟨e, e.height⟩

theorem keeps_forget {keeper : Keeper Expr} {reader : Reader Measured}
    (h : KeepsExpr level keeper reader) :
    Keeps level [] keeper (do return (← reader).expr) id fun e => [.of e] := by
  intro b hsound hheld
  have hread := h b hsound hheld
  have hsteps : (do return (← reader).expr : Reader Expr).run b.cursor =
      (reader.run b.cursor).bind fun p => .ok (p.1.expr, p.2) := rfl
  rw [hsteps]
  generalize keeper.run b = kept at hread ⊢
  generalize reader.run b.cursor = plain at hread ⊢
  cases hread with
  | error hsound => exact .error hsound
  | @ok m b' hsound hkeep hentered =>
    obtain ⟨hheight, hshallow, hparts⟩ := List.forall_mem_singleton.mp hentered
    have hself : b'.Entered (.of m.expr) :=
      ⟨rfl, Nat.le_trans (Nat.le_of_eq hheight.symm) hshallow, hparts⟩
    exact .ok (a := m.expr) hsound hkeep (List.forall_mem_singleton.mpr hself)

section Tags

variable {fuel : Nat} (hfuel : maxNesting < fuel) (beyond : Keeper Expr)
  (beyondType : Keeper TypeExpr)
include hfuel

theorem keeps_measured : KeepsExpr 0 (Keeper.expression beyond fuel) measured :=
  keeps_binary (keeps_operand beyond (Nat.zero_add _) hfuel) loosest

theorem keeps_expression :
    Keeps 0 [] (Keeper.expression beyond fuel) expression id fun e => [.of e] :=
  keeps_forget (keeps_measured hfuel beyond)

theorem keeps_completeExpression :
    Keeps 0 [] (Keeper.completeExpression beyond fuel) completeExpression id fun e => [.of e] := by
  refine .bind (.lift issues_ensureNotEmpty _) fun _ => ?_
  refine .bind (keeps_expression hfuel beyond) fun e => ?_
  exact .bind (.lift issues_expectEnd _) fun _ => .pure rfl

theorem keeps_loopHeader : Keeps 0 [] (Keeper.loopHeader beyond fuel) loopHeader id
    fun header => [.of header.2.2] := by
  refine .bind (.lift issues_loopName _) fun element => ?_
  refine .bind (.lift issues_accept _) fun comma => ?_
  -- What follows the names is read alike whether there is an index or not.
  have hrest (index : Option Binding) : Keeps 0 [] (do
        if (← nextIdent?) = some "in" then
          skip
          let iterable ← Keeper.completeExpression beyond fuel
          return (element, index, iterable)
        else Reader.fail .invalidForHeader) (do
        if (← nextIdent?) = some "in" then
          skip
          let iterable ← completeExpression
          return (element, index, iterable)
        else fail .invalidForHeader) id fun header => [.of header.2.2] := by
    refine .bind (.lift issues_nextIdent? _) fun name => ?_
    dsimp only [id]
    split
    · refine .bind (.lift issues_skip _) fun _ => ?_
      exact .bind (keeps_completeExpression hfuel beyond) fun iterable => .pure rfl
    · exact .fail
  cases comma with
  | true => exact .bind (.map (.lift issues_loopName _) (fun _ => rfl) fun _ => rfl) hrest
  | false => exact hrest none

theorem keeps_arguments : ∀ count : Nat,
    Keeps 0 [] (Keeper.arguments beyond fuel count) (arguments count) id
      fun args => (args.map Argument.value).map .of
  | 0 => .pure rfl
  | count + 1 => by
    refine .bind (.lift issues_argumentName? _) fun name => ?_
    refine .bind (.lift issues_ensureNotEmpty _) fun _ => ?_
    refine .bind (keeps_expression hfuel beyond) fun value => ?_
    refine .bind (.lift issues_accept _) fun comma => ?_
    cases comma with
    | true => exact .bind ((keeps_arguments count).after _) fun rest => .pure rfl
    | false => exact .pure rfl

theorem keeps_inclusionArgs : Keeps 0 [] (Keeper.inclusionArgs beyond fuel) inclusionArgs id
    fun args => (args.map Argument.value).map .of := by
  refine .bind (.lift issues_next? _) fun token => ?_
  cases token with
  | none => exact .pure rfl
  | some token =>
    refine .bind (.lift .get _) fun cursor => ?_
    refine .bind (keeps_arguments hfuel beyond _) fun args => ?_
    exact .bind (.lift issues_expectEnd _) fun _ => .pure rfl

theorem keeps_paramDecl (span : Span) :
    Keeps 0 [] (Keeper.paramDecl beyond beyondType fuel span) (paramDecl span) id
      fun decl => decl.default.toList.map .of := by
  refine .bind (.lift issues_nextIdent? _) fun first => ?_
  have hend (decl : ParamDecl) : Keeps 0 (decl.default.toList.map .of) (do
        if (← next?).isSome then Reader.fail .invalidParam
        return decl : Keeper ParamDecl) (do
        if (← next?).isSome then fail .invalidParam
        return decl) id fun decl => decl.default.toList.map .of := by
    refine .bind (.lift issues_next? _) fun token => ?_
    cases token with
    | none => exact .pure rfl
    | some token => exact .stop
  cases first with
  | none => exact .stop
  | some first =>
    refine .bind (keeps_type beyondType (Nat.zero_add _) hfuel) fun type => ?_
    refine .bind (.lift issues_nextIdent? _) fun name => ?_
    cases name with
    | none => exact .fail
    | some name =>
      refine .bind (.lift issues_skip _) fun _ => .bind (.lift issues_accept _) fun assign => ?_
      cases assign with
      | true =>
        refine .bind (.lift issues_ensureNotEmpty _) fun _ => ?_
        have hread := keeps_expression hfuel beyond
        exact .bind (.map hread (fun _ => rfl) fun _ => rfl) fun default =>
          hend ⟨name, type, default, span⟩
      | false => exact hend ⟨name, type, none, span⟩

end Tags

end Grammar

-- With nothing in its books at first, the keeper does what the reader does. Nothing is open in the
-- end, also where reading failed, and what was read is in the books.
structure Accords {α : Type} (keeper : Keeper α) (reader : Reader α) (exprs : α → List Expr) :
    Prop where
  read : ∀ {c : Cursor} {a : α} {c' : Cursor}, reader.run c = .ok (a, c') →
    ∃ b, keeper.run (.new c) = (.ok a, b) ∧ b.cursor = c' ∧ b.Sound 0 ∧
      ∀ e ∈ exprs a, b.Entered (.of e)
  refused : ∀ {c : Cursor} {fault : Fault}, reader.run c = .error fault →
    ∃ b, keeper.run (.new c) = (.error fault, b) ∧ b.Sound 0

theorem Keeps.accords {α : Type} {keeper : Keeper α} {reader : Reader α} {exprs : α → List Expr}
    (h : Keeps 0 [] keeper reader id fun a => (exprs a).map .of) :
    Accords keeper reader exprs := by
  have hagree (c : Cursor) := h (.new c) ⟨rfl, Nat.zero_le _, nofun⟩ (List.forall_mem_nil _)
  constructor
  · intro c a c' hrun
    have hread := hagree c
    have hcursor : (Books.new c).cursor = c := rfl
    rw [hcursor, hrun] at hread
    generalize keeper.run (.new c) = kept at hread ⊢
    cases hread with
    | ok hsound _ hentered => exact ⟨_, rfl, rfl, hsound, List.forall_mem_map.mp hentered⟩
  · intro c fault hrun
    have hread := hagree c
    have hcursor : (Books.new c).cursor = c := rfl
    rw [hcursor, hrun] at hread
    generalize keeper.run (.new c) = kept at hread ⊢
    cases hread with
    | error hsound => exact ⟨_, rfl, hsound⟩

-- The heights that the plain reader carries along are true.
theorem height_of_measured {c c' : Cursor} {m : Measured} (h : measured.run c = .ok (m, c')) :
    m.height = m.expr.height := by
  have hread := keeps_measured (Nat.lt_succ_self _) (throw ⟨.nestingTooDeep, 0⟩) (.new c)
    ⟨rfl, Nat.zero_le _, nofun⟩ (List.forall_mem_nil _)
  have hcursor : (Books.new c).cursor = c := rfl
  rw [hcursor, h] at hread
  generalize (Keeper.expression _ _).run (Books.new c) = kept at hread
  cases hread with
  | ok _ _ hentered => exact (List.forall_mem_singleton.mp hentered).height

-- All code that a template has in its tags is read so.
structure BooksKept (beyond : Keeper Expr) (beyondType : Keeper TypeExpr) (fuel : Nat) : Prop where
  expression : Accords (Keeper.completeExpression beyond fuel) completeExpression fun e => [e]
  header : Accords (Keeper.loopHeader beyond fuel) loopHeader fun header => [header.2.2]
  args : Accords (Keeper.inclusionArgs beyond fuel) inclusionArgs fun args =>
    args.map Argument.value
  declaration : ∀ span, Accords (Keeper.paramDecl beyond beyondType fuel span) (paramDecl span)
    fun decl => decl.default.toList

-- It does not matter how much further `fuel` would allow, nor what is read beyond.
theorem booksKept {fuel : Nat} (hfuel : maxNesting < fuel) (beyond : Keeper Expr)
    (beyondType : Keeper TypeExpr) : BooksKept beyond beyondType fuel where
  expression := (keeps_completeExpression hfuel beyond).accords
  header := (keeps_loopHeader hfuel beyond).accords
  args := (keeps_inclusionArgs hfuel beyond).accords
  declaration span := (keeps_paramDecl hfuel beyond beyondType span).accords

end Stencil.Code
