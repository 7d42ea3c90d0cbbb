import Stencil.Proofs.Expr.Consumption
import Stencil.Proofs.Expr.Layouts
import Stencil.Proofs.Expr.Numbers
import Stencil.Proofs.Expr.Places
import Stencil.Proofs.Text.Rows

/-!
What an expression takes of the source. It lies among the tokens that it was read from, and its
operands lie in it, one behind the other.
-/

namespace Stencil

open Stencil.Span

variable {good : Nat → Prop}

-- The operands of each expression in this one follow one another within its span.
def Expr.Nested (good : Nat → Prop) (e : Expr) : Prop :=
  ∀ part ∈ e.parts, Row good part.span.start part.span.stop (part.operands.map Expr.span)

theorem Expr.nested_iff {e : Expr} : e.Nested good ↔
    Row good e.span.start e.span.stop (e.operands.map Expr.span) ∧
      ∀ o ∈ e.operands, o.Nested good := by
  unfold Nested
  rw [parts_eq]
  constructor
  · intro h
    exact ⟨h e List.mem_cons_self, fun o ho part hpart =>
      h part (List.mem_cons_of_mem e (List.mem_flatMap.mpr ⟨o, ho, hpart⟩))⟩
  · rintro ⟨hrow, hoperands⟩ part hpart
    rcases List.mem_cons.mp hpart with rfl | hpart
    · exact hrow
    · obtain ⟨o, ho, hpart⟩ := List.mem_flatMap.mp hpart
      exact hoperands o ho part hpart

-- The name that a loop introduces, as an expression.
def Binding.expr (b : Binding) : Expr := .name b.mark b.name

-- The names and the expression in the header of a loop, in source order.
def loopExprs (header : Binding × Option Binding × Expr) : List Expr :=
  header.1.expr :: header.2.1.toList.map Binding.expr ++ [header.2.2]

namespace Code

-- What expressions have of the tokens that they are read from.
structure Among (es : List Expr) (read : List Placed) : Prop where
  intro ::
  -- Where the tokens are in a row, so are the expressions, and their operands lie in them.
  rows : ∀ good lo hi, Row good lo hi (read.map (·.span)) →
    Row good lo hi (es.map Expr.span) ∧ ∀ e ∈ es, e.Nested good
  -- Each part covers the spans of some tokens.
  spans : ∀ fine : Span → Prop, (∀ s t, fine s → fine t → fine (s.cover t)) →
    (∀ t ∈ read, fine t.span) → ∀ e ∈ es, ∀ part ∈ e.parts, fine part.span
  -- A name is one of the tokens.
  names : ∀ e ∈ es, ∀ mark ident, .name mark ident ∈ e.parts → ⟨.ident ident, mark.span⟩ ∈ read

namespace Among

variable {es fs : List Expr} {e : Expr} {read us vs : List Placed}

theorem nil : Among [] read :=
  ⟨fun _ _ _ h => ⟨.nil h.le, by simp⟩, fun _ _ _ => by simp, by simp⟩

theorem more (h : Among es us) (hsub : us.Sublist read) : Among es read where
  rows good lo hi hrow := h.rows good lo hi (hrow.sublist (hsub.map _))
  spans fine hcover hfine := h.spans fine hcover fun t ht => hfine t (hsub.subset ht)
  names e he mark ident hname := hsub.subset (h.names e he mark ident hname)

theorem behind (h : Among es vs) : Among es (us ++ vs) :=
  h.more (List.sublist_append_right us vs)

theorem append (h : Among es us) (h' : Among fs vs) :
    Among (es ++ fs) (us ++ vs) where
  rows good lo hi hrow := by
    rw [List.map_append] at hrow
    obtain ⟨mid, hfirst, hsecond⟩ := hrow.exists_of_append
    obtain ⟨hes, hnested⟩ := h.rows good lo mid hfirst
    obtain ⟨hfs, hnested'⟩ := h'.rows good mid hi hsecond
    rw [List.map_append]
    exact ⟨hes.append hfs, List.forall_mem_append.mpr ⟨hnested, hnested'⟩⟩
  spans fine hcover hfine := by
    obtain ⟨hus, hvs⟩ := List.forall_mem_append.mp hfine
    exact List.forall_mem_append.mpr ⟨h.spans fine hcover hus, h'.spans fine hcover hvs⟩
  names := List.forall_mem_append.mpr
    ⟨fun e he mark ident hname => List.mem_append_left vs (h.names e he mark ident hname),
      fun e he mark ident hname => List.mem_append_right us (h'.names e he mark ident hname)⟩

-- A node spans its operands and the tokens of its own on both sides.
theorem node (front back : List Placed) (first last : Span) (h : Among e.operands us)
    (hfirst : (front.map (·.span) ++ e.operands.map Expr.span ++ back.map (·.span)).head? =
      some first)
    (hlast : (front.map (·.span) ++ e.operands.map Expr.span ++ back.map (·.span)).getLast? =
      some last)
    (hspan : e.span = first.cover last)
    (hname : ∀ mark ident, e = .name mark ident →
      ⟨.ident ident, mark.span⟩ ∈ front ++ us ++ back) :
    Among [e] (front ++ us ++ back) where
  rows good lo hi hrow := by
    rw [List.map_append, List.map_append] at hrow
    obtain ⟨right, hinner, hback⟩ := hrow.exists_of_append
    obtain ⟨left, hfront, hus⟩ := hinner.exists_of_append
    obtain ⟨hoperands, hnested⟩ := h.rows good left right hus
    obtain ⟨hcover, hwithin⟩ := ((hfront.append hoperands).append hback).cover hfirst hlast
    rw [← hspan] at hcover hwithin
    refine ⟨hcover, List.forall_mem_singleton.mpr (Expr.nested_iff.mpr ⟨?_, hnested⟩)⟩
    refine hwithin.sublist ?_
    rw [List.append_assoc]
    exact (List.sublist_append_left _ _).trans (List.sublist_append_right _ _)
  spans fine hcover hfine := by
    have hus : ∀ t ∈ us, fine t.span := fun t ht => hfine t (by simp [ht])
    have hoperands := h.spans fine hcover hus
    -- All that the node covers is fine, and so are its first and its last piece.
    have hall : ∀ s ∈ front.map (·.span) ++ e.operands.map Expr.span ++ back.map (·.span),
        fine s := by
      intro s hs
      rcases List.mem_append.mp hs with hs | hs
      · rcases List.mem_append.mp hs with hs | hs
        · obtain ⟨t, ht, rfl⟩ := List.mem_map.mp hs
          exact hfine t (by simp [ht])
        · obtain ⟨o, ho, rfl⟩ := List.mem_map.mp hs
          exact hoperands o ho o (o.parts_eq ▸ List.mem_cons_self)
      · obtain ⟨t, ht, rfl⟩ := List.mem_map.mp hs
        exact hfine t (by simp [ht])
    refine List.forall_mem_singleton.mpr fun part hpart => ?_
    rw [Expr.parts_eq] at hpart
    rcases List.mem_cons.mp hpart with rfl | hpart
    · rw [hspan]
      exact hcover _ _ (hall _ (List.mem_of_mem_head? hfirst)) (hall _ (List.mem_of_getLast? hlast))
    · obtain ⟨o, ho, hpart⟩ := List.mem_flatMap.mp hpart
      exact hoperands o ho part hpart
  names := by
    refine List.forall_mem_singleton.mpr fun mark ident hpart => ?_
    rw [Expr.parts_eq] at hpart
    rcases List.mem_cons.mp hpart with heq | hpart
    · exact hname mark ident heq.symm
    · obtain ⟨o, ho, hpart⟩ := List.mem_flatMap.mp hpart
      have hmem := h.names o ho mark ident hpart
      simp [hmem]

end Among

namespace Consumes

variable {α β : Type} {x : Reader α} {f : α → Reader β} {ts : List Placed}
  {post' : β → List Placed → Prop}

-- Readers take tokens off the front only.
theorem of_points {places : α → List Nat} (h : Points (fun _ => True) x places) :
    Consumes x ts fun _ _ => True := by
  intro stop n a c hrun
  have hplaced : (Cursor.mk ts stop n).Placed fun _ => True := ⟨fun _ _ => trivial, trivial⟩
  have hpoints := h _ hplaced
  rw [hrun] at hpoints
  obtain ⟨us, hus⟩ := hpoints.2.1
  exact ⟨us, hus.symm, trivial⟩

-- What is taken in front does not matter to what holds of more tokens as well.
theorem skim {places : α → List Nat} (hmore : ∀ b us vs, post' b vs → post' b (us ++ vs))
    (hx : Points (fun _ => True) x places) (hf : ∀ a rest, Consumes (f a) rest post') :
    Consumes (x >>= f) ts post' :=
  (of_points hx).bind fun a us rest _ => (hf a rest).weaken fun b vs => hmore b us vs

end Consumes

open Reader

section Expressions

variable {ts : List Placed} {t : Placed}

-- The expression that is read lies among the tokens that it is read from.
def ReadsAmong (reader : Reader Measured) : Prop :=
  ∀ ts, Consumes reader ts fun m read => Among [m.expr] read

-- A leaf takes one token.
theorem among_leaf {e : Expr} (hoperands : e.operands = []) (hspan : e.span = t.span)
    (hname : ∀ mark ident, e = .name mark ident → t.token = .ident ident) : Among [e] [t] := by
  have hnone : Among e.operands [] := hoperands ▸ .nil
  refine .node [t] [] t.span t.span hnone (by simp) (by simp [hoperands]) ?_ ?_
  · rw [hspan, Span.cover, Nat.min_self, Nat.max_self]
  · intro mark ident heq
    have hmark : mark.span = t.span := by rw [← hspan, heq]; rfl
    rw [hmark, ← hname mark ident heq]
    exact List.mem_singleton_self t

theorem consumes_leaf {make : Mark → Expr} (hmake : ∀ mark, (make mark).operands = [] ∧
    (make mark).mark = mark) (ht : ts.head? = some t)
    (hname : ∀ mark mark' ident, make mark = .name mark' ident → t.token = .ident ident) :
    Consumes (do
      skip
      node t.span [] make) ts fun m read => Among [m.expr] read := by
  refine .bind (consumes_skip ht) fun _ us rest hus => ?_
  subst hus
  refine consumes_node.weaken fun m vs ⟨hvs, ⟨id, hm⟩, _⟩ => ?_
  subst hvs
  rw [hm, List.append_nil]
  obtain ⟨hoperands, hmark⟩ := hmake ⟨id, t.span⟩
  exact among_leaf hoperands (congrArg Mark.span hmark) (hname _)

theorem consumes_literal {value : Literal} (ht : ts.head? = some t) :
    Consumes (literal t.span value) ts fun m read => Among [m.expr] read :=
  consumes_leaf (fun _ => ⟨rfl, rfl⟩) ht nofun

theorem consumes_chain {operand : Reader Measured} (hoperand : ReadsAmong operand)
    {looseness : Nat} : ∀ (fuel : Nat) {lhs : Measured} {us : List Placed},
      Among [lhs.expr] us → ∀ ts, Consumes (chain operand looseness fuel lhs) ts
        fun m read => Among [m.expr] (us ++ read)
  | 0, lhs, us, hlhs, ts => .pure (by rwa [List.append_nil])
  | fuel + 1, lhs, us, hlhs, ts => by
    refine .bind (.of_points points_nextOperator?) fun op vs rest _ => ?_
    have hlhs := hlhs.more (List.sublist_append_left us vs)
    cases op with
    | none => exact .pure (by rwa [List.append_nil])
    | some op =>
      refine .bind (.of_points points_skip) fun _ ws rest _ => ?_
      refine .bind (hoperand rest) fun rhs xs rest hrhs => ?_
      have hpair := (hlhs.more (List.sublist_append_left _ ws)).append hrhs
      refine .bind consumes_node fun whole ys rest ⟨hys, ⟨id, hm⟩, _⟩ => ?_
      subst hys
      have hwhole : Among [whole.expr] (us ++ vs ++ ws ++ xs) := by
        have hnode : Among [.binary ⟨id, lhs.span.cover rhs.span⟩ op lhs.expr rhs.expr]
          ([] ++ (us ++ vs ++ ws ++ xs) ++ []) :=
            .node [] [] lhs.span rhs.span hpair rfl rfl rfl nofun
        simpa [hm] using hnode
      refine (consumes_chain hoperand fuel hwhole rest).weaken fun m read hm => ?_
      simpa using hm

theorem readsAmong_binary {operand : Reader Measured} (hoperand : ReadsAmong operand) :
    ∀ looseness, ReadsAmong (binary operand looseness)
  | 0 => hoperand
  | looseness + 1 => fun ts => by
    have hinner := readsAmong_binary hoperand looseness
    refine .bind (hinner ts) fun lhs us rest hlhs => ?_
    refine .bind (.of_points points_tokenCount) fun count vs rest _ => ?_
    have hlhs := hlhs.more (List.sublist_append_left us vs)
    refine (consumes_chain hinner count hlhs rest).weaken fun m read hm => ?_
    rwa [← List.append_assoc]

theorem consumes_commaSeparated {item : Reader Measured} (hitem : ReadsAmong item) :
    ∀ fuel ts, Consumes (commaSeparated item fuel) ts
      fun ms read => Among (ms.map (·.expr)) read
  | 0, ts => by
    refine .bind (hitem ts) fun m us rest hm => .pure ?_
    rwa [List.append_nil]
  | fuel + 1, ts => by
    refine .bind (hitem ts) fun m us rest hm => ?_
    refine .bind (.of_points points_accept) fun comma vs rest _ => ?_
    have hm := hm.more (List.sublist_append_left us vs)
    cases comma with
    | false => exact .pure (by rwa [List.append_nil])
    | true =>
      refine .bind (consumes_commaSeparated hitem fuel rest) fun ms ws rest hms => .pure ?_
      have hall := hm.append hms
      simpa using hall

theorem consumes_items {item : Reader Measured} (hitem : ReadsAmong item) (close : Symbol)
    (ts : List Placed) : Consumes (items item close) ts
      fun ms read => Among (ms.map (·.expr)) read := by
  refine .skim (fun _ _ _ => .behind) points_atSymbol fun found rest => ?_
  split
  · exact .pure .nil
  · exact .skim (fun _ _ _ => .behind) points_tokenCount fun count rest =>
      consumes_commaSeparated hitem count rest

theorem readsAmong_primary {expr : Reader Measured} (hexpr : ReadsAmong expr) :
    ReadsAmong (primary expr) := by
  intro ts
  refine .look consumes_here fun span hspan => .look consumes_next? fun token htoken => ?_
  cases ts with
  | nil =>
    subst htoken
    exact consumes_unexpected
  | cons t ts =>
    subst htoken
    obtain rfl := hspan t rfl
    have hleaf {value : Literal} : Consumes (literal t.span value) (t :: ts)
      fun m read => Among [m.expr] read := consumes_literal rfl
    dsimp only [List.head?_cons, Option.map_some]
    split
    · split
      · exact hleaf
      · exact consumes_fail
    · exact hleaf
    · exact hleaf
    · exact hleaf
    · exact hleaf
    · exact hleaf
    · next name htrue hfalse hnull hname =>
      refine consumes_leaf (fun _ => ⟨rfl, rfl⟩) rfl fun mark mark' ident heq => ?_
      cases heq
      exact Option.some.inj hname
    · refine .skim (fun _ _ _ => .behind) points_skip fun _ rest => ?_
      refine .bind (hexpr rest) fun inner us rest hinner => ?_
      refine .bind (.of_points points_expect) fun _ vs rest _ => .pure ?_
      rw [List.append_nil]
      exact hinner.more (List.sublist_append_left us vs)
    · refine .bind (consumes_skip rfl) fun _ front rest hfront => ?_
      subst hfront
      refine .bind (consumes_items hexpr _ rest) fun ms us rest hms => ?_
      refine .bind consumes_expect fun close back rest hback => ?_
      obtain ⟨u, rfl, rfl⟩ : ∃ u : Placed, back = [u] ∧ close = u.span := ⟨_, hback, rfl⟩
      refine consumes_node.weaken fun m vs ⟨hvs, ⟨id, hm⟩, _⟩ => ?_
      subst hvs
      have hnode : Among [.list ⟨id, t.span.cover u.span⟩ (ms.map (·.expr))]
        ([t] ++ us ++ [u]) :=
        .node [t] [u] t.span u.span hms rfl List.getLast?_concat rfl nofun
      simpa [hm] using hnode
    · exact consumes_unexpected

theorem consumes_memberChain {expr : Reader Measured} (hexpr : ReadsAmong expr) :
    ∀ (fuel : Nat) {object : Measured} {us : List Placed}, Among [object.expr] us →
      ∀ ts, Consumes (memberChain expr fuel object) ts
        fun m read => Among [m.expr] (us ++ read)
  | 0, object, us, hobject, ts => .pure (by rwa [List.append_nil])
  | fuel + 1, object, us, hobject, ts => by
    refine .bind (.of_points points_accept) fun dot vs rest _ => ?_
    have hobject := hobject.more (List.sublist_append_left us vs)
    cases dot with
    | false => exact .pure (by rwa [List.append_nil])
    | true =>
      refine .bind consumes_expectIdent fun (name, nameSpan) ws rest hws => ?_
      obtain ⟨t, rfl, rfl⟩ : ∃ t : Placed, ws = [t] ∧ nameSpan = t.span := ⟨_, hws, rfl⟩
      refine .bind (.of_points points_accept) fun paren xs rest _ => ?_
      cases paren with
      | false =>
        refine .bind consumes_node fun whole ys rest ⟨hys, ⟨id, hm⟩, _⟩ => ?_
        subst hys
        have hwhole : Among [whole.expr] (us ++ vs ++ [t]) := by
          have hnode : Among [.member ⟨id, object.span.cover t.span⟩ object.expr name]
            ([] ++ (us ++ vs) ++ [t]) :=
            .node [] [t] object.span t.span hobject rfl rfl rfl nofun
          simpa [hm] using hnode
        have hwhole := hwhole.more (List.sublist_append_left _ xs)
        refine (consumes_memberChain hexpr fuel hwhole rest).weaken fun m read hm => ?_
        simpa using hm
      | true =>
        refine .bind (consumes_items hexpr _ rest) fun args ys rest hargs => ?_
        refine .bind consumes_expect fun close back rest hback => ?_
        obtain ⟨u, rfl, rfl⟩ : ∃ u : Placed, back = [u] ∧ close = u.span := ⟨_, hback, rfl⟩
        refine .bind consumes_node fun whole zs rest ⟨hzs, ⟨id, hm⟩, _⟩ => ?_
        subst hzs
        have hall := (hobject.more (List.sublist_append_left _ ([t] ++ xs))).append hargs
        have hwhole : Among [whole.expr] (us ++ vs ++ ([t] ++ xs) ++ ys ++ [u]) := by
          have hnode : Among [.call ⟨id, object.span.cover u.span⟩ object.expr name
              (args.map (·.expr))] ([] ++ (us ++ vs ++ ([t] ++ xs) ++ ys) ++ [u]) :=
            .node [] [u] object.span u.span hall rfl List.getLast?_concat rfl nofun
          simpa [hm] using hnode
        refine (consumes_memberChain hexpr fuel hwhole rest).weaken fun m read hm => ?_
        simpa using hm

theorem readsAmong_postfixed {expr : Reader Measured} (hexpr : ReadsAmong expr) :
    ReadsAmong (postfixed expr) := by
  intro ts
  refine .bind (readsAmong_primary hexpr ts) fun object us rest hobject => ?_
  refine .bind (.of_points points_tokenCount) fun count vs rest _ => ?_
  have hobject := hobject.more (List.sublist_append_left us vs)
  refine (consumes_memberChain hexpr count hobject rest).weaken fun m read hm => ?_
  rwa [← List.append_assoc]

theorem readsAmong_signed {deeper : Reader Measured} (hdeeper : ReadsAmong deeper) :
    ReadsAmong (signed deeper) := by
  intro ts
  refine .look consumes_here fun sign hsign => ?_
  -- Both signs are read alike, with an operand behind them.
  have hunary (t : Placed) (op : UnaryOp) (hsign : sign = t.span) (rest : List Placed) :
      Consumes (do
        let operand ← deeper
        node (sign.cover operand.span) [operand] (.unary · op operand.expr)) rest
          fun m read => Among [m.expr] ([t] ++ read) := by
    subst hsign
    refine .bind (hdeeper rest) fun operand us rest hoperand => ?_
    refine consumes_node.weaken fun m vs ⟨hvs, ⟨id, hm⟩, _⟩ => ?_
    subst hvs
    have hnode : Among [.unary ⟨id, t.span.cover operand.span⟩ op operand.expr]
      ([t] ++ us ++ []) :=
        .node [t] [] t.span operand.span hoperand rfl rfl rfl nofun
    simpa [hm] using hnode
  refine .bindOn consumes_accept fun bang us rest hts hus => ?_
  cases bang with
  | true =>
    obtain ⟨span, ht, rfl⟩ := hus
    exact hunary ⟨.symbol .bang, span⟩ .not (hsign _ ht) rest
  | false =>
    obtain rfl : us = [] := hus
    obtain rfl : ts = rest := hts
    refine .bind consumes_accept fun minus us rest hus => ?_
    cases minus with
    | false =>
      obtain rfl : us = [] := hus
      exact readsAmong_postfixed (readsAmong_binary hdeeper loosest) rest
    | true =>
      obtain ⟨span, ht, rfl⟩ := hus
      refine .look consumes_leastIntLiteral? fun found hfound => ?_
      cases found with
      | none => exact hunary ⟨.symbol .minus, span⟩ .negate (hsign _ ht) rest
      | some digits =>
        obtain ⟨text, hdigits⟩ := hfound digits rfl
        obtain rfl : sign = span := hsign _ ht
        refine .bind (consumes_skip hdigits) fun _ us rest hus => ?_
        subst hus
        refine consumes_node.weaken fun m vs ⟨hvs, ⟨id, hm⟩, _⟩ => ?_
        subst hvs
        have hnode : Among [.literal ⟨id, sign.cover digits⟩ (.int Int64.minValue)]
          ([⟨.symbol .minus, sign⟩, ⟨.int Int64.minValue.toInt.natAbs text, digits⟩] ++ [] ++ []) :=
          .node [_, _] [] sign digits .nil rfl rfl rfl nofun
        simpa [hm] using hnode

theorem readsAmong_operand : ∀ depth, ReadsAmong (operand depth)
  | 0 => fun _ => consumes_fail
  | depth + 1 => readsAmong_signed (readsAmong_operand depth)

theorem consumes_expression : Consumes expression ts fun e read => Among [e] read := by
  have hmeasured : ReadsAmong measured :=
    readsAmong_binary (readsAmong_operand maxNesting) loosest
  refine .bind (hmeasured ts) fun m us rest hm => .pure ?_
  rwa [List.append_nil]

theorem consumes_completeExpression :
    Consumes completeExpression ts fun e read => Among [e] read := by
  refine .skim (fun _ _ _ => .behind) points_ensureNotEmpty fun _ rest => ?_
  refine .bind consumes_expression fun e us rest he => ?_
  refine .bind (.of_points points_expectEnd) fun _ vs rest _ => .pure ?_
  rw [List.append_nil]
  exact he.more (List.sublist_append_left us vs)

theorem consumes_nextIdent? : Consumes nextIdent? ts fun found us =>
    us = [] ∧ ∀ name, found = some name → ∃ span, ts.head? = some ⟨.ident name, span⟩ := by
  refine .look consumes_next? fun token htoken => ?_
  split
  · next name =>
    refine .pure ⟨rfl, fun name' hname => ?_⟩
    obtain rfl := Option.some.inj hname
    exact exists_head_of_next? htoken
  · exact .pure ⟨rfl, fun _ h => nomatch h⟩

theorem consumes_loopName : Consumes loopName ts fun binding read => Among [binding.expr] read := by
  refine .look consumes_nextIdent? fun found hfound => ?_
  split
  · next name =>
    split
    · exact consumes_fail
    · obtain ⟨place, ht⟩ := hfound name rfl
      refine .look consumes_here fun span hspan => .bind (consumes_skip ht) fun _ us rest hus => ?_
      subst hus
      refine .look consumes_freshId fun id _ => .pure ?_
      rw [List.append_nil]
      refine among_leaf rfl (hspan _ ht) fun mark ident heq => ?_
      cases heq
      rfl
  · exact consumes_fail

theorem consumes_loopHeader :
    Consumes loopHeader ts fun header read => Among (loopExprs header) read := by
  refine .bind consumes_loopName fun element us rest helement => ?_
  refine .bind (.of_points points_accept) fun comma vs rest _ => ?_
  have helement := helement.more (List.sublist_append_left us vs)
  -- What follows the element is read alike whether there is an index or not.
  have hfollows {index : Reader (Option Binding)} {rest : List Placed}
      (hindex : Consumes index rest fun index read =>
        Among (index.toList.map Binding.expr) read) : Consumes (do
      let index ← index
      if (← nextIdent?) = some "in" then
        skip
        let iterable ← completeExpression
        return (element, index, iterable)
      else fail .invalidForHeader) rest fun header read =>
        Among (loopExprs header) (us ++ (vs ++ read)) := by
    refine .bind hindex fun index ws rest hindex => ?_
    refine .look consumes_nextIdent? fun found _ => ?_
    split
    · refine .bind (.of_points points_skip) fun _ xs rest _ => ?_
      refine .bind consumes_completeExpression fun e ys rest he => .pure ?_
      have hall := (helement.append hindex).append (he.more (List.sublist_append_right xs ys))
      simpa [loopExprs] using hall
    · exact consumes_fail
  dsimp only
  split
  · have hsome : Consumes (some <$> loopName) rest fun index read =>
        Among (index.toList.map Binding.expr) read := by
      rw [← bind_pure_comp]
      refine .bind consumes_loopName fun index ws rest hindex => .pure ?_
      rwa [List.append_nil]
    exact hfollows hsome
  · exact hfollows (.pure .nil)

theorem consumes_arguments : ∀ fuel ts, Consumes (arguments fuel) ts
    fun args read => Among (args.map Argument.value) read
  | 0, ts => .pure .nil
  | fuel + 1, ts => by
    refine .skim (fun _ _ _ => .behind) points_argumentName? fun name rest => ?_
    refine .skim (fun _ _ _ => .behind) points_ensureNotEmpty fun _ rest => ?_
    refine .bind consumes_expression fun value us rest hvalue => ?_
    refine .bind (.of_points points_accept) fun comma vs rest _ => ?_
    have hvalue := hvalue.more (List.sublist_append_left us vs)
    cases comma with
    | false => exact .pure (by rwa [List.append_nil])
    | true =>
      refine .bind (consumes_arguments fuel rest) fun args ws rest hargs => .pure ?_
      have hall := hvalue.append hargs
      simpa using hall

theorem consumes_inclusionArgs :
    Consumes inclusionArgs ts fun args read => Among (args.map Argument.value) read := by
  refine .skim (fun _ _ _ => .behind) points_next? fun token rest => ?_
  split
  · exact .pure .nil
  · refine .skim (fun _ _ _ => .behind) points_get fun c rest => ?_
    refine .bind (consumes_arguments _ rest) fun args us rest hargs => ?_
    refine .bind (.of_points points_expectEnd) fun _ vs rest _ => .pure ?_
    rw [List.append_nil]
    exact hargs.more (List.sublist_append_left us vs)

theorem consumes_paramDecl (span : Span) : Consumes (paramDecl span) ts fun decl read =>
    decl.span = span ∧ Among decl.default.toList read := by
  have hmore (decl : ParamDecl) (us vs : List Placed)
      (h : decl.span = span ∧ Among decl.default.toList vs) :
      decl.span = span ∧ Among decl.default.toList (us ++ vs) := ⟨h.1, h.2.behind⟩
  -- The end is the same with a default as without one.
  have hend (decl : ParamDecl) (us rest : List Placed)
      (h : decl.span = span ∧ Among decl.default.toList us) : Consumes (do
        if (← next?).isSome then fail .invalidParam
        return decl) rest fun decl read =>
          decl.span = span ∧ Among decl.default.toList (us ++ read) := by
    refine .look consumes_next? fun token _ => ?_
    dsimp only
    split
    · exact consumes_fail_bind
    · exact .pure (by rwa [List.append_nil])
  refine .skim hmore points_nextIdent? fun first rest => ?_
  dsimp only
  split
  · exact consumes_fail_bind
  · refine .skim hmore (points_typeAt maxNesting) fun type rest => ?_
    refine .skim hmore points_nextIdent? fun name rest => ?_
    split
    · exact consumes_fail
    · refine .skim hmore points_skip fun _ rest => .skim hmore points_accept fun assign rest => ?_
      split
      · refine .skim hmore points_ensureNotEmpty fun _ rest => ?_
        have hdefault : Consumes (some <$> expression) rest
            fun default read => Among default.toList read := by
          rw [← bind_pure_comp]
          refine .bind consumes_expression fun e us rest he => .pure ?_
          rwa [List.append_nil]
        exact .bind hdefault fun default us rest h => hend _ us rest ⟨rfl, h⟩
      · have hnone : Consumes (pure none) rest fun default read =>
          Among (Option.toList default) read := .pure .nil
        exact .bind hnone fun default us rest h => hend _ us rest ⟨rfl, h⟩

end Expressions

-- The tokens of code are in a row.
theorem row_of_tokens {pos : Nat} {cs : List Char} {ts : List Placed}
    (hgood : ∀ n, Boundary pos cs n → good n) (h : tokens pos cs = .ok ts) :
    Row good pos (pos + byteLength cs) (ts.map (·.span)) := by
  fun_induction tokens pos cs generalizing ts with
  | case1 =>
    obtain rfl := Except.ok.inj h
    exact .nil (Nat.le_refl _)
  | case2 pos c rest hc ih =>
    have hsize := utf8Size_of_blank hc
    have hrest := ih (fun n hn => hgood n (Boundary.cons (by rwa [hsize]))) h
    rw [byteLength_cons, hsize, ← Nat.add_assoc]
    exact hrest.widen (Nat.le_add_right _ _) (Nat.le_refl _)
  | case3 => cases h
  | case4 pos c rest hc l hlexeme _ ih =>
    obtain ⟨ts, hts, rfl⟩ := exists_of_map_eq_ok h
    obtain ⟨word, hcode, hstop, hword⟩ := spells_of_lexeme hlexeme
    obtain ⟨d, more, rfl, -⟩ := hword.begins
    have hpos := d.utf8Size_pos
    have hnext : Row good l.stop (l.stop + byteLength l.rest) (ts.map (·.span)) :=
      ih (fun n hn => hgood n (by rw [hcode]; exact (hstop ▸ hn).behind)) hts
    rw [hcode, byteLength_append, ← Nat.add_assoc, ← hstop]
    have hne : pos < l.stop := by
      rw [hstop, byteLength_cons]
      omega
    exact ⟨hgood pos (boundary_start _ _), Nat.le_refl _, hne, hnext⟩

-- Each token has its word where its span says.
theorem exists_word_of_mem_tokens {pos : Nat} {cs : List Char} {ts : List Placed}
    (h : tokens pos cs = .ok ts) {t : Placed} (ht : t ∈ ts) :
    ∃ before word after, cs = before ++ word ++ after ∧ Written t.token.word word ∧
      t.span = ⟨pos + byteLength before, pos + byteLength before + byteLength word⟩ := by
  fun_induction tokens pos cs generalizing ts with
  | case1 =>
    obtain rfl := Except.ok.inj h
    cases ht
  | case2 pos c rest hc ih =>
    obtain ⟨before, word, after, rfl, hword, hspan⟩ := ih h ht
    refine ⟨c :: before, word, after, rfl, hword, ?_⟩
    rw [hspan, byteLength_cons, utf8Size_of_blank hc, Nat.add_assoc]
  | case3 => cases h
  | case4 pos c rest hc l hlexeme _ ih =>
    obtain ⟨ts, hts, rfl⟩ := exists_of_map_eq_ok h
    obtain ⟨word, hcode, hstop, hword⟩ := spells_of_lexeme hlexeme
    rcases List.mem_cons.mp ht with rfl | ht
    · exact ⟨[], word, l.rest, hcode, hword, by rw [hstop]; rfl⟩
    · obtain ⟨before, word', after, hrest, hword', hspan⟩ := ih hts ht
      refine ⟨word ++ before, word', after, by rw [hcode, hrest]; simp, hword', ?_⟩
      rw [hspan, hstop, byteLength_append, Nat.add_assoc]

-- What is read from a slice is read from tokens in it.
theorem exists_read_of_runOn {α : Type} {reader : Reader α} {slice : Slice} {n m : Nat} {a : α}
    {post : α → List Placed → Prop} (hreader : ∀ ts, Consumes reader ts post)
    (h : reader.runOn slice n = .ok (a, m)) : ∃ ts read,
      tokens slice.start slice.chars = .ok ts ∧ read.Sublist ts ∧ post a read := by
  obtain ⟨ts, c, htokens, hrun, -⟩ := exists_run_of_runOn h
  obtain ⟨read, rfl, hpost⟩ := hreader ts _ _ _ _ hrun
  exact ⟨_, read, htokens, List.sublist_append_left _ _, hpost⟩

end Code

end Stencil
