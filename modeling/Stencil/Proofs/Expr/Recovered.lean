import Stencil.Proofs.Expr.Consumption
import Stencil.Proofs.Expr.Parentheses
import Stencil.Proofs.Expr.Tokens

/-!
What was read is what was written: the tokens that a reader takes for an expression are the words of
that expression, apart from parentheses that it could do without.
-/

namespace Stencil

namespace Code

-- Tokens as they are cut from code: each is spelled somehow.
def Token.Lawful (t : Token) : Prop := ∃ word, Written t.word word

def Lawful (ts : List Placed) : Prop := ∀ t ∈ ts, t.token.Lawful

theorem lawful_of_tokens {pos : Nat} {cs : List Char} {ts : List Placed}
    (h : tokens pos cs = .ok ts) : Lawful ts := fun t ht =>
  exists_written (laid_of_tokens h) t.token.word (List.mem_map_of_mem ht)

theorem Token.Lawful.identifier {name : String} (h : (Token.ident name).Lawful) :
    Identifier name.toList := by
  obtain ⟨word, hword⟩ := h
  cases hword with
  | ident hcs => rwa [String.toList_ofList]

theorem Token.Lawful.decimal {x : Float} (h : (Token.float x).Lawful) : ∃ cs, Decimal x cs := by
  obtain ⟨word, hword⟩ := h
  cases hword with
  | float hx => exact ⟨word, hx⟩

-- Whatever the reader gives, it fits the words that the reader has taken off the front.
def Takes {α : Type} (reader : Reader α) (ts : List Placed) (post : α → List Word → Prop) : Prop :=
  Lawful ts → ∀ stop n a c, reader.run ⟨ts, stop, n⟩ = .ok (a, c) →
    ∃ read, ts = read ++ c.tokens ∧ post a (words read)

namespace Takes

variable {α β : Type} {x : Reader α} {f : α → Reader β} {ts : List Placed}
  {taken : α → List Placed → Prop} {mid post : α → List Word → Prop} {post' : β → List Word → Prop}

theorem consumes (h : Takes x ts post) (hts : Lawful ts) :
    Consumes x ts fun a read => post a (words read) := h hts

-- What is read of lawful tokens is lawful.
theorem of_consumes (hx : Consumes x ts taken)
    (himp : ∀ a read, Lawful read → taken a read → post a (words read)) : Takes x ts post := by
  intro hts stop n a c hrun
  obtain ⟨read, rfl, htaken⟩ := hx stop n a c hrun
  have hread : Lawful read := fun t ht => hts t (List.mem_append_left c.tokens ht)
  exact ⟨read, rfl, himp a read hread htaken⟩

theorem pure {a : α} (h : post a []) : Takes (Pure.pure a) ts post := fun _ => Consumes.pure h

theorem bind (hx : Takes x ts mid)
    (hf : ∀ a ws us, mid a ws → Takes (f a) us fun b ws' => post' b (ws ++ ws')) :
    Takes (x >>= f) ts post' := by
  intro hts
  refine (hx.consumes hts).bindOn fun a read rest hsplit hmid => ?_
  subst hsplit
  have hrest : Lawful rest := fun t ht => hts t (List.mem_append_right read ht)
  refine ((hf a (words read) rest hmid).consumes hrest).weaken fun b read' hpost => ?_
  rwa [words_append]

-- The first reader takes nothing.
theorem look {info : α → Prop} (hx : Takes x ts fun a ws => ws = [] ∧ info a)
    (hf : ∀ a, info a → Takes (f a) ts post') : Takes (x >>= f) ts post' := by
  intro hts
  refine Consumes.look ((hx.consumes hts).weaken fun a read ⟨hnil, hinfo⟩ => ?_)
    fun a hinfo => (hf a hinfo).consumes hts
  exact ⟨List.map_eq_nil_iff.1 hnil, hinfo⟩

theorem weaken (h : Takes x ts mid) (himp : ∀ a ws, mid a ws → post a ws) :
    Takes x ts post := fun hts => (h.consumes hts).weaken fun a read => himp a (words read)

end Takes

theorem head?_words {t : Placed} {ts : List Placed} (h : ts.head? = some t) :
    (words ts).head? = some t.token.word := by
  rw [words, List.head?_map, h]
  rfl

-- Readers of parts that are no expressions.
namespace Reader

variable {α : Type} {ts : List Placed} {s : Symbol} {post : α → List Word → Prop}

theorem takes_next? : Takes next? ts fun t ws => ws = [] ∧
    t.map Token.word = (words ts).head? ∧ ∀ token, t = some token → token.Lawful := by
  intro hts
  refine consumes_next?.weaken fun t read ⟨hread, ht⟩ => ?_
  subst hread ht
  refine ⟨rfl, by cases ts <;> rfl, fun token htoken => ?_⟩
  obtain ⟨placed, hplaced, rfl⟩ := Option.map_eq_some_iff.1 htoken
  exact hts placed (List.mem_of_head? hplaced)

theorem takes_here : Takes here ts fun _ ws => ws = [] ∧ True :=
  .of_consumes consumes_here fun _ _ _ h => ⟨congrArg words h.1, trivial⟩

theorem takes_skip {w : Word} (h : (words ts).head? = some w) :
    Takes skip ts fun _ ws => ws = [w] := by
  rw [words, List.head?_map] at h
  obtain ⟨t, ht, rfl⟩ := Option.map_eq_some_iff.1 h
  exact .of_consumes (consumes_skip ht) fun _ _ _ => congrArg words

theorem takes_fail {defect : Defect} : Takes (fail defect) ts post := fun _ => consumes_fail

theorem takes_unexpected {expected : String} : Takes (unexpected expected) ts post :=
  fun _ => consumes_unexpected

theorem takes_atSymbol : Takes (atSymbol s) ts fun found ws => ws = [] ∧
    (found = true → (words ts).head? = some (.symbol s)) := by
  refine .of_consumes consumes_atSymbol fun found read _ ⟨hread, hfound⟩ => ?_
  refine ⟨congrArg words hread, fun hsome => ?_⟩
  obtain ⟨span, hspan⟩ := hfound hsome
  exact head?_words hspan

theorem takes_accept : Takes (accept s) ts fun found ws =>
    ws = if found then [.symbol s] else [] := by
  refine .of_consumes consumes_accept fun found read _ hread => ?_
  cases found with
  | false => exact congrArg words hread
  | true =>
    obtain ⟨span, -, rfl⟩ := hread
    rfl

theorem takes_expect : Takes (expect s) ts fun _ ws => ws = [.symbol s] :=
  .of_consumes consumes_expect fun _ _ _ => congrArg words

theorem takes_expectIdent {what : String} : Takes (expectIdent what) ts fun name ws =>
    ws = [.ident name.1] ∧ Identifier name.1.toList := by
  refine .of_consumes consumes_expectIdent fun name read hlawful hread => ?_
  subst hread
  exact ⟨rfl, (List.forall_mem_singleton.1 hlawful).identifier⟩

end Reader

open Reader

-- An expression as its words give it, where nothing looser than `limit` may stand.
structure Recovered (limit : Nat) (m : Measured) (ws : List Word) : Prop where
  writable : m.expr.Writable
  height : m.height = m.expr.height
  shallow : m.height ≤ maxNesting
  spelt : m.expr.Spelt limit ws

theorem Recovered.mono {limit limit' : Nat} {m : Measured} {ws : List Word}
    (h : Recovered limit m ws) (hle : limit ≤ limit') : Recovered limit' m ws :=
  { h with spelt := Spelt.mono h.spelt hle }

def Recovers (limit : Nat) (reader : Reader Measured) : Prop :=
  ∀ ts, Takes reader ts (Recovered limit)

theorem Recovers.mono {limit limit' : Nat} {reader : Reader Measured} (h : Recovers limit reader)
    (hle : limit ≤ limit') : Recovers limit' reader :=
  fun ts => (h ts).weaken fun _ _ hm => hm.mono hle

variable {ts : List Placed}

theorem takes_node {span : Span} {children : List Measured} {make : Mark → Expr} :
    Takes (node span children make) ts fun m ws => ws = [] ∧ (∃ mark, m.expr = make mark) ∧
      m.height = tallest children + 1 ∧ m.height ≤ maxNesting :=
  .of_consumes consumes_node fun _ _ _ ⟨hread, ⟨_, hm⟩, hheight⟩ =>
    ⟨congrArg words hread, ⟨_, hm⟩, hheight⟩

theorem takes_tokenCount : Takes tokenCount ts fun _ ws => ws = [] ∧ True :=
  .of_consumes consumes_tokenCount fun _ _ _ h => ⟨congrArg words h.1, trivial⟩

theorem eq_sign_of_binary? {s : Symbol} {op : BinaryOp} (h : Symbol.binary? s = some op) :
    s = op.sign := by
  cases s <;> cases h <;> rfl

theorem takes_nextOperator? {looseness : Nat} : Takes (nextOperator? looseness) ts fun found ws =>
    ws = [] ∧ ∀ op, found = some op →
      op.looseness = looseness ∧ (words ts).head? = some (.symbol op.sign) := by
  refine .look takes_next? fun t ⟨ht, _⟩ => ?_
  split
  · next s =>
    refine .pure ⟨rfl, fun op hop => ?_⟩
    obtain ⟨hs, hloose⟩ := Option.filter_eq_some_iff.1 hop
    rw [← ht, eq_sign_of_binary? hs]
    exact ⟨beq_iff_eq.1 hloose, rfl⟩
  · exact .pure ⟨rfl, fun op h => nomatch h⟩

theorem takes_chain {operand : Reader Measured} {looseness : Nat}
    (hoperand : Recovers looseness operand) :
    ∀ (fuel : Nat) {lhs : Measured} {ws : List Word} (ts : List Placed),
      Recovered (looseness + 1) lhs ws →
      Takes (chain operand looseness fuel lhs) ts fun m ws' =>
        Recovered (looseness + 1) m (ws ++ ws')
  | 0, lhs, ws, ts, hlhs => .pure (by rwa [List.append_nil])
  | fuel + 1, lhs, ws, ts, hlhs => by
    refine .look takes_nextOperator? fun found hfound => ?_
    cases found with
    | none => exact .pure (by rwa [List.append_nil])
    | some op =>
      obtain ⟨rfl, hsign⟩ := hfound op rfl
      refine .bind (takes_skip hsign) fun _ _ us hws => ?_
      subst hws
      refine .bind (hoperand us) fun rhs right us' hrhs => ?_
      refine .look takes_node fun whole ⟨⟨mark, hwhole⟩, hheight, hlimit⟩ => ?_
      have hnext : Recovered (op.looseness + 1) whole (ws ++ .symbol op.sign :: right) := by
        refine ⟨?_, ?_, hlimit, ?_⟩
        · rw [hwhole]
          exact ⟨hlhs.writable, hrhs.writable⟩
        · rw [hheight, tallest_pair, hwhole, hlhs.height, hrhs.height, Expr.height]
        · rw [hwhole]
          exact .binary (Nat.le_refl _) hlhs.spelt hrhs.spelt
      exact (takes_chain hoperand fuel us' hnext).weaken fun m ws' h => by simpa using h

theorem recovers_binary {operand : Reader Measured} (hoperand : Recovers 1 operand) :
    ∀ looseness, Recovers (looseness + 1) (binary operand looseness)
  | 0 => hoperand
  | looseness + 1 => fun ts => by
    have hinner := recovers_binary hoperand looseness
    refine .bind (hinner ts) fun lhs ws us hlhs => ?_
    refine .look takes_tokenCount fun count _ => ?_
    exact takes_chain hinner count us (hlhs.mono (Nat.le_succ _))

-- Expressions with commas between them.
structure AllRecovered (ms : List Measured) (ws : List Word) : Prop where
  writable : Expr.AllWritable (ms.map (·.expr))
  height : tallest ms = Expr.heightOfAll (ms.map (·.expr))
  spelt : Expr.AllSpelt (ms.map (·.expr)) ws

theorem allRecovered_nil : AllRecovered [] [] := ⟨trivial, rfl, .nil⟩

theorem Recovered.single {m : Measured} {ws : List Word} (h : Recovered (loosest + 1) m ws) :
    AllRecovered [m] ws := by
  refine ⟨⟨h.writable, trivial⟩, ?_, .single h.spelt⟩
  rw [tallest_cons, h.height]
  rfl

theorem Recovered.cons {m : Measured} {ms : List Measured} {ws ws' : List Word}
    (h : Recovered (loosest + 1) m ws) (hms : AllRecovered ms ws') (hne : ms ≠ []) :
    AllRecovered (m :: ms) (ws ++ .symbol .comma :: ws') := by
  obtain ⟨m', ms', rfl⟩ := List.exists_cons_of_ne_nil hne
  refine ⟨⟨h.writable, hms.writable⟩, ?_, .cons h.spelt hms.spelt⟩
  rw [tallest_cons, hms.height, h.height]
  rfl

theorem takes_commaSeparated {item : Reader Measured} (hitem : Recovers (loosest + 1) item) :
    ∀ (fuel : Nat) (ts : List Placed),
      Takes (commaSeparated item fuel) ts fun ms ws => ms ≠ [] ∧ AllRecovered ms ws
  | 0, ts => by
    refine .bind (hitem ts) fun m ws us hm => ?_
    exact .pure ⟨by simp, by simpa using hm.single⟩
  | fuel + 1, ts => by
    refine .bind (hitem ts) fun m ws us hm => ?_
    refine .bind takes_accept fun comma sep us' hsep => ?_
    subst hsep
    cases comma with
    | false => exact .pure ⟨by simp, by simpa using hm.single⟩
    | true =>
      refine .bind (takes_commaSeparated hitem fuel us') fun ms ws' us'' ⟨hne, hms⟩ => ?_
      exact .pure ⟨by simp, by simpa using hm.cons hms hne⟩

theorem takes_items {item : Reader Measured} {close : Symbol}
    (hitem : Recovers (loosest + 1) item) (ts : List Placed) :
    Takes (items item close) ts AllRecovered := by
  refine .look takes_atSymbol fun found _ => ?_
  split
  · exact .pure allRecovered_nil
  · refine .look takes_tokenCount fun count _ => ?_
    exact (takes_commaSeparated hitem count ts).weaken fun _ _ h => h.2

theorem takes_literal {span : Span} {value : Literal} {w : Word}
    (h : (words ts).head? = some w) : Takes (literal span value) ts fun m ws =>
      ws = [w] ∧ (∃ mark, m.expr = .literal mark value) ∧ m.height = 1 := by
  refine .bind (takes_skip h) fun _ ws us hws => ?_
  subst hws
  exact takes_node.weaken fun m ws' ⟨hws', hmark, hheight, _⟩ => ⟨by rw [hws']; rfl, hmark, hheight⟩

theorem recovered_literal {m : Measured} {mark : Mark} {value : Literal}
    (hm : m.expr = .literal mark value) (hheight : m.height = 1) (hvalue : value.Writable)
    {limit : Nat} (hrank : (Expr.literal mark value).rank ≤ limit) :
    Recovered limit m value.words where
  writable := hm ▸ hvalue
  height := by rw [hheight, hm, Expr.height]
  shallow := by rw [hheight]; decide
  spelt := hm ▸ .literal hrank

-- A literal of one word.
theorem takes_primary_literal {span : Span} {value : Literal} {w : Word}
    (h : (words ts).head? = some w) (hwords : value.words = [w]) (hvalue : value.Writable)
    (hrank : ∀ mark, (Expr.literal mark value).rank = 0) :
    Takes (literal span value) ts (Recovered 0) := by
  refine (takes_literal h).weaken fun m ws ⟨hws, ⟨mark, hm⟩, hheight⟩ => ?_
  rw [hws, ← hwords]
  exact recovered_literal hm hheight hvalue (Nat.le_of_eq (hrank mark))

theorem int_of_word? {n : Nat} {w : Int64} (h : Number.word? n = some w) :
    w ≠ Int64.minValue ∧ w.toInt = n := by
  have hw := Number.toInt_of_word? h
  refine ⟨fun hleast => ?_, hw⟩
  rw [hleast, Int64.toInt_minValue] at hw
  omega

theorem recovers_primary {expr : Reader Measured} (hexpr : Recovers (loosest + 1) expr) :
    Recovers 0 (primary expr) := by
  intro ts
  refine .look takes_here fun span _ => ?_
  refine .look takes_next? fun t hnext => ?_
  obtain ⟨ht, hlawful⟩ := hnext
  split
  · next n digits =>
    split
    · next w hw =>
      obtain ⟨hleast, hsize⟩ := int_of_word? hw
      refine takes_primary_literal ht.symm ?_ (.inl (by omega)) fun mark => if_neg hleast
      rw [Literal.words, if_neg hleast, hsize]
      rfl
    · exact takes_fail
  · exact takes_primary_literal ht.symm rfl (hlawful _ rfl).decimal fun _ => rfl
  · exact takes_primary_literal ht.symm rfl trivial fun _ => rfl
  · exact takes_primary_literal ht.symm rfl trivial fun _ => rfl
  · exact takes_primary_literal ht.symm rfl trivial fun _ => rfl
  · exact takes_primary_literal ht.symm rfl trivial fun _ => rfl
  · next name htrue hfalse hnull =>
    refine .bind (takes_skip ht.symm) fun _ ws us hws => ?_
    subst hws
    refine takes_node.weaken fun m ws' hmade => ?_
    obtain ⟨hws, ⟨mark, hm⟩, hheight, hlimit⟩ := hmade
    have hname : name ∉ ["true", "false", "null"] := by
      simpa using ⟨htrue, hfalse, hnull⟩
    refine ⟨?_, ?_, hlimit, ?_⟩
    · rw [hm]
      exact ⟨(hlawful _ rfl).identifier, hname⟩
    · rw [hheight, hm]
      rfl
    · rw [hm, hws]
      exact .name
  · refine .bind (takes_skip ht.symm) fun _ opening us hopening => ?_
    refine .bind (hexpr us) fun m inner us' hm => ?_
    refine .bind takes_expect fun _ closing us'' hclosing => ?_
    subst hopening hclosing
    exact .pure { hm with spelt := .parens hm.spelt }
  · refine .bind (takes_skip ht.symm) fun _ opening us hopening => ?_
    refine .bind (takes_items hexpr us) fun ms inner us' hms => ?_
    refine .bind takes_expect fun _ closing us'' hclosing => ?_
    subst hopening hclosing
    refine takes_node.weaken fun m ws' hmade => ?_
    obtain ⟨hws, ⟨mark, hm⟩, hheight, hlimit⟩ := hmade
    refine ⟨?_, ?_, hlimit, ?_⟩
    · rw [hm]
      exact hms.writable
    · rw [hheight, hms.height, hm, Expr.height]
    · rw [hm, hws]
      exact .list hms.spelt
  · exact takes_unexpected

theorem takes_memberChain {expr : Reader Measured} (hexpr : Recovers (loosest + 1) expr) :
    ∀ (fuel : Nat) {object : Measured} {ws : List Word} (ts : List Placed),
      Recovered 0 object ws →
      Takes (memberChain expr fuel object) ts fun m ws' => Recovered 0 m (ws ++ ws')
  | 0, object, ws, ts, hobject => .pure (by rwa [List.append_nil])
  | fuel + 1, object, ws, ts, hobject => by
    refine .bind takes_accept fun dot sep us hsep => ?_
    subst hsep
    cases dot with
    | false => exact .pure ((List.append_nil ws).symm ▸ hobject)
    | true =>
      refine .bind takes_expectIdent fun found ident us' hfound => ?_
      obtain ⟨name, nameSpan⟩ := found
      obtain ⟨hident, hname⟩ := hfound
      refine .bind takes_accept fun called opening us₁ hopening => ?_
      subst hident hopening
      cases called with
      | true =>
        refine .bind (takes_items hexpr us₁) fun args inner us₂ hargs => ?_
        refine .bind takes_expect fun _ closing us₃ hclosing => ?_
        refine .look takes_node fun whole hmade => ?_
        obtain ⟨⟨mark, hwhole⟩, hheight, hlimit⟩ := hmade
        have hnext : Recovered 0 whole (ws ++ [.symbol .dot, .ident name] ++ inParens inner) := by
          refine ⟨?_, ?_, hlimit, ?_⟩
          · rw [hwhole]
            exact ⟨hobject.writable, hname, hargs.writable⟩
          · rw [hheight, tallest_cons, hobject.height, hargs.height, hwhole, Expr.height]
          · rw [hwhole]
            exact .call hobject.spelt hargs.spelt
        subst hclosing
        exact (takes_memberChain hexpr fuel us₃ hnext).weaken fun m ws' h => by
          simpa [inParens] using h
      | false =>
        refine .look takes_node fun whole hmade => ?_
        obtain ⟨⟨mark, hwhole⟩, hheight, hlimit⟩ := hmade
        have hnext : Recovered 0 whole (ws ++ [.symbol .dot, .ident name]) := by
          refine ⟨?_, ?_, hlimit, ?_⟩
          · rw [hwhole]
            exact ⟨hobject.writable, hname⟩
          · rw [hheight, tallest_cons, hobject.height, hwhole, Expr.height]
            exact congrArg (· + 1) (Nat.max_zero _)
          · rw [hwhole]
            exact .member hobject.spelt
        exact (takes_memberChain hexpr fuel us₁ hnext).weaken fun m ws' h => by simpa using h

theorem recovers_postfixed {expr : Reader Measured} (hexpr : Recovers (loosest + 1) expr) :
    Recovers 0 (postfixed expr) := by
  intro ts
  refine .bind (recovers_primary hexpr ts) fun object ws us hobject => ?_
  refine .look takes_tokenCount fun count _ => ?_
  exact takes_memberChain hexpr count us hobject

theorem takes_leastIntLiteral? : Takes leastIntLiteral? ts fun found ws => ws = [] ∧
    (found.isSome → (words ts).head? = some (.int Int64.minValue.toInt.natAbs)) := by
  refine .of_consumes consumes_leastIntLiteral? fun found read _ ⟨hread, hfound⟩ => ?_
  refine ⟨congrArg words hread, fun hsome => ?_⟩
  obtain ⟨span, hspan⟩ := Option.isSome_iff_exists.1 hsome
  obtain ⟨digits, hdigits⟩ := hfound span hspan
  exact head?_words hdigits

theorem recovered_unary {span : Span} {op : UnaryOp} {operand : Measured} {ws : List Word}
    (hoperand : Recovered 1 operand ws) {s : Symbol} (hs : s = op.sign) :
    Takes (node span [operand] (.unary · op operand.expr)) ts fun m ws' =>
      Recovered 1 m (.symbol s :: (ws ++ ws')) := by
  refine takes_node.weaken fun m ws' ⟨hws, ⟨mark, hm⟩, hheight, hlimit⟩ => ?_
  refine ⟨?_, ?_, hlimit, ?_⟩
  · rw [hm]
    exact hoperand.writable
  · rw [hheight, tallest_cons, hoperand.height, hm, Expr.height]
    exact congrArg (· + 1) (Nat.max_zero _)
  · rw [hm, hws, hs, List.append_nil]
    exact .unary (Nat.le_refl 1) hoperand.spelt

theorem rank_least (mark : Mark) :
    (Expr.literal mark (.int Int64.minValue)).rank ≤ 1 :=
  Nat.le_of_eq (by rw [Expr.rank, if_pos rfl])

theorem recovers_signed {deeper : Reader Measured} (hdeeper : Recovers 1 deeper) :
    Recovers 1 (signed deeper) := by
  intro ts
  refine .look takes_here fun sign _ => ?_
  refine .bind takes_accept fun bang ws us hws => ?_
  subst hws
  cases bang with
  | true =>
    refine .bind (hdeeper us) fun operand ws us' hoperand => ?_
    exact recovered_unary hoperand rfl
  | false =>
    refine .bind takes_accept fun minus ws us' hws => ?_
    subst hws
    cases minus with
    | true =>
      refine .look takes_leastIntLiteral? fun found hfound => ?_
      cases found with
      | some digits =>
        refine (takes_literal (hfound rfl)).weaken fun m ws ⟨hws, ⟨mark, hm⟩, hheight⟩ => ?_
        have hleast := recovered_literal hm hheight (.inr rfl) (rank_least mark)
        rw [Literal.words, if_pos rfl] at hleast
        rw [hws]
        exact hleast
      | none =>
        refine .bind (hdeeper us') fun operand ws us'' hoperand => ?_
        exact recovered_unary hoperand rfl
    | false => exact (recovers_postfixed (recovers_binary hdeeper loosest)).mono (Nat.zero_le 1) us'

theorem recovers_operand : ∀ depth, Recovers 1 (operand depth)
  | 0 => fun _ => takes_fail
  | depth + 1 => recovers_signed (recovers_operand depth)

theorem recovers_measured : Recovers (loosest + 1) measured :=
  recovers_binary (recovers_operand maxNesting) loosest

end Code

end Stencil
