import Stencil.Proofs.Expr.Reads
import Stencil.Proofs.Number.Words

/-!
Reading undoes writing: the words of an expression are read as that expression, whatever may follow
it. How far a reader may still descend is compared with the height of what it reads.
-/

namespace Stencil

namespace Code

open Reader

variable {rest : List Placed}

theorem reads_nextOperator? {looseness : Nat} {first : Option Word}
    (h : (words rest).head? = first) :
    Reads (nextOperator? looseness) [] rest fun op => op = first.bind fun
      | .symbol s => (Symbol.binary? s).filter (·.looseness == looseness)
      | _ => none := by
  refine .bind_last (reads_next? h) fun t ht => ?_
  subst ht
  cases t with
  | none => exact .pure rfl
  | some t => cases t <;> exact .pure rfl

-- No operator of this looseness follows.
theorem reads_chain_end {operand : Reader Measured} {looseness : Nat}
    (h : Ends (looseness + 1) (words rest)) (fuel : Nat) (lhs : Measured) :
    Reads (chain operand looseness fuel lhs) [] rest (· = lhs) := by
  cases fuel with
  | zero => exact .pure rfl
  | succ fuel =>
    refine .bind_last (reads_nextOperator? rfl) fun op hop => ?_
    have hnone : op = none := by
      rw [hop, Option.bind_eq_none_iff]
      intro w hw
      cases w with
      | symbol s =>
        refine Option.filter_eq_none_iff.2 fun op hop hloose => ?_
        have hle := (h s hw).2 op hop
        have heq := beq_iff_eq.1 hloose
        omega
      | _ => rfl
    rw [hnone]
    exact .pure rfl

theorem Made.binary {op : BinaryOp} {lhs rhs : Expr} {l r whole : Measured} (hl : Made lhs l)
    (hr : Made rhs r) {mark mark' : Mark} (hwhole : whole.expr = .binary mark' op l.expr r.expr)
    (hheight : whole.height = max l.height r.height + 1) :
    Made (.binary mark op lhs rhs) whole := by
  constructor
  · rw [hwhole, Expr.unmarked, Expr.unmarked, hl.1, hr.1]
  · rw [hheight, hl.2, hr.2, Expr.height]

-- An operator of this looseness follows, and its right operand.
theorem reads_chain_step {operand : Reader Measured} (mark : Mark) {op : BinaryOp}
    {lhs rhs : Expr} (hrhs : ReadsAt operand op.looseness rhs)
    (hlimit : (Expr.binary mark op lhs rhs).height ≤ maxNesting) {ws : List Word}
    (hends : Ends op.looseness (ws ++ words rest)) {post : Measured → Prop} {fuel : Nat}
    (hgo : ∀ whole, Made (.binary mark op lhs rhs) whole →
      Reads (chain operand op.looseness fuel whole) ws rest post)
    {l : Measured} (hl : Made lhs l) :
    Reads (chain operand op.looseness (fuel + 1) l)
      (.symbol op.sign :: (rhs.wordsAt op.looseness ++ ws)) rest post := by
  refine .look (fun next hnext => reads_nextOperator? (head_words hnext)) fun found hfound => ?_
  have hop : found = some op := by
    rw [hfound, Option.bind_some]
    simp [binary?_sign]
  rw [hop]
  refine .bind_word (fun _ _ => reads_skip) fun _ _ => ?_
  refine .bind (fun next hnext => hrhs _ (by rwa [words_append, hnext])) fun r hr => ?_
  refine .look (fun _ _ => reads_node (Expr.binary mark op lhs rhs).height ?_ hlimit) ?_
  · rw [tallest_pair, hl.2, hr.2, Expr.height]
  · rintro whole ⟨⟨mark', hwhole⟩, hheight⟩
    refine hgo whole (hl.binary hr hwhole ?_)
    rw [hheight, Expr.height, hl.2, hr.2]

-- An expression that can be read where operands may be as high as `depth`: it is no higher, or has
-- an operator that may stand there, over operands that are no higher.
structure Fits (depth limit : Nat) (e : Expr) : Prop where
  writable : e.Writable
  height : e.height ≤ maxNesting
  deep : e.height ≤ depth ∨ 2 ≤ e.rank ∧ e.rank ≤ limit ∧ e.height ≤ depth + 1

theorem Fits.operands {depth limit : Nat} {mark : Mark} {op : BinaryOp} {lhs rhs : Expr}
    (h : Fits depth limit (.binary mark op lhs rhs)) (limit' : Nat) :
    Fits depth limit' lhs ∧ Fits depth limit' rhs := by
  obtain ⟨⟨hlhs, hrhs⟩, hheight, hdeep⟩ := h
  simp only [Expr.height] at hheight hdeep
  exact ⟨⟨hlhs, by omega, .inl (by omega)⟩, ⟨hrhs, by omega, .inl (by omega)⟩⟩

theorem Fits.tighter {depth limit : Nat} {e : Expr} (h : Fits depth (limit + 1) e)
    (hrank : e.rank ≠ limit + 1) : Fits depth limit e :=
  ⟨h.writable, h.height, h.deep.imp_right fun ⟨htwo, hle, hheight⟩ => ⟨htwo, by omega, hheight⟩⟩

-- Operators of one looseness in a row, read from the left: the induction goes down the left
-- operands and hands what follows to the operator above.
theorem reads_row {operand : Reader Measured} {depth looseness : Nat}
    (hoperand : ∀ e, Fits depth (looseness + 1) e →
      ReadsAt (binary operand looseness) (looseness + 1) e)
    {e : Expr} (he : Fits depth (looseness + 2) e) (ws : List Word) {post : Measured → Prop}
    (hends : Ends (looseness + 1) (ws ++ words rest))
    (hgo : ∀ lhs fuel, Made e lhs → (ws ++ words rest).length ≤ fuel →
      Reads (chain (binary operand looseness) (looseness + 1) fuel lhs) ws rest post) :
    Reads (binary operand (looseness + 1)) (e.wordsAt (looseness + 2) ++ ws) rest post := by
  by_cases hrank : e.rank = looseness + 2
  · obtain ⟨mark, op, lhs, rhs, rfl⟩ := exists_binary_of_rank (show 2 ≤ e.rank by omega)
    have hop : op.looseness = looseness + 1 := by
      simp only [Expr.rank] at hrank
      omega
    obtain ⟨hlhs, hrhs⟩ := he.operands (looseness + 2)
    have hwords : (Expr.binary mark op lhs rhs).wordsAt (looseness + 2) ++ ws =
        lhs.wordsAt (looseness + 2) ++
          (.symbol op.sign :: (rhs.wordsAt (looseness + 1) ++ ws)) := by
      rw [wordsAt_of_le (Nat.le_of_eq hrank), words_binary, hop]
      simp
    rw [hwords]
    refine reads_row hoperand hlhs _ (ends_sign (Nat.le_of_eq hop.symm) _) fun l fuel hl hfuel => ?_
    simp only [List.length_cons, List.length_append, List.cons_append] at hfuel
    obtain ⟨fuel, rfl⟩ : ∃ m, fuel = m + 1 := ⟨fuel - 1, by omega⟩
    have hright : ReadsAt (binary operand looseness) op.looseness rhs := by
      rw [hop]
      exact hoperand rhs (he.operands (looseness + 1)).2
    have hstep := reads_chain_step mark hright he.height (by rwa [hop])
      (fun whole hwhole => hop ▸ hgo whole fuel hwhole (by rw [List.length_append]; omega)) hl
    rwa [hop] at hstep
  · rw [wordsAt_succ hrank]
    refine .bind (fun next hnext => hoperand e (he.tighter hrank) _ ?_) fun lhs hlhs => ?_
    · rwa [words_append, hnext]
    · refine .look (fun next hnext => reads_tokenCount (by rw [words_append, hnext])) ?_
      rintro fuel rfl
      exact hgo lhs _ hlhs (Nat.le_refl _)
termination_by e.height
decreasing_by
  rw [‹e = Expr.binary mark op lhs rhs›, Expr.height]
  omega

theorem readsAt_binary {operand : Reader Measured} {depth : Nat}
    (hoperand : ∀ e : Expr, e.Writable → e.height ≤ maxNesting → e.height ≤ depth →
      ReadsAt operand 1 e) :
    ∀ (looseness : Nat) {e : Expr}, Fits depth (looseness + 1) e →
      ReadsAt (binary operand looseness) (looseness + 1) e
  | 0, e, he => by
    rcases he.deep with hheight | ⟨htwo, hone, -⟩
    · exact hoperand e he.writable he.height hheight
    · omega
  | looseness + 1, e, he => by
    intro rest hends
    rw [← List.append_nil (e.wordsAt _)]
    refine reads_row (fun e => readsAt_binary hoperand looseness) he []
      (hends.mono (Nat.le_succ _)) fun lhs fuel hlhs _ => ?_
    exact (reads_chain_end hends fuel lhs).weaken fun m hm => hm ▸ hlhs

-- Expressions as they were to be read.
abbrev AllMade (es : List Expr) (ms : List Measured) : Prop := List.Forall₂ Made es ms

theorem AllMade.unmarked {es : List Expr} {ms : List Measured} (h : AllMade es ms) :
    Expr.unmarkedAll (ms.map (·.expr)) = Expr.unmarkedAll es := by
  induction h with
  | nil => rfl
  | cons hm _ ih => simp only [List.map_cons, Expr.unmarkedAll, hm.1, ih]

theorem AllMade.tallest {es : List Expr} {ms : List Measured} (h : AllMade es ms) :
    tallest ms = Expr.heightOfAll es := by
  induction h with
  | nil => rfl
  | cons hm _ ih => rw [tallest_cons, Expr.heightOfAll, hm.2, ih]

theorem ne_of_opens {w : Word} (h : w.opens) {s : Symbol} (hs : Word.opens (.symbol s) = false) :
    w ≠ .symbol s := by
  rintro rfl
  rw [hs] at h
  cases h

theorem head_of_phrase {ws : List Word} (h : Phrase ws) {s : Symbol}
    (hs : Word.opens (.symbol s) = false) (us : List Word) :
    (ws ++ us).head? ≠ some (.symbol s) := by
  cases ws with
  | nil => cases h.first
  | cons w ws => exact fun heq => ne_of_opens h.first hs (Option.some.inj heq)

section Items

variable {item : Reader Measured} {close : Symbol}

theorem reads_commaSeparated (hclose : close = .closeParen ∨ close = .closeBracket)
    (hrest : (words rest).head? = some (.symbol close)) :
    ∀ (es : List Expr) (e : Expr) (fuel : Nat),
      (∀ e' ∈ e :: es, ReadsAt item (loosest + 1) e') →
      (Expr.wordsOfAll (e :: es)).length ≤ fuel →
      Reads (commaSeparated item fuel) (Expr.wordsOfAll (e :: es)) rest (AllMade (e :: es)) := by
  intro es e fuel hitem hfuel
  have hne : (words rest).head? ≠ some (.symbol .comma) := by
    rw [hrest]
    rcases hclose with rfl | rfl <;> simp
  have hends : Ends (loosest + 1) (words rest) := by
    cases hwords : words rest with
    | nil => exact ends_nil _
    | cons w ws =>
      rw [hwords] at hrest
      obtain rfl : w = .symbol close := Option.some.inj hrest
      rcases hclose with rfl | rfl <;> exact ends_symbol _ (by decide) rfl ws
  have hfirst (next : List Placed) (hnext : Ends (loosest + 1) (words next)) :
      Reads item e.words next (Made e) := by
    have hread := hitem e List.mem_cons_self next hnext
    rwa [wordsAt_loosest] at hread
  induction es generalizing e fuel with
  | nil =>
    have hone (m : Measured) (hm : Made e m) : AllMade [e] [m] := .cons hm .nil
    cases fuel with
    | zero => exact .bind_last (hfirst rest hends) fun m hm => .pure (hone m hm)
    | succ fuel =>
      refine .bind_last (hfirst rest hends) fun m hm => ?_
      refine .bind_last (reads_accept_not hne) fun comma hcomma => ?_
      rw [hcomma]
      exact .pure (hone m hm)
  | cons e' es ih =>
    have hwords : Expr.wordsOfAll (e :: e' :: es) =
        e.words ++ .symbol .comma :: Expr.wordsOfAll (e' :: es) := rfl
    rw [hwords] at hfuel ⊢
    simp only [List.length_append, List.length_cons] at hfuel
    obtain ⟨fuel, rfl⟩ : ∃ m, fuel = m + 1 := ⟨fuel - 1, by omega⟩
    refine .bind (fun next hnext => hfirst _ ?_) fun m hm => ?_
    · rw [words_append, hnext]
      exact ends_symbol _ (by decide) rfl _
    · refine .bind_word (fun _ _ => reads_accept) fun comma hcomma => ?_
      rw [hcomma, if_pos rfl]
      refine .bind_last (ih e' fuel (fun e'' he => hitem e'' (List.mem_cons_of_mem e he)) (by omega)
        fun next hnext => ?_) fun ms hms => .pure (.cons hm hms)
      have hread := hitem e' (by simp) next hnext
      rwa [wordsAt_loosest] at hread

theorem reads_items (hclose : close = .closeParen ∨ close = .closeBracket)
    (hrest : (words rest).head? = some (.symbol close)) {es : List Expr}
    (hitem : ∀ e ∈ es, ReadsAt item (loosest + 1) e) :
    Reads (items item close) (Expr.wordsOfAll es) rest (AllMade es) := by
  cases es with
  | nil =>
    refine .bind_last (reads_atSymbol hrest) fun found hfound => ?_
    rw [hfound.2 rfl]
    exact .pure .nil
  | cons e es =>
    have hphrase : Phrase (Expr.wordsOfAll (e :: es)) :=
      (phrase_wordsOfAll (e :: es)).resolve_left (by simp)
    have hopens : Word.opens (.symbol close) = false := by rcases hclose with rfl | rfl <;> rfl
    refine .look (fun next hnext => reads_atSymbol (by rw [words_append, hnext])) ?_
    intro found hfound
    rw [if_neg fun htrue => head_of_phrase hphrase hopens (words rest) (hfound.1 htrue)]
    refine .look (fun next hnext => reads_tokenCount (by rw [words_append, hnext])) ?_
    rintro fuel rfl
    exact reads_commaSeparated hclose hrest es e _ hitem (by rw [List.length_append]; omega)

end Items

theorem reads_literal {span : Span} {value : Literal} (mark : Mark) (w : Word) :
    Reads (literal span value) [w] rest (Made (.literal mark value)) := by
  refine .bind_last reads_skip fun _ _ => ?_
  refine (reads_node 1 rfl (by decide)).weaken ?_
  rintro m ⟨⟨mark', hm⟩, hheight⟩
  exact ⟨by rw [hm]; rfl, hheight⟩

theorem word?_natAbs {n : Int64} (h : 0 ≤ n.toInt) :
    Number.word? (n.toInt.natAbs : Nat) = some n := by
  rw [Int.natAbs_of_nonneg h, Number.word?_toInt]

-- A literal without a sign.
theorem reads_primary_literal {expr : Reader Measured} (mark : Mark) {value : Literal}
    (hvalue : value.Writable) (hrank : (Expr.literal mark value).rank = 0) :
    Reads (primary expr) value.words rest (Made (.literal mark value)) := by
  -- One word is looked at, and the literal is read from it.
  have hword {w : Word} {k : Span → Option Token → Reader Measured}
      (hk : ∀ span t, t.word = w →
        Reads (k span (some t)) [w] rest (Made (.literal mark value))) :
      Reads (do k (← here) (← next?)) [w] rest (Made (.literal mark value)) := by
    refine .look (fun _ _ => reads_here) fun span _ => ?_
    refine .look (fun next hnext => reads_next? (head_words hnext)) fun t ht => ?_
    obtain ⟨token, rfl, htoken⟩ := Option.map_eq_some_iff.1 ht
    exact hk span token htoken
  cases value with
  | null =>
    refine hword fun span t ht => ?_
    obtain rfl := eq_ident_of_word ht
    exact reads_literal mark _
  | bool b =>
    cases b with
    | true =>
      refine hword fun span t ht => ?_
      obtain rfl := eq_ident_of_word ht
      exact reads_literal mark _
    | false =>
      refine hword fun span t ht => ?_
      obtain rfl := eq_ident_of_word ht
      exact reads_literal mark _
  | int n =>
    have hleast : n ≠ Int64.minValue := by
      rintro rfl
      cases hrank
    have hsize : 0 ≤ n.toInt := hvalue.resolve_right hleast
    have hwords : Literal.words (.int n) = [.int n.toInt.natAbs] := if_neg hleast
    rw [hwords]
    refine hword fun span t ht => ?_
    cases t with
    | int magnitude digits =>
      obtain rfl := Word.int.inj ht
      simp only [word?_natAbs hsize]
      exact reads_literal mark _
    | _ => cases ht
  | float x =>
    refine hword fun span t ht => ?_
    cases t with
    | float y =>
      obtain rfl := Word.float.inj ht
      exact reads_literal mark _
    | _ => cases ht
  | text s =>
    refine hword fun span t ht => ?_
    cases t with
    | text s' =>
      obtain rfl := Word.text.inj ht
      exact reads_literal mark _
    | _ => cases ht

theorem reads_primary_name {expr : Reader Measured} (mark : Mark) {name : String}
    (hname : name ∉ ["true", "false", "null"]) :
    Reads (primary expr) [.ident name] rest (Made (.name mark name)) := by
  refine .look (fun _ _ => reads_here) fun span _ => ?_
  refine .look (fun next hnext => reads_next? (head_words hnext)) fun t ht => ?_
  obtain ⟨token, rfl, htoken⟩ := Option.map_eq_some_iff.1 ht
  obtain rfl := eq_ident_of_word htoken
  split
  · next h => cases h
  · next h => cases h
  · next h => cases h
  · next h =>
    cases h
    exact absurd (by decide) hname
  · next h =>
    cases h
    exact absurd (by decide) hname
  · next h =>
    cases h
    exact absurd (by decide) hname
  · next h =>
    cases h
    refine .bind_last reads_skip fun _ _ => (reads_node 1 rfl (by decide)).weaken ?_
    rintro m ⟨⟨mark', hm⟩, hheight⟩
    exact ⟨by rw [hm]; rfl, hheight⟩
  · next h => cases h
  · next h => cases h
  · next hother _ _ => exact absurd rfl (hother name)

theorem reads_primary_parens {expr : Reader Measured} {e : Expr}
    (hexpr : ReadsAt expr (loosest + 1) e) :
    Reads (primary expr) (inParens e.words) rest (Made e) := by
  refine .look (fun _ _ => reads_here) fun span _ => ?_
  refine .look (fun next hnext => reads_next? (head_words hnext)) fun t ht => ?_
  obtain ⟨token, rfl, htoken⟩ := Option.map_eq_some_iff.1 ht
  obtain rfl := eq_symbol_of_word htoken
  refine .bind_word (fun _ _ => reads_skip) fun _ _ => ?_
  rw [← wordsAt_loosest]
  refine .bind (fun next hnext => hexpr _ ?_) fun inner hinner => ?_
  · rw [words_append, hnext]
    exact ends_symbol _ (by decide) rfl _
  · exact .bind_last reads_expect fun _ _ => .pure hinner

theorem reads_primary_list {expr : Reader Measured} {mark : Mark} {items : List Expr}
    (hexpr : ∀ e ∈ items, ReadsAt expr (loosest + 1) e)
    (hlimit : (Expr.list mark items).height ≤ maxNesting) :
    Reads (primary expr) (Expr.list mark items).words rest (Made (.list mark items)) := by
  rw [Expr.words]
  refine .look (fun _ _ => reads_here) fun span _ => ?_
  refine .look (fun next hnext => reads_next? (head_words hnext)) fun t ht => ?_
  obtain ⟨token, rfl, htoken⟩ := Option.map_eq_some_iff.1 ht
  obtain rfl := eq_symbol_of_word htoken
  refine .bind_word (fun _ _ => reads_skip) fun _ _ => ?_
  refine .bind (fun next hnext => reads_items (.inr rfl) (head_words hnext) hexpr) fun es hes => ?_
  refine .bind_last reads_expect fun close _ => ?_
  refine (reads_node (Expr.list mark items).height ?_ hlimit).weaken ?_
  · rw [hes.tallest, Expr.height]
  · rintro m ⟨⟨mark', hm⟩, hheight⟩
    exact ⟨by rw [hm, Expr.unmarked, Expr.unmarked, hes.unmarked], hheight⟩

-- What may be read as an operand of a member or call: it is written without a sign and an operator,
-- or in parentheses.
structure FitsObject (depth : Nat) (e : Expr) : Prop where
  writable : e.Writable
  height : e.height ≤ maxNesting
  deep : e.rank = 0 ∧ e.height ≤ depth + 1 ∨ 0 < e.rank ∧ Fits depth (loosest + 1) e

theorem fitsObject_of_height {depth : Nat} {e : Expr} (hwritable : e.Writable)
    (hlimit : e.height ≤ maxNesting) (hheight : e.height ≤ depth) : FitsObject depth e := by
  refine ⟨hwritable, hlimit, ?_⟩
  rcases Nat.eq_zero_or_pos e.rank with hrank | hrank
  · exact .inl ⟨hrank, Nat.le_succ_of_le hheight⟩
  · exact .inr ⟨hrank, hwritable, hlimit, .inl hheight⟩

-- Expressions that are no higher than the depth that is left.
theorem fits_of_mem {depth limit : Nat} {es : List Expr} (hwritable : Expr.AllWritable es)
    (hlimit : Expr.heightOfAll es ≤ maxNesting) (hdepth : Expr.heightOfAll es ≤ depth) :
    ∀ e ∈ es, Fits depth limit e := fun e he =>
  ⟨allWritable_iff.1 hwritable e he, Nat.le_trans (height_le_of_mem he) hlimit,
    .inl (Nat.le_trans (height_le_of_mem he) hdepth)⟩

section Members

variable {expr : Reader Measured} {ws : List Word} {post : Measured → Prop} {fuel : Nat}
  {object : Expr} {o : Measured}

theorem reads_memberChain_end (h : (words rest).head? ≠ some (.symbol .dot)) (fuel : Nat)
    (object : Measured) : Reads (memberChain expr fuel object) [] rest (· = object) := by
  cases fuel with
  | zero => exact .pure rfl
  | succ fuel =>
    refine .bind_last (reads_accept_not h) fun dot hdot => ?_
    rw [hdot]
    exact .pure rfl

theorem reads_member (mark : Mark) {field : String} (ho : Made object o)
    (hlimit : (Expr.member mark object field).height ≤ maxNesting)
    (hparen : (ws ++ words rest).head? ≠ some (.symbol .openParen))
    (hgo : ∀ whole, Made (.member mark object field) whole →
      Reads (memberChain expr fuel whole) ws rest post) :
    Reads (memberChain expr (fuel + 1) o) (.symbol .dot :: .ident field :: ws) rest post := by
  refine .bind_word (fun _ _ => reads_accept) fun dot hdot => ?_
  rw [hdot, if_pos rfl]
  refine .bind_word (fun _ _ => reads_expectIdent) fun (name, nameSpan) hname => ?_
  obtain rfl : name = field := hname
  have hcall {next : List Placed} (hnext : words next = ws) :
      (words (next ++ rest)).head? ≠ some (.symbol .openParen) := by rwa [words_append, hnext]
  refine .look (fun next hnext => reads_accept_not (hcall hnext)) fun call hcall => ?_
  rw [hcall]
  refine .look (fun _ _ => reads_node (Expr.member mark object name).height ?_ hlimit) ?_
  · rw [tallest_cons, ho.2]
    simp [tallest, Expr.height]
  · rintro whole ⟨⟨mark', hwhole⟩, hheight⟩
    exact hgo whole ⟨by rw [hwhole, Expr.unmarked, Expr.unmarked, ho.1], hheight⟩

theorem reads_call (mark : Mark) {method : String} {args : List Expr} (ho : Made object o)
    (hargs : ∀ e ∈ args, ReadsAt expr (loosest + 1) e)
    (hlimit : (Expr.call mark object method args).height ≤ maxNesting)
    (hgo : ∀ whole, Made (.call mark object method args) whole →
      Reads (memberChain expr fuel whole) ws rest post) :
    Reads (memberChain expr (fuel + 1) o)
      (.symbol .dot :: .ident method :: .symbol .openParen ::
        (Expr.wordsOfAll args ++ .symbol .closeParen :: ws)) rest post := by
  refine .bind_word (fun _ _ => reads_accept) fun dot hdot => ?_
  rw [hdot, if_pos rfl]
  refine .bind_word (fun _ _ => reads_expectIdent) fun (name, nameSpan) hname => ?_
  obtain rfl : name = method := hname
  refine .bind_word (fun _ _ => reads_accept) fun call hcall => ?_
  rw [hcall, if_pos rfl]
  refine .bind (fun next hnext => reads_items (.inl rfl) (head_words hnext) hargs) fun ms hms => ?_
  refine .bind_word (fun _ _ => reads_expect) fun close _ => ?_
  refine .look (fun _ _ => reads_node (Expr.call mark object name args).height ?_ hlimit) ?_
  · rw [tallest_cons, ho.2, hms.tallest, Expr.height]
  · rintro whole ⟨⟨mark', hwhole⟩, hheight⟩
    exact hgo whole ⟨by rw [hwhole, Expr.unmarked, Expr.unmarked, ho.1, hms.unmarked], hheight⟩

end Members

-- Members and calls in a row, read from the left: the induction goes down the objects and hands
-- what follows to the member above.
theorem reads_members {expr : Reader Measured} {depth : Nat}
    (hexpr : ∀ e, Fits depth (loosest + 1) e → ReadsAt expr (loosest + 1) e) {e : Expr}
    (he : FitsObject depth e) (ws : List Word) {post : Measured → Prop}
    (hparen : (ws ++ words rest).head? ≠ some (.symbol .openParen))
    (hgo : ∀ object fuel, Made e object → (ws ++ words rest).length ≤ fuel →
      Reads (memberChain expr fuel object) ws rest post) :
    Reads (postfixed expr) (e.wordsAt 0 ++ ws) rest post := by
  have hprimary (h : ∀ rest, Reads (primary expr) (e.wordsAt 0) rest (Made e)) :
      Reads (postfixed expr) (e.wordsAt 0 ++ ws) rest post := by
    refine .bind (fun next hnext => h _) fun object hobject => ?_
    refine .look (fun next hnext => reads_tokenCount (by rw [words_append, hnext])) ?_
    rintro fuel rfl
    exact hgo object _ hobject (Nat.le_refl _)
  rcases he.deep with ⟨hrank, hheight⟩ | ⟨hrank, hfits⟩
  · have hwords : e.wordsAt 0 = e.words := wordsAt_of_le (Nat.le_of_eq hrank)
    have hlimit := he.height
    rw [hwords] at hprimary ⊢
    cases e with
    | literal mark value => exact hprimary fun _ => reads_primary_literal mark he.writable hrank
    | name mark name => exact hprimary fun _ => reads_primary_name mark he.writable.2
    | list mark items =>
      rw [Expr.height] at hheight hlimit
      have hitems : ∀ e ∈ items, Fits depth (loosest + 1) e :=
        fits_of_mem he.writable (by omega) (Nat.le_of_succ_le_succ hheight)
      exact hprimary fun _ => reads_primary_list (fun e hmem => hexpr e (hitems e hmem)) he.height
    | member mark object field =>
      rw [Expr.height] at hheight hlimit
      have hobject : FitsObject depth object :=
        fitsObject_of_height he.writable.1 (by omega) (by omega)
      have hsplit : (Expr.member mark object field).words ++ ws =
          object.wordsAt 0 ++ .symbol .dot :: .ident field :: ws := by
        simp [words_member]
      rw [hsplit]
      refine reads_members hexpr hobject _ (by simp) fun o fuel ho hfuel => ?_
      simp only [List.length_cons, List.length_append, List.cons_append] at hfuel
      obtain ⟨fuel, rfl⟩ : ∃ m, fuel = m + 1 := ⟨fuel - 1, by omega⟩
      refine reads_member mark ho he.height hparen fun whole hwhole => ?_
      exact hgo whole fuel hwhole (by rw [List.length_append]; omega)
    | call mark object method args =>
      obtain ⟨hwritable, -, hargs⟩ := he.writable
      rw [Expr.height] at hheight hlimit
      have hobject : FitsObject depth object :=
        fitsObject_of_height hwritable (by omega) (by omega)
      have hfits : ∀ e ∈ args, Fits depth (loosest + 1) e :=
        fits_of_mem hargs (by omega) (by omega)
      have hsplit : (Expr.call mark object method args).words ++ ws =
          object.wordsAt 0 ++ .symbol .dot :: .ident method :: .symbol .openParen ::
            (Expr.wordsOfAll args ++ .symbol .closeParen :: ws) := by
        simp [words_call]
      rw [hsplit]
      refine reads_members hexpr hobject _ (by simp) fun o fuel ho hfuel => ?_
      simp only [List.length_cons, List.length_append, List.cons_append] at hfuel
      obtain ⟨fuel, rfl⟩ : ∃ m, fuel = m + 1 := ⟨fuel - 1, by omega⟩
      refine reads_call mark ho (fun e hmem => hexpr e (hfits e hmem)) he.height
        fun whole hwhole => ?_
      exact hgo whole fuel hwhole (by rw [List.length_append]; omega)
    | unary => cases hrank
    | binary => cases hrank
  · rw [wordsAt_of_lt hrank] at hprimary ⊢
    exact hprimary fun _ => reads_primary_parens (hexpr e hfits)
termination_by e.height
decreasing_by
  all_goals
    subst e
    simp only [Expr.height]
    omega

-- What is written without a sign of its own begins with none.
theorem head_not_sign {s : Symbol} (hs : s = .bang ∨ s = .minus) (e : Expr) (us : List Word) :
    (e.wordsAt 0 ++ us).head? ≠ some (.symbol s) := by
  have hne {t : Symbol} (ht : t = .openParen ∨ t = .openBracket) (ws : List Word) :
      (Word.symbol t :: ws).head? ≠ some (.symbol s) := by
    intro h
    obtain rfl := Word.symbol.inj (Option.some.inj h)
    rcases hs with rfl | rfl <;> rcases ht with h | h <;> cases h
  rcases Nat.eq_zero_or_pos e.rank with hrank | hrank
  · rw [wordsAt_of_le (Nat.le_of_eq hrank)]
    cases e with
    | literal mark value =>
      cases value with
      | bool b => cases b <;> simp [Expr.words, Literal.words]
      | int n =>
        have hleast : n ≠ Int64.minValue := by
          rintro rfl
          cases hrank
        simp [Expr.words, Literal.words, hleast]
      | _ => simp [Expr.words, Literal.words]
    | name => simp [Expr.words]
    | list mark items => exact hne (.inr rfl) _
    | member mark object field =>
      rw [words_member, List.append_assoc]
      exact head_not_sign hs object _
    | call mark object method args =>
      rw [words_call, List.append_assoc]
      exact head_not_sign hs object _
    | unary => cases hrank
    | binary => cases hrank
  · rw [wordsAt_of_lt hrank]
    exact hne (.inl rfl) _
termination_by e.height
decreasing_by
  all_goals
    subst e
    simp only [Expr.height]
    omega

-- The digits of the least integer stand behind its sign only.
theorem head_not_least {e : Expr} (he : e.Writable) {limit : Nat} {us : List Word} {n : Nat}
    (h : (e.wordsAt limit ++ us).head? = some (.int n)) : -(n : Int) ≠ Int64.minValue.toInt := by
  rcases Nat.lt_or_ge limit e.rank with hlt | hle
  · rw [wordsAt_of_lt hlt] at h
    cases h
  · rw [wordsAt_of_le hle] at h
    cases e with
    | literal mark value =>
      cases value with
      | int m =>
        by_cases hleast : m = Int64.minValue
        · simp [Expr.words, Literal.words, hleast] at h
        · have hm : m.toInt.natAbs = n := by simpa [Expr.words, Literal.words, hleast] using h
          have hpos : 0 ≤ m.toInt := he.resolve_right hleast
          have hbounds := Number.isWord_iff_bounds.1 (Number.isWord_toInt m)
          rw [Int64.toInt_minValue]
          omega
      | bool b => cases b <;> cases h
      | _ => cases h
    | name => cases h
    | list => cases h
    | member mark object field =>
      rw [words_member, List.append_assoc] at h
      exact head_not_least he.1 h
    | call mark object method args =>
      rw [words_call, List.append_assoc] at h
      exact head_not_least he.1 h
    | unary => cases h
    | binary mark op lhs rhs =>
      rw [words_binary, List.append_assoc] at h
      exact head_not_least he.1 h
termination_by e.height
decreasing_by
  all_goals
    subst e
    simp only [Expr.height]
    omega

theorem reads_get : Reads get [] rest (·.tokens = rest) :=
  .of_run fun _ n => ⟨_, n, rfl, rfl⟩

theorem reads_leastIntLiteral?_none
    (h : ∀ n, (words rest).head? = some (.int n) → -(n : Int) ≠ Int64.minValue.toInt) :
    Reads leastIntLiteral? [] rest (· = none) := by
  refine .bind_last reads_get ?_
  rintro cursor rfl
  split
  · next n digits span following htokens =>
    have hn := h n (by rw [htokens]; rfl)
    split
    · exact .pure rfl
    · rw [if_neg hn]
      exact .pure rfl
  · exact .pure rfl

theorem reads_leastIntLiteral?_some {n : Nat} {ws : List Word} (h : words rest = .int n :: ws)
    (hn : -(n : Int) = Int64.minValue.toInt) (hdot : ws.head? ≠ some (.symbol .dot)) :
    Reads leastIntLiteral? [] rest (·.isSome) := by
  refine .bind_last reads_get ?_
  rintro cursor rfl
  split
  · next m digits span following htokens =>
    rw [htokens] at h
    obtain ⟨hm, rfl⟩ := List.cons.inj h
    obtain rfl : m = n := Word.int.inj hm
    split
    · exact absurd rfl hdot
    · rw [if_pos hn]
      exact .pure rfl
  · next hother =>
    obtain ⟨t, following, htokens, ht, -⟩ := List.map_eq_cons_iff.1 h
    obtain ⟨token, span⟩ := t
    cases token with
    | int m digits => exact absurd htokens (hother m digits span following)
    | _ => cases ht

-- An operand without a sign.
theorem reads_plain {deeper : Reader Measured} {depth : Nat}
    (hdeeper : ∀ e : Expr, e.Writable → e.height ≤ maxNesting → e.height ≤ depth →
      ReadsAt deeper 1 e) {e : Expr} (he : FitsObject depth e) (hends : Ends 1 (words rest)) :
    Reads (signed deeper) (e.wordsAt 0) rest (Made e) := by
  have hbang : (e.wordsAt 0 ++ words rest).head? ≠ some (.symbol .bang) :=
    head_not_sign (.inl rfl) e _
  have hminus : (e.wordsAt 0 ++ words rest).head? ≠ some (.symbol .minus) :=
    head_not_sign (.inr rfl) e _
  refine .look (fun _ _ => reads_here) fun sign _ => ?_
  refine .look (fun next hnext => reads_accept_not (by rwa [words_append, hnext])) fun bang h => ?_
  rw [h]
  refine .look (fun next hnext => reads_accept_not (by rwa [words_append, hnext])) fun minus h => ?_
  rw [h, ← List.append_nil (e.wordsAt 0)]
  refine reads_members (fun e => readsAt_binary hdeeper loosest) he [] ?_ ?_
  · intro hparen
    exact (hends _ hparen).1.2 rfl
  · intro object fuel hobject _
    exact (reads_memberChain_end (fun hdot => (hends _ hdot).1.1 rfl) fuel object).weaken
      fun m hm => hm ▸ hobject

-- A sign before an operand, and the least integer.
theorem reads_unary {deeper : Reader Measured} {x : Expr} (hx : ReadsAt deeper 1 x) (mark : Mark)
    (op : UnaryOp) (hwritable : x.Writable)
    (hlimit : (Expr.unary mark op x).height ≤ maxNesting) (hends : Ends 1 (words rest)) :
    Reads (signed deeper) (Expr.unary mark op x).words rest (Made (.unary mark op x)) := by
  have hnode (span : Span) (op' : UnaryOp) (m : Measured) (hm : Made x m) (hop : op' = op) :
      Reads (node span [m] (.unary · op' m.expr)) [] rest (Made (.unary mark op x)) := by
    refine (reads_node (Expr.unary mark op x).height ?_ hlimit).weaken ?_
    · rw [tallest_cons, hm.2, Expr.height]
      exact congrArg (· + 1) (Nat.max_zero _)
    · rintro whole ⟨⟨mark', hwhole⟩, hheight⟩
      exact ⟨by rw [hwhole, hop, Expr.unmarked, Expr.unmarked, hm.1], hheight⟩
  refine .look (fun _ _ => reads_here) fun sign _ => ?_
  cases op with
  | not =>
    refine .bind_word (fun _ _ => reads_accept) fun bang hbang => ?_
    rw [hbang, if_pos rfl]
    exact .bind_last (hx rest hends) fun m hm => hnode _ _ m hm rfl
  | negate =>
    refine .look (fun next hnext => reads_accept_not ?_) fun bang hbang => ?_
    · rw [words_append, hnext]
      exact fun h => by cases h
    rw [hbang, if_neg Bool.false_ne_true]
    refine .bind_word (fun _ _ => reads_accept) fun minus hminus => ?_
    rw [hminus, if_pos rfl]
    refine .look (fun next hnext => reads_leastIntLiteral?_none fun n hn => ?_) fun digits h => ?_
    · rw [words_append, hnext] at hn
      exact head_not_least hwritable hn
    rw [h]
    exact .bind_last (hx rest hends) fun m hm => hnode _ _ m hm rfl

theorem least_natAbs :
    -((Int64.minValue.toInt.natAbs : Nat) : Int) = Int64.minValue.toInt := by
  rw [Int64.toInt_minValue]
  rfl

theorem reads_leastInt {deeper : Reader Measured} (mark : Mark) (hends : Ends 1 (words rest)) :
    Reads (signed deeper) (Literal.int Int64.minValue).words rest
      (Made (.literal mark (.int Int64.minValue))) := by
  rw [Literal.words, if_pos rfl]
  refine .look (fun _ _ => reads_here) fun sign _ => ?_
  refine .look (fun next hnext => reads_accept_not ?_) fun bang hbang => ?_
  · rw [words_append, hnext]
    exact fun h => by cases h
  rw [hbang, if_neg Bool.false_ne_true]
  refine .bind_word (fun _ _ => reads_accept) fun minus hminus => ?_
  rw [hminus, if_pos rfl]
  have hdigits (next : List Placed) (hnext : words next = [.int Int64.minValue.toInt.natAbs]) :
      Reads leastIntLiteral? [] (next ++ rest) (·.isSome) := by
    have hwords : words (next ++ rest) = .int Int64.minValue.toInt.natAbs :: words rest := by
      rw [words_append, hnext]
      rfl
    exact reads_leastIntLiteral?_some hwords least_natAbs fun hdot => (hends _ hdot).1.1 rfl
  refine .look hdigits fun digits hsome => ?_
  obtain ⟨span, rfl⟩ := Option.isSome_iff_exists.1 hsome
  exact reads_literal mark _

theorem readsAt_signed {deeper : Reader Measured} {depth : Nat}
    (hdeeper : ∀ e : Expr, e.Writable → e.height ≤ maxNesting → e.height ≤ depth →
      ReadsAt deeper 1 e) {e : Expr} (he : e.Writable) (hlimit : e.height ≤ maxNesting)
    (hheight : e.height ≤ depth + 1) : ReadsAt (signed deeper) 1 e := by
  intro rest hends
  by_cases hrank : e.rank = 1
  · rw [wordsAt_of_le (Nat.le_of_eq hrank)]
    cases e with
    | unary mark op x =>
      have hx : x.height ≤ depth := Nat.le_of_succ_le_succ hheight
      exact reads_unary (hdeeper x he (Nat.le_of_succ_le hlimit) hx) mark op he hlimit hends
    | literal mark value =>
      obtain rfl : value = .int Int64.minValue := by
        cases value with
        | int n =>
          by_contra hne
          rw [Expr.rank, if_neg fun h => hne (congrArg _ h)] at hrank
          cases hrank
        | _ => cases hrank
      exact reads_leastInt mark hends
    | binary mark op lhs rhs =>
      have hpos := looseness_pos op
      rw [Expr.rank] at hrank
      omega
    | _ => cases hrank
  · rw [wordsAt_succ hrank]
    refine reads_plain hdeeper ⟨he, hlimit, ?_⟩ hends
    rcases Nat.eq_zero_or_pos e.rank with hzero | hpos
    · exact .inl ⟨hzero, hheight⟩
    · exact .inr ⟨hpos, he, hlimit, .inr ⟨by omega, rank_le e, hheight⟩⟩

theorem readsAt_operand : ∀ (depth : Nat) {e : Expr}, e.Writable → e.height ≤ maxNesting →
    e.height ≤ depth → ReadsAt (operand depth) 1 e
  | 0, e, _, _, hdepth => absurd (height_pos e) (by omega)
  | depth + 1, _, he, hlimit, hdepth =>
    readsAt_signed (fun _ => readsAt_operand depth) he hlimit hdepth

-- Every expression that is no higher than is allowed is read from its words.
theorem readsAt_measured {e : Expr} (he : e.Writable) (hlimit : e.height ≤ maxNesting) :
    ReadsAt measured (loosest + 1) e :=
  readsAt_binary (fun _ => readsAt_operand maxNesting) loosest ⟨he, hlimit, .inl hlimit⟩

theorem reads_expression {e : Expr} (he : e.Writable) (hlimit : e.height ≤ maxNesting) :
    Reads expression e.words [] fun made => made.unmarked = e.unmarked := by
  have hmeasured : Reads measured e.words [] (Made e) := by
    rw [← wordsAt_loosest]
    exact readsAt_measured he hlimit [] (ends_nil _)
  exact .bind_last hmeasured fun m hm => .pure hm.1

theorem words_ne_nil (e : Expr) : e.words ≠ [] := by
  intro hnil
  have hfirst := (phrase_words e).first
  rw [hnil] at hfirst
  cases hfirst

end Code

end Stencil
