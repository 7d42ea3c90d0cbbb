import Stencil.Proofs.Effects
import Stencil.Proofs.Expr.Layouts

/-!
What a reader does where it stands at certain words: rules to put readers together, and the readers
of single words. Of the tokens only the words count, as far as they are read.
-/

namespace Stencil

namespace Code

-- The reader takes these words off the front, where `rest` follows them.
def Reads {α : Type} (reader : Reader α) (ws : List Word) (rest : List Placed)
    (post : α → Prop) : Prop :=
  ∀ read stop n, words read = ws →
    ∃ a n', reader.run ⟨read ++ rest, stop, n⟩ = .ok (a, ⟨rest, stop, n'⟩) ∧ post a

namespace Reads

variable {α β : Type} {x : Reader α} {f : α → Reader β} {w : Word} {ws ws' : List Word}
  {rest : List Placed} {post mid : α → Prop} {post' : β → Prop}

theorem pure {a : α} (h : post a) : Reads (Pure.pure a) [] rest post := by
  intro read stop n hread
  obtain rfl := List.map_eq_nil_iff.1 hread
  exact ⟨a, n, rfl, h⟩

theorem bind (hx : ∀ next, words next = ws' → Reads x ws (next ++ rest) mid)
    (hf : ∀ a, mid a → Reads (f a) ws' rest post') : Reads (x >>= f) (ws ++ ws') rest post' := by
  intro read stop n hread
  obtain ⟨first, next, rfl, hfirst, hnext⟩ := List.map_eq_append_iff.1 hread
  obtain ⟨a, n₁, hx, hmid⟩ := hx next hnext first stop n hfirst
  obtain ⟨b, n₂, hf, hpost⟩ := hf a hmid next stop n₁ hnext
  refine ⟨b, n₂, ?_, hpost⟩
  rw [List.append_assoc, run_bind_of_ok hx, hf]

-- The first reader takes one word, or none.
theorem bind_word (hx : ∀ next, words next = ws' → Reads x [w] (next ++ rest) mid)
    (hf : ∀ a, mid a → Reads (f a) ws' rest post') : Reads (x >>= f) (w :: ws') rest post' :=
  bind hx hf

theorem look (hx : ∀ next, words next = ws → Reads x [] (next ++ rest) mid)
    (hf : ∀ a, mid a → Reads (f a) ws rest post') : Reads (x >>= f) ws rest post' :=
  bind (List.nil_append ws ▸ hx) hf

-- The last reader takes nothing.
theorem bind_last (hx : Reads x ws rest mid) (hf : ∀ a, mid a → Reads (f a) [] rest post') :
    Reads (x >>= f) ws rest post' := by
  rw [← List.append_nil ws]
  refine bind (fun next hnext => ?_) hf
  obtain rfl := List.map_eq_nil_iff.1 hnext
  exact hx

theorem weaken (h : Reads x ws rest mid) (himp : ∀ a, mid a → post a) : Reads x ws rest post := by
  intro read stop n hread
  obtain ⟨a, n', hx, hmid⟩ := h read stop n hread
  exact ⟨a, n', hx, himp a hmid⟩

-- A reader that takes nothing, or one word, said by what it does where it stands.
theorem of_run (h : ∀ stop n, ∃ a n', x.run ⟨rest, stop, n⟩ = .ok (a, ⟨rest, stop, n'⟩) ∧ post a) :
    Reads x [] rest post := by
  intro read stop n hread
  obtain rfl := List.map_eq_nil_iff.1 hread
  exact h stop n

theorem of_run_cons (h : ∀ t stop n, t.token.word = w →
    ∃ a n', x.run ⟨t :: rest, stop, n⟩ = .ok (a, ⟨rest, stop, n'⟩) ∧ post a) :
    Reads x [w] rest post := by
  intro read stop n hread
  obtain ⟨t, next, rfl, ht, hnext⟩ := List.map_eq_cons_iff.1 hread
  obtain rfl := List.map_eq_nil_iff.1 hnext
  exact h t stop n ht

end Reads

theorem head_words {next rest : List Placed} {w : Word} {ws : List Word}
    (h : words next = w :: ws) : (words (next ++ rest)).head? = some w := by
  rw [words_append, h]
  rfl

theorem eq_symbol_of_word {t : Token} {s : Symbol} (h : t.word = .symbol s) : t = .symbol s := by
  cases t with
  | symbol s' => exact congrArg Token.symbol (Word.symbol.inj h)
  | _ => cases h

theorem eq_symbol_of_words {ts : List Placed} {s : Symbol}
    (h : ts.map (·.token.word) = [.symbol s]) : ∃ span, ts = [⟨.symbol s, span⟩] := by
  obtain ⟨⟨token, span⟩, rest, rfl, htoken, hrest⟩ := List.map_eq_cons_iff.1 h
  obtain rfl := List.map_eq_nil_iff.1 hrest
  obtain rfl := eq_symbol_of_word htoken
  exact ⟨span, rfl⟩

theorem eq_ident_of_word {t : Token} {name : String} (h : t.word = .ident name) :
    t = .ident name := by
  cases t with
  | ident name' => exact congrArg Token.ident (Word.ident.inj h)
  | _ => cases h

-- Readers of parts that are no expressions.
namespace Reader

variable {rest : List Placed} {s : Symbol}

theorem reads_next? {first : Option Word} (h : (words rest).head? = first) :
    Reads next? [] rest fun t => t.map Token.word = first := by
  refine .of_run fun stop n => ⟨_, n, rfl, ?_⟩
  rw [← h]
  cases rest <;> rfl

theorem reads_here : Reads here [] rest fun _ => True :=
  .of_run fun _ n => ⟨_, n, rfl, trivial⟩

theorem reads_skip {w : Word} : Reads skip [w] rest fun _ => True :=
  .of_run_cons fun _ _ n _ => ⟨(), n, rfl, trivial⟩

theorem reads_freshId : Reads freshId [] rest fun _ => True :=
  .of_run fun _ n => ⟨n, n + 1, rfl, trivial⟩

theorem reads_atSymbol {first : Option Word} (h : (words rest).head? = first) :
    Reads (atSymbol s) [] rest fun found => found = true ↔ first = some (.symbol s) := by
  refine .bind_last (reads_next? h) fun t ht => ?_
  subst ht
  cases t with
  | none => exact .pure (by simp)
  | some t =>
    cases t with
    | symbol t =>
      have hsame : (s == t) = true ↔ (some (Word.symbol t)) = some (.symbol s) := by
        rw [beq_iff_eq, Option.some.injEq, Word.symbol.injEq, eq_comm]
      exact .pure hsame
    | _ => exact .pure ⟨fun h => (by cases h), fun h => (by cases h)⟩

theorem reads_accept : Reads (accept s) [.symbol s] rest (· = true) := by
  refine .look (fun next hnext => reads_atSymbol (head_words hnext)) fun found hfound => ?_
  rw [hfound.2 rfl, if_pos rfl]
  exact .bind_last reads_skip fun _ _ => .pure rfl

theorem reads_accept_not (h : (words rest).head? ≠ some (.symbol s)) :
    Reads (accept s) [] rest (· = false) := by
  refine .bind_last (reads_atSymbol rfl) fun found hfound => ?_
  rw [if_neg fun htrue => h (hfound.1 htrue)]
  exact .pure rfl

theorem reads_expect : Reads (expect s) [.symbol s] rest fun _ => True := by
  refine .look (fun next hnext => reads_atSymbol (head_words hnext)) fun found hfound => ?_
  rw [hfound.2 rfl, if_pos rfl]
  refine .look (fun _ _ => reads_here) fun span _ => ?_
  exact .bind_last reads_skip fun _ _ => .pure trivial

theorem reads_expectIdent {what name : String} :
    Reads (expectIdent what) [.ident name] rest (·.1 = name) := by
  refine .look (fun next hnext => reads_next? (head_words hnext)) fun t ht => ?_
  obtain ⟨token, rfl, htoken⟩ := Option.map_eq_some_iff.1 ht
  obtain rfl := eq_ident_of_word htoken
  refine .look (fun _ _ => reads_here) fun span _ => ?_
  exact .bind_last reads_skip fun _ _ => .pure rfl

end Reader

open Reader

-- The expression as it was to be read, but for its marks.
def Made (e : Expr) (m : Measured) : Prop := m.expr.unmarked = e.unmarked ∧ m.height = e.height

-- What may follow an expression where nothing looser than `limit` may stand: no member of it, no
-- arguments, and no operator that it would be an operand of.
def Ends (limit : Nat) (ws : List Word) : Prop :=
  ∀ s, ws.head? = some (.symbol s) →
    (s ≠ .dot ∧ s ≠ .openParen) ∧ ∀ op, Symbol.binary? s = some op → limit ≤ op.looseness

theorem Ends.mono {limit limit' : Nat} {ws : List Word} (h : Ends limit ws)
    (hle : limit' ≤ limit) : Ends limit' ws := fun s hs =>
  ⟨(h s hs).1, fun op hop => Nat.le_trans hle ((h s hs).2 op hop)⟩

theorem ends_nil (limit : Nat) : Ends limit [] := fun _ h => nomatch h

-- Symbols that are no operators.
theorem ends_symbol (limit : Nat) {s : Symbol} (hs : s ≠ .dot ∧ s ≠ .openParen)
    (hop : Symbol.binary? s = none) (ws : List Word) : Ends limit (.symbol s :: ws) := by
  intro t ht
  obtain rfl := Word.symbol.inj (Option.some.inj ht)
  exact ⟨hs, fun op h => by rw [hop] at h; cases h⟩

theorem binary?_sign (op : BinaryOp) : Symbol.binary? op.sign = some op := by
  cases op with
  | equality op => cases op <;> rfl
  | order op => cases op <;> rfl
  | arithmetic op => cases op <;> rfl
  | _ => rfl

theorem ends_sign {limit : Nat} {op : BinaryOp} (h : limit ≤ op.looseness) (ws : List Word) :
    Ends limit (.symbol op.sign :: ws) := by
  intro t ht
  obtain rfl := Word.symbol.inj (Option.some.inj ht)
  have hsign := binary?_sign op
  refine ⟨⟨fun hdot => ?_, fun hparen => ?_⟩, fun op' hop => ?_⟩
  · rw [hdot] at hsign
    cases hsign
  · rw [hparen] at hsign
    cases hsign
  · rw [hsign] at hop
    rwa [← Option.some.inj hop]

-- The reader takes an expression that stands where nothing looser than `limit` may stand.
def ReadsAt (reader : Reader Measured) (limit : Nat) (e : Expr) : Prop :=
  ∀ rest, Ends limit (words rest) → Reads reader (e.wordsAt limit) rest (Made e)

variable {rest : List Placed}

theorem reads_tokenCount {count : Nat} (h : (words rest).length = count) :
    Reads tokenCount [] rest (· = count) :=
  .of_run fun _ n => ⟨_, n, rfl, by rw [← h, words, List.length_map]⟩

theorem reads_node {span : Span} {children : List Measured} {make : Mark → Expr} (height : Nat)
    (hheight : tallest children + 1 = height) (hlimit : height ≤ maxNesting) :
    Reads (node span children make) [] rest fun m => (∃ mark, m.expr = make mark) ∧
      m.height = height := by
  unfold node
  rw [if_neg (by omega)]
  exact .bind_last reads_freshId fun id _ => .pure ⟨⟨_, rfl⟩, hheight⟩

end Code

end Stencil
