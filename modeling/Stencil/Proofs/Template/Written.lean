import Stencil.Proofs.Expr.Reading
import Stencil.Proofs.Expr.Recovered
import Stencil.Proofs.Markup.Prefixes
import Stencil.Proofs.Template.Grammar

/-!
Writing an expression and reading it again, and reading an expression and writing it again.
-/

namespace Stencil

namespace Code

-- Some spelling of a word.
theorem written_int {n : Nat} (h : n ≤ greatestMagnitude) :
    Written (.int n) (Nat.toDigits 10 n) := by
  have hvalue : digitsValue (Nat.toDigits 10 n) = n :=
    Nat.ofDigitChars_toDigits (by decide) (by decide)
  have hdigits : ∀ d ∈ Nat.toDigits 10 n, d.isDigit := fun _ =>
    Nat.isDigit_of_mem_toDigits (by decide) (by decide)
  have hwritten := Written.int ⟨Nat.toDigits_ne_nil, hdigits⟩ (by rwa [hvalue])
  rwa [hvalue] at hwritten

theorem exists_quoted (value : List Char) : ∃ cs, Quoted '"' value cs := by
  induction value with
  | nil => exact ⟨[], .nil⟩
  | cons c value ih =>
    obtain ⟨cs, hcs⟩ := ih
    by_cases hquote : c = '"'
    · subst hquote
      exact ⟨'\\' :: '"' :: cs, .escaped rfl hcs⟩
    · by_cases hslash : c = '\\'
      · subst hslash
        exact ⟨'\\' :: '\\' :: cs, .escaped rfl hcs⟩
      · exact ⟨c :: cs, .plain hquote hslash hcs⟩

theorem written_ident {name : String} (h : Identifier name.toList) :
    Written (.ident name) name.toList := by
  have hwritten := Written.ident h
  rwa [String.ofList_toList] at hwritten

def Spellable (ws : List Word) : Prop := ∀ w ∈ ws, ∃ word, Written w word

theorem Spellable.symbol (s : Symbol) : Spellable [.symbol s] :=
  List.forall_mem_singleton.2 ⟨_, .symbol s⟩

theorem Spellable.append {ws ws' : List Word} (h : Spellable ws) (h' : Spellable ws') :
    Spellable (ws ++ ws') := List.forall_mem_append.2 ⟨h, h'⟩

theorem Spellable.cons {w : Word} {ws : List Word} (h : Spellable [w]) (h' : Spellable ws) :
    Spellable (w :: ws) := h.append h'

theorem Spellable.exists_laid {ws : List Word} (h : Spellable ws) : ∃ cs, Laid ws cs := by
  induction ws with
  | nil => exact ⟨[], .nil (by simp)⟩
  | cons w ws ih =>
    obtain ⟨⟨word, hword⟩, hrest⟩ := List.forall_mem_cons.1 h
    obtain ⟨cs, hcs⟩ := ih hrest
    exact ⟨word ++ cs, hword.laid hcs⟩

theorem Spellable.ident {name : String} (h : Identifier name.toList) : Spellable [.ident name] :=
  List.forall_mem_singleton.2 ⟨_, written_ident h⟩

theorem spellable_literal {value : Literal} (h : value.Writable) : Spellable value.words := by
  cases value with
  | null => exact .ident (.mk rfl (List.all_eq_true.1 rfl))
  | bool b => cases b <;> exact .ident (.mk rfl (List.all_eq_true.1 rfl))
  | int n =>
    have hsize : n.toInt.natAbs ≤ greatestMagnitude := by
      have hbounds := Number.isWord_iff_bounds.1 (Number.isWord_toInt n)
      have hmagnitude : greatestMagnitude = 2 ^ 64 - 1 := rfl
      omega
    have hint : Spellable [.int n.toInt.natAbs] :=
      List.forall_mem_singleton.2 ⟨_, written_int hsize⟩
    rw [Literal.words]
    split
    · exact .cons (.symbol .minus) hint
    · exact hint
  | float x =>
    obtain ⟨cs, hcs⟩ := h
    exact List.forall_mem_singleton.2 ⟨cs, .float hcs⟩
  | text s =>
    obtain ⟨cs, hcs⟩ := exists_quoted s.toList
    have hwritten := Written.text (.inl rfl) hcs
    rw [String.ofList_toList] at hwritten
    exact List.forall_mem_singleton.2 ⟨_, hwritten⟩

theorem Spellable.within {ws : List Word} (h : Spellable ws) (limit : Nat) (e : Expr) :
    Spellable (e.within limit ws) := by
  rw [Expr.within]
  split
  · exact h
  · exact .append (.cons (.symbol .openParen) h) (.symbol .closeParen)

mutual

theorem spellable_words : ∀ {e : Expr}, e.Writable → Spellable e.words
  | .literal _ _, h => spellable_literal h
  | .name _ _, h => .ident h.1
  | .list _ _, h =>
    .append (.cons (.symbol .openBracket) (spellable_wordsOfAll h)) (.symbol .closeBracket)
  | .member _ _ _, ⟨hobject, hfield⟩ =>
    .append ((spellable_words hobject).within 0 _) (.cons (.symbol .dot) (.ident hfield))
  | .call _ _ _ _, ⟨hobject, hmethod, hargs⟩ =>
    .append (.append (.append ((spellable_words hobject).within 0 _)
      (.cons (.symbol .dot) (.cons (.ident hmethod) (.symbol .openParen))))
      (spellable_wordsOfAll hargs)) (.symbol .closeParen)
  | .unary _ _ x, h => .cons (.symbol _) ((spellable_words (e := x) h).within 1 x)
  | .binary _ _ _ _, ⟨hlhs, hrhs⟩ =>
    .append ((spellable_words hlhs).within _ _)
      (.cons (.symbol _) ((spellable_words hrhs).within _ _))

theorem spellable_wordsOfAll : ∀ {es : List Expr}, Expr.AllWritable es →
    Spellable (Expr.wordsOfAll es)
  | [], _ => by simp [Spellable, Expr.wordsOfAll]
  | [_], ⟨h, _⟩ => spellable_words h
  | _ :: _ :: _, ⟨h, hs⟩ =>
    .append (spellable_words h) (.cons (.symbol .comma) (spellable_wordsOfAll hs))

end

-- A source that holds an interpolation of some code and nothing else.
def interpolated (code : List Char) : List Char := "$\x7b".toList ++ code ++ ['\x7d']

-- Some code is read as an expression and nothing else, wherever it stands.
def ReadAs (cs : List Char) (post : Expr → Prop) : Prop :=
  ∀ pos, ∃ ts, ts ≠ [] ∧ tokens pos cs = .ok ts ∧
    ∀ stop n, ∃ e n', expression.run ⟨ts, stop, n⟩ = .ok (e, ⟨[], stop, n'⟩) ∧ post e

theorem ReadAs.imp {cs : List Char} {post post' : Expr → Prop} (h : ReadAs cs post)
    (himp : ∀ e, post e → post' e) : ReadAs cs post' := by
  intro pos
  obtain ⟨ts, hne, hcut, hread⟩ := h pos
  refine ⟨ts, hne, hcut, fun stop n => ?_⟩
  obtain ⟨e, n', hrun, hpost⟩ := hread stop n
  exact ⟨e, n', hrun, himp e hpost⟩

-- Some code is refused for a defect, as it is cut or as an expression is read from it.
def RefusedFor (cs : List Char) (defect : Defect) : Prop :=
  ∀ pos, ∃ offset, tokens pos cs = .error ⟨defect, offset⟩ ∨
    ∃ ts, ts ≠ [] ∧ tokens pos cs = .ok ts ∧
      ∀ stop n, expression.run ⟨ts, stop, n⟩ = .error ⟨defect, offset⟩

theorem runOn_eq_bind {α : Type} (reader : Reader α) (slice : Slice) (n : Nat) :
    reader.runOn slice n = (tokens slice.start slice.chars).bind fun ts =>
      (reader.run ⟨ts, slice.stop, n⟩).map fun (a, c) => (a, c.nextId) := by
  unfold Reader.runOn
  cases tokens slice.start slice.chars with
  | error fault => rfl
  | ok ts =>
    change (reader.run ⟨ts, slice.stop, n⟩ >>= _) = (reader.run ⟨ts, slice.stop, n⟩).map _
    cases reader.run ⟨ts, slice.stop, n⟩ <;> rfl

theorem run_ensureNotEmpty {ts : List Placed} (hne : ts ≠ []) (stop n : Nat) :
    Reader.ensureNotEmpty.run ⟨ts, stop, n⟩ = .ok ((), ⟨ts, stop, n⟩) := by
  obtain ⟨t, ts, rfl⟩ := List.exists_cons_of_ne_nil hne
  rfl

theorem ReadAs.runOn {cs : List Char} {post : Expr → Prop} (h : ReadAs cs post) (start n : Nat) :
    ∃ e n', completeExpression.runOn ⟨start, cs⟩ n = .ok (e, n') ∧ post e := by
  obtain ⟨ts, hne, hcut, hread⟩ := h start
  obtain ⟨e, n', hrun, hpost⟩ := hread (Slice.stop ⟨start, cs⟩) n
  refine ⟨e, n', ?_, hpost⟩
  rw [runOn_eq_bind, hcut, completeExpression]
  simp only [Except.bind]
  rw [run_bind_of_ok (run_ensureNotEmpty hne _ n), run_bind_of_ok hrun]
  rfl

theorem RefusedFor.runOn {cs : List Char} {defect : Defect} (h : RefusedFor cs defect)
    (start n : Nat) :
    ∃ offset, completeExpression.runOn ⟨start, cs⟩ n = .error ⟨defect, offset⟩ := by
  obtain ⟨offset, hcut | ⟨ts, hne, hcut, hread⟩⟩ := h start
  · exact ⟨offset, by rw [runOn_eq_bind, hcut]; rfl⟩
  · refine ⟨offset, ?_⟩
    rw [runOn_eq_bind, hcut, completeExpression]
    simp only [Except.bind]
    rw [run_bind_of_ok (run_ensureNotEmpty hne _ n), run_bind_of_error (hread _ n)]
    rfl

theorem readAs_of_laid {e : Expr} (he : e.Writable) (hlimit : e.height ≤ maxNesting)
    {cs : List Char} (hcs : Laid e.words cs) : ReadAs cs fun made => made.unmarked = e.unmarked := by
  intro pos
  obtain ⟨ts, hts, hwords⟩ := cutInto_of_laid hcs (phrase_words e).apart pos
  refine ⟨ts, ?_, hts, fun stop n => ?_⟩
  · rintro rfl
    exact words_ne_nil e hwords.symm
  · obtain ⟨made, n', hrun, hmade⟩ := reads_expression he hlimit ts stop n hwords
    rw [List.append_nil] at hrun
    exact ⟨made, n', hrun, hmade⟩

-- The words that were taken for an expression are its own, but for parentheses around parts of it
-- that could stand without them.
theorem run_expression {start stop n : Nat} {code : List Char} {before ts : List Placed}
    {e : Expr} {c : Cursor} (hcut : tokens start code = .ok (before ++ ts))
    (hrun : expression.run ⟨ts, stop, n⟩ = .ok (e, c)) :
    e.Writable ∧ e.height ≤ maxNesting ∧ ∃ read, ts = read ++ c.tokens ∧
      e.Spelt (loosest + 1) (words read) ∧ Grouped (words read) e.words := by
  have hlawful : Lawful ts := fun t ht =>
    lawful_of_tokens hcut t (List.mem_append_right before ht)
  obtain ⟨m, c', hmeasured, hpure⟩ := exists_of_run_bind hrun
  obtain ⟨rfl, rfl⟩ := Prod.mk.inj (Except.ok.inj hpure)
  obtain ⟨read, hread, hm⟩ := recovers_measured ts hlawful stop n m c' hmeasured
  have hgrouped := grouped_of_spelt hm.spelt
  rw [wordsAt_loosest] at hgrouped
  exact ⟨hm.writable, hm.height ▸ hm.shallow, read, hread, hm.spelt, hgrouped⟩

end Code

namespace Markup

theorem lexeme?_interpolated (pos : Nat) {code rest : List Char}
    (h : enclosed '\x7b' '\x7d' .unterminatedInterpolation .code 0 (code ++ '\x7d' :: rest) =
      .ok (code, rest)) :
    lexeme? pos (Code.interpolated code ++ rest) =
      .ok (some ⟨.interpolation false ⟨pos + 2, code⟩
          ⟨pos, pos + byteLength (Code.interpolated code)⟩,
        pos + byteLength (Code.interpolated code), rest⟩) := by
  have hstop : pos + 2 + byteLength code + '\x7d'.utf8Size =
      pos + byteLength (Code.interpolated code) := by
    rw [Code.interpolated, byteLength_append, byteLength_append, Nat.add_assoc, Nat.add_assoc]
    rfl
  have hsource : Code.interpolated code ++ rest =
      '$' :: '\x7b' :: (code ++ '\x7d' :: rest) := by
    simp [Code.interpolated]
  rw [hsource]
  change (interpolation false pos (pos + 2) (code ++ '\x7d' :: rest)).map some = _
  rw [interpolation, enclosedFrom, h, ← hstop]
  rfl

-- An interpolation that reaches to the end is the last token.
theorem lexemes_interpolated (start pos : Nat) {code : List Char}
    (h : enclosed '\x7b' '\x7d' .unterminatedInterpolation .code 0 (code ++ ['\x7d']) =
      .ok (code, [])) :
    lexemes start [] pos (Code.interpolated code) =
      .ok [.interpolation false ⟨pos + 2, code⟩
        ⟨pos, pos + byteLength (Code.interpolated code)⟩] := by
  have hlexeme := lexeme?_interpolated pos h
  rw [List.append_nil] at hlexeme
  rw [lexemes_of_some hlexeme, lexemes]
  rfl

theorem tokens_interpolated {code : List Char}
    (h : enclosed '\x7b' '\x7d' .unterminatedInterpolation .code 0 (code ++ ['\x7d']) =
      .ok (code, [])) :
    tokens (Code.interpolated code) =
      .ok [.interpolation false ⟨2, code⟩ ⟨0, byteLength (Code.interpolated code)⟩] := by
  have hlexemes := lexemes_interpolated 0 0 h
  rw [Nat.zero_add, Nat.zero_add] at hlexemes
  exact hlexemes

end Markup

namespace Template

open Code

-- What is read from a body that is one interpolation.
theorem Builder.run_wholeBody_interpolation (raw : Bool) (slice : Slice) (span : Span) (n : Nat) :
    wholeBody.run ⟨[.interpolation raw slice span], n⟩ =
      (completeExpression.runOn slice n).map
        fun (e, m) => ([.interpolation raw e span], ⟨[], m⟩) := by
  have hcode := run_code_eq_map completeExpression slice ⟨[], n⟩
  have hnext : nextToken?.run ⟨[.interpolation raw slice span], n⟩ =
      .ok (some (.interpolation raw slice span), ⟨[], n⟩) := rfl
  have hend (inner : Option BodyReader) (m : Nat) :
      (nodes inner 1).run ⟨[], m⟩ = .ok (([], .endOfSource), ⟨[], m⟩) := rfl
  have hcount : tokenCount.run ⟨[.interpolation raw slice span], n⟩ =
      .ok (1, ⟨[.interpolation raw slice span], n⟩) := rfl
  rw [wholeBody, maxNesting, bodyAt]
  cases hread : completeExpression.runOn slice n with
  | error fault =>
    rw [hread] at hcode
    refine run_bind_of_error ?_
    rw [run_bind_of_ok hcount, nodes, run_bind_of_ok hnext]
    exact run_bind_of_error hcode
  | ok read =>
    obtain ⟨e, m⟩ := read
    rw [hread] at hcode
    have hbody : (tokenCount >>= fun count => nodes (some (bodyAt (63))) (count + 1)).run
        ⟨[.interpolation raw slice span], n⟩ =
          .ok (([.interpolation raw e span], .endOfSource), ⟨[], m⟩) := by
      rw [run_bind_of_ok hcount, nodes, run_bind_of_ok hnext]
      dsimp only
      rw [run_bind_of_ok hcode, run_bind_of_ok (hend _ m)]
      rfl
    rw [run_bind_of_ok hbody]
    rfl

theorem ofTokens_interpolation (raw : Bool) (slice : Slice) (span : Span) :
    ofTokens [.interpolation raw slice span] =
      (completeExpression.runOn slice 0).map
        fun (e, n) => ⟨[], [.interpolation raw e span], n⟩ := by
  rw [ofTokens_eq_bind]
  change (Builder.wholeBody.run ⟨[.interpolation raw slice span], 0⟩).map _ = _
  rw [Builder.run_wholeBody_interpolation]
  cases completeExpression.runOn slice 0 <;> rfl

-- Trimming changes nothing where there is no text.
theorem parse_of_textless {source : List Char} {ts : List Markup.Token}
    (hts : Markup.tokens source = .ok ts) (htrim : Markup.trim ts = ts) (trimLines : Bool) :
    parse (String.ofList source) trimLines =
      (ofTokens ts).mapError (SyntaxError.ofFault (String.ofList source)) := by
  rw [parse_of_tokens (by rwa [String.toList_ofList]), htrim, ite_self]

-- Where the code of an interpolation ends at its closer, that code decides what is read.
theorem parse_interpolated {code : List Char}
    (hcode : Markup.enclosed '\x7b' '\x7d' .unterminatedInterpolation .code 0 (code ++ ['\x7d']) =
      .ok (code, [])) (trimLines : Bool) :
    parse (String.ofList (interpolated code)) trimLines =
      ((completeExpression.runOn ⟨2, code⟩ 0).map fun (e, n) =>
        (⟨[], [.interpolation false e ⟨0, byteLength (interpolated code)⟩], n⟩ : Template)).mapError
          (SyntaxError.ofFault (String.ofList (interpolated code))) := by
  rw [parse_of_textless (Markup.tokens_interpolated hcode) rfl, ofTokens_interpolation]

-- An expression that is written out in an interpolation, with parentheses only where it needs
-- them, is all that is read from it, whatever the spelling of its words and the blanks between
-- them. Where any expression is read, the tokens taken are its own words, but for parentheses around
-- parts of it that could stand without them.
theorem parse_written :
    (∀ e : Expr, e.Writable → e.height ≤ maxNesting →
      (∃ code, Laid e.words code) ∧
      ∀ code trimLines, Laid e.words code → ∃ made n,
        parse (String.ofList (interpolated code)) trimLines =
          .ok ⟨[], [.interpolation false made ⟨0, byteLength (interpolated code)⟩], n⟩ ∧
        made.unmarked = e.unmarked) ∧
    (∀ start stop n code before ts e c, Code.tokens start code = .ok (before ++ ts) →
      Code.expression.run ⟨ts, stop, n⟩ = .ok (e, c) →
      Laid (words (before ++ ts)) code ∧ e.Writable ∧ e.height ≤ maxNesting ∧
      ∃ read, ts = read ++ c.tokens ∧
        e.Spelt (loosest + 1) (words read) ∧ Grouped (words read) e.words) := by
  refine ⟨fun e he hlimit => ⟨(spellable_words he).exists_laid, fun code trimLines hcode => ?_⟩, ?_⟩
  · obtain ⟨made, n, hread, hmade⟩ := (readAs_of_laid he hlimit hcode).runOn 2 0
    refine ⟨made, n, ?_, hmade⟩
    rw [parse_interpolated (hcode.passed.enclosed _ []), hread]
    rfl
  · intro start stop n code before ts e c hcut hrun
    exact ⟨laid_of_tokens hcut, run_expression hcut hrun⟩

-- A product whose left factor needs its parentheses, and a name that needs none of its two pairs.
def product : Expr :=
  .binary default (.arithmetic .multiply)
    (.binary default (.arithmetic .add) (.name default "a") (.literal default (.int 1)))
    (.unary default .negate (.member default (.name default "b") "f"))

def wrapped : List Placed :=
  [⟨.symbol .openParen, ⟨0, 1⟩⟩, ⟨.symbol .openParen, ⟨1, 2⟩⟩, ⟨.ident "a", ⟨2, 3⟩⟩,
    ⟨.symbol .closeParen, ⟨3, 4⟩⟩, ⟨.symbol .closeParen, ⟨4, 5⟩⟩]

theorem laid_product : Laid product.words "(a+1)*-b.f".toList := by
  have hwords : product.words = [.symbol .openParen, .ident "a", .symbol .plus, .int 1,
      .symbol .closeParen, .symbol .star, .symbol .minus, .ident "b", .symbol .dot,
      .ident "f"] := rfl
  have hident (c : Char) (h : isIdentStart c) : Written (.ident (String.ofList [c])) [c] :=
    .ident (.mk h (by simp))
  have hone : Written (.int 1) ['1'] := @Written.int ['1'] ⟨by decide, by simp⟩ (by decide)
  rw [hwords]
  exact (Written.symbol .openParen).laid <| (hident 'a' (by decide)).laid <|
    (Written.symbol .plus).laid <| hone.laid <| (Written.symbol .closeParen).laid <|
    (Written.symbol .star).laid <| (Written.symbol .minus).laid <| (hident 'b' (by decide)).laid <|
    (Written.symbol .dot).laid <| (hident 'f' (by decide)).laid <| .nil (by simp)

theorem parse_written_product :
    (∃ made n, parse (String.ofList (interpolated "(a+1)*-b.f".toList)) true =
        .ok ⟨[], [.interpolation false made ⟨0, 13⟩], n⟩ ∧
      made.unmarked = product.unmarked) ∧
    Code.tokens 0 "((a))".toList = .ok wrapped ∧
    Code.expression.run ⟨wrapped, 5, 0⟩ = .ok (.name ⟨0, ⟨2, 3⟩⟩ "a", ⟨[], 5, 1⟩) ∧
    Grouped (words wrapped) [.ident "a"] := by
  have hwritable : product.Writable := by
    have hident (c : Char) (h : isIdentStart c) : Identifier [c] := .mk h (by simp)
    exact ⟨⟨⟨hident 'a' (by decide), by decide⟩, .inl (by decide)⟩,
      ⟨hident 'b' (by decide), by decide⟩, hident 'f' (by decide)⟩
  have htokens : Code.tokens 0 "((a))".toList = .ok wrapped := by with_unfolding_all rfl
  have hrun : Code.expression.run ⟨wrapped, 5, 0⟩ = .ok (.name ⟨0, ⟨2, 3⟩⟩ "a", ⟨[], 5, 1⟩) := rfl
  obtain ⟨-, -, -, read, hread, -, hgrouped⟩ := parse_written.2 0 5 0 _ [] wrapped _ _ htokens hrun
  obtain rfl : wrapped = read := by simpa using hread
  refine ⟨?_, htokens, hrun, hgrouped⟩
  exact (parse_written.1 product hwritable (by decide)).2 _ true laid_product

end Template

end Stencil
