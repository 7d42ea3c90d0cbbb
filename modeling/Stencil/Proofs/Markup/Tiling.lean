import Stencil.Proofs.Markup.Spelling
import Stencil.Proofs.Markup.TrimmedText
import Stencil.Proofs.Text.Rows

/-!
The tokens of a source tile it: each takes some characters, where the one before it ends, and no
character is left over.
-/

namespace Stencil.Markup

-- The characters that a token takes: text takes its own, a raw block takes its markers as well, an
-- interpolation or a tag takes its span, and a declaration takes its line break as well.
inductive Extent (pos : Nat) : List Char → Token → Prop where
  | text {run : List Char} (hrun : run ≠ []) : Extent pos run (.text ⟨pos, run⟩)
  | piece {m : List Char} {token : Token} (hm : Spells pos m token) : Extent pos m token
  | last {m : List Char} {token : Token} (hm : SpellsLast pos m token) : Extent pos m token

-- `Tiles pos cs ts`: the extents of `ts`, the first from byte `pos` on, are `cs` when put together.
inductive Tiles : Nat → List Char → List Token → Prop where
  | nil (pos : Nat) : Tiles pos [] []
  | text {pos : Nat} {run rest : List Char} {tokens : List Token} (hrun : run ≠ [])
      (hrest : Tiles (pos + byteLength run) rest tokens) :
      Tiles pos (run ++ rest) (.text ⟨pos, run⟩ :: tokens)
  | piece {pos : Nat} {m rest : List Char} {token : Token} {tokens : List Token}
      (hm : Spells pos m token) (hrest : Tiles (pos + byteLength m) rest tokens) :
      Tiles pos (m ++ rest) (token :: tokens)
  | last {pos : Nat} {m : List Char} {token : Token} (hm : SpellsLast pos m token) :
      Tiles pos m [token]

theorem Tiles.plain_append {start : Nat} {run rest : List Char} {ts : List Token}
    (h : Tiles (start + byteLength run) rest ts) :
    Tiles start (run ++ rest) (plain start run ++ ts) := by
  by_cases hrun : run = []
  · subst hrun
    simpa [plain_nil] using h
  · rw [plain_of_ne hrun]
    exact .text hrun h

-- The text met so far stands in front of what is still to be cut.
theorem tiles_of_lexemes {start : Nat} {run : List Char} {pos : Nat} {cs : List Char}
    {ts : List Token} (hpos : pos = start + byteLength run.reverse)
    (h : lexemes start run pos cs = .ok ts) : Tiles start (run.reverse ++ cs) ts := by
  fun_induction lexemes start run pos cs generalizing ts with
  | case1 start run pos =>
    obtain rfl := Except.ok.inj h
    rw [textRun_eq_plain, ← List.append_nil (plain _ _)]
    exact .plain_append (.nil _)
  | case2 => cases h
  | case3 start run pos c rest hnone ih =>
    have htiles := ih (by simp [hpos]; omega) h
    simpa using htiles
  | case4 start run pos c rest l hread ih =>
    obtain ⟨tokens, htokens, rfl⟩ := exists_of_map_eq_ok h
    have hrest : Tiles l.stop l.rest tokens := ih rfl htokens
    obtain ⟨m, hcs, hstop, hm⟩ := spelled_lexeme? hread
    rw [textRun_eq_plain, hcs]
    rw [hstop] at hrest
    rw [hpos] at hm hrest
    refine .plain_append ?_
    rcases hm with hm | ⟨hend, hm⟩
    · exact .piece hm hrest
    · have hnone : tokens = [] := by
        rw [hend, lexemes] at htokens
        exact (Except.ok.inj htokens).symm
      rw [hend, List.append_nil, hnone]
      exact .last hm

theorem tiles_of_tokens {source : List Char} {ts : List Token} (h : tokens source = .ok ts) :
    Tiles 0 source ts :=
  tiles_of_lexemes rfl h

-- What each token takes stands in the source where the token says.
theorem Tiles.exists_extent {pos : Nat} {cs : List Char} {ts : List Token} (h : Tiles pos cs ts)
    {token : Token} (hmem : token ∈ ts) : ∃ before m after, cs = before ++ m ++ after ∧
      Extent (pos + byteLength before) m token := by
  induction h with
  | nil => cases hmem
  | @text pos run rest tokens hrun hrest ih =>
    rcases List.mem_cons.1 hmem with rfl | hmem
    · exact ⟨[], run, rest, rfl, .text hrun⟩
    · obtain ⟨before, m, after, rfl, hm⟩ := ih hmem
      refine ⟨run ++ before, m, after, by simp, ?_⟩
      rwa [byteLength_append, ← Nat.add_assoc]
  | @piece pos m rest token tokens hm hrest ih =>
    rcases List.mem_cons.1 hmem with rfl | hmem
    · exact ⟨[], m, rest, rfl, .piece hm⟩
    · obtain ⟨before, m', after, rfl, hm'⟩ := ih hmem
      refine ⟨m ++ before, m', after, by simp, ?_⟩
      rwa [byteLength_append, ← Nat.add_assoc]
  | @last pos m token hm =>
    rw [List.mem_singleton.1 hmem]
    exact ⟨[], m, [], by simp, .last hm⟩

-- The code in a tag.
def Tag.code? : Tag → Option Slice
  | condition code | elseCondition code | loop code | param code | inclusion _ code => some code
  | otherwise | close | comment => none

-- The code in a token, and the span of the token.
def Token.code? : Token → Option (Slice × Span)
  | .text _ => none
  | .interpolation _ inner span => some (inner, span)
  | .tag t span => t.code?.map (·, span)

theorem exists_append_dropReturns (line : List Char) :
    ∃ returns, line = dropReturns line ++ returns := by
  refine ⟨(line.reverse.takeWhile (· == '\r')).reverse, ?_⟩
  rw [dropReturns, ← List.reverse_append, List.takeWhile_append_dropWhile, List.reverse_reverse]

-- Where the code stands in the characters that the token takes.
structure CodeAt (pos : Nat) (m : List Char) (inner : Slice) (span : Span) : Prop where
  split : ∃ x y, m = x ++ inner.chars ++ y ∧ inner.start = pos + byteLength x
  start_eq : span.start = pos
  stop_le : inner.stop ≤ span.stop

theorem codeAt_between {pos : Nat} (x inner y : List Char) :
    CodeAt pos (x ++ inner ++ y) ⟨pos + byteLength x, inner⟩
      ⟨pos, pos + byteLength (x ++ inner ++ y)⟩ := by
  refine ⟨⟨x, y, rfl, rfl⟩, rfl, ?_⟩
  simp only [Slice.stop, byteLength_append]
  omega

-- A declaration has the whole line, but for carriage returns at its end.
theorem codeAt_param {pos : Nat} (line tail : List Char) :
    CodeAt pos ("@param".toList ++ line ++ tail) ⟨pos + 6, dropReturns line⟩
      ⟨pos, pos + 6 + byteLength line⟩ := by
  obtain ⟨returns, hline⟩ := exists_append_dropReturns line
  have hlength := congrArg byteLength hline
  rw [byteLength_append] at hlength
  refine ⟨⟨"@param".toList, returns ++ tail, ?_, rfl⟩, rfl, ?_⟩
  · rw [List.append_assoc _ (dropReturns line), ← List.append_assoc (dropReturns line), ← hline,
      List.append_assoc]
  · simp only [Slice.stop]
    omega

theorem Opener.code {opener : List Char} {tag : Slice → Tag} (h : Opener opener tag)
    (inner : Slice) : (tag inner).code? = some inner := by
  cases h <;> rfl

theorem Bare.code {word : List Char} {tag : Tag} (h : Bare word tag) : tag.code? = none := by
  cases h <;> rfl

theorem Extent.codeAt {pos : Nat} {m : List Char} {token : Token} (h : Extent pos m token)
    {inner : Slice} {span : Span} (hcode : token.code? = some (inner, span)) :
    CodeAt pos m inner span := by
  cases h with
  | text => cases hcode
  | piece hm =>
    cases hm with
    | raw => cases hcode
    | param =>
      cases hcode
      exact codeAt_param _ _
    | bare hword => simp [Token.code?, hword.code] at hcode
    | enclosed hopener inner' =>
      simp only [Token.code?, hopener.code, Option.map_some] at hcode
      cases hcode
      exact codeAt_between _ _ _
    | interpolation raw inner' =>
      cases hcode
      exact codeAt_between _ _ _
  | last hm =>
    cases hm with
    | @param line =>
      cases hcode
      simpa using codeAt_param line []

theorem Extent.text_liesIn {before m after : List Char} {s : Slice}
    (h : Extent (byteLength before) m (.text s)) : s.LiesIn (before ++ m ++ after) := by
  cases h with
  | text => exact ⟨before, after, rfl, rfl⟩
  | piece hm =>
    cases hm with
    | @raw body =>
      have hraw : byteLength "@raw".toList = 4 := by decide
      exact ⟨before ++ "@raw".toList, "@endraw".toList ++ after, by simp,
        by rw [byteLength_append, hraw]⟩
  | last hm => cases hm

theorem Extent.text_bounds {pos : Nat} {m : List Char} {s : Slice} (h : Extent pos m (.text s)) :
    pos ≤ s.start ∧ s.stop ≤ pos + byteLength m := by
  cases h with
  | text => exact ⟨Nat.le_refl _, Nat.le_refl _⟩
  | piece hm =>
    cases hm with
    | raw =>
      have hraw : byteLength "@raw".toList = 4 := by decide
      refine ⟨Nat.le_add_right _ _, ?_⟩
      simp only [Slice.stop, byteLength_append, hraw]
      omega
  | last hm => cases hm

-- Text begins where earlier text has ended.
def InOrder (t u : Token) : Prop := ∀ s s', t = .text s → u = .text s' → s.stop ≤ s'.start

theorem Tiles.le_text_start {pos : Nat} {cs : List Char} {ts : List Token} (h : Tiles pos cs ts)
    {s : Slice} (hmem : .text s ∈ ts) : pos ≤ s.start := by
  obtain ⟨before, m, after, -, hm⟩ := h.exists_extent hmem
  have hbounds := hm.text_bounds
  omega

theorem Tiles.pairwise_inOrder {pos : Nat} {cs : List Char} {ts : List Token}
    (h : Tiles pos cs ts) : ts.Pairwise InOrder := by
  induction h with
  | nil => exact .nil
  | text _ hrest ih =>
    refine .cons (fun u hu s s' hs hs' => ?_) ih
    cases hs
    exact hrest.le_text_start (hs' ▸ hu)
  | piece hm hrest ih =>
    refine .cons (fun u hu s s' hs hs' => ?_) ih
    subst hs
    exact (Extent.piece hm).text_bounds.2.trans (hrest.le_text_start (hs' ▸ hu))
  | last => exact List.pairwise_singleton _ _

-- The code in a token stands in the source, within the span of the token.
theorem Tiles.code_liesIn {source : List Char} {ts : List Token} (h : Tiles 0 source ts)
    {token : Token} (hmem : token ∈ ts) {inner : Slice} {span : Span}
    (hcode : token.code? = some (inner, span)) :
    inner.LiesIn source ∧ span.start ≤ inner.start ∧ inner.stop ≤ span.stop := by
  obtain ⟨before, m, after, rfl, hm⟩ := h.exists_extent hmem
  obtain ⟨⟨x, y, rfl, hstart⟩, hspan, hstop⟩ := hm.codeAt hcode
  rw [Nat.zero_add] at hstart hspan
  refine ⟨⟨before ++ x, y ++ after, by simp, by rw [hstart, byteLength_append]⟩, ?_, hstop⟩
  omega

-- Where a token stands in its source. Text takes its own characters; any other token has what it
-- takes between the two bytes, and a closer behind its code that the search for one comes to.
inductive Token.At (source : List Char) (a b : Nat) : Token → Prop where
  | text {s : Slice} (hs : s.LiesIn source) (hspan : s.span = ⟨a, b⟩) : At source a b (.text s)
  | piece {before m after : List Char} {token : Token} (htext : ∀ s, token ≠ .text s)
      (hsource : source = before ++ m ++ after) (ha : a = byteLength before)
      (hb : b = byteLength (before ++ m)) (hm : Extent a m token)
      (hcloses : ∀ d inner, token.delimited? = some (d, inner) → d.Closes inner.chars after) :
      At source a b token

theorem Token.At.exists_code {source : List Char} {a b : Nat} {token : Token}
    (h : token.At source a b) {d : Delimiters} {inner : Slice}
    (hd : token.delimited? = some (d, inner)) :
    ∃ before rest, source = before ++ inner.chars ++ d.closer :: rest ∧
      inner.start = byteLength before ∧ d.Closes inner.chars rest := by
  cases h with
  | text => cases hd
  | @piece before m after _ htext hsource ha hb hm hcloses =>
    cases hm with
    | text => cases hd
    | last hm =>
      rw [hm.delimited] at hd
      cases hd
    | piece hm =>
      obtain ⟨front, rfl, hstart⟩ := hm.delimited hd
      refine ⟨before ++ front, after, by simp [hsource], ?_, hcloses d inner hd⟩
      rw [hstart, ha, byteLength_append]

theorem Extent.exists_at {before m after : List Char} {token : Token}
    (hm : Extent (byteLength before) m token)
    (hcloses : ∀ d inner, token.delimited? = some (d, inner) → d.Closes inner.chars after) :
    ∃ a b, byteLength before ≤ a ∧ a ≤ b ∧ b ≤ byteLength (before ++ m) ∧
      token.At (before ++ m ++ after) a b := by
  by_cases htext : ∃ s, token = .text s
  · obtain ⟨s, rfl⟩ := htext
    obtain ⟨hstart, hstop⟩ := hm.text_bounds
    rw [← byteLength_append] at hstop
    exact ⟨s.start, s.stop, hstart, Nat.le_add_right _ _, hstop, .text hm.text_liesIn rfl⟩
  · have hle : byteLength before ≤ byteLength (before ++ m) := by simp
    exact ⟨_, _, Nat.le_refl _, hle, Nat.le_refl _,
      .piece (not_exists.1 htext) rfl rfl rfl hm hcloses⟩

-- The text met so far stands in front of what is still to be cut.
theorem inTurn_of_lexemes {source before : List Char} {start : Nat} {run : List Char} {pos : Nat}
    {cs : List Char} {ts : List Token} (hsource : source = before ++ run.reverse ++ cs)
    (hstart : start = byteLength before) (hpos : pos = byteLength (before ++ run.reverse))
    (h : lexemes start run pos cs = .ok ts) :
    Span.InTurn (Token.At source) start (byteLength source) ts := by
  -- The text met so far, in front of other tokens.
  have plain {before run behind : List Char} {start : Nat} {ts : List Token}
      (hsource : source = before ++ run ++ behind) (hstart : start = byteLength before)
      (hts : Span.InTurn (Token.At source) (byteLength (before ++ run)) (byteLength source) ts) :
      Span.InTurn (Token.At source) start (byteLength source) (plain start run ++ ts) := by
    subst hstart
    by_cases hrun : run = []
    · subst hrun
      simpa [plain_nil] using hts
    · rw [plain_of_ne hrun]
      refine ⟨byteLength before, byteLength (before ++ run), Nat.le_refl _, by simp, ?_, hts⟩
      exact .text ⟨before, behind, hsource, rfl⟩ (by simp [Slice.span, Slice.stop])
  fun_induction lexemes start run pos cs generalizing before ts with
  | case1 start run pos =>
    obtain rfl := Except.ok.inj h
    rw [textRun_eq_plain, ← List.append_nil (Markup.plain _ _)]
    refine plain hsource hstart ?_
    rw [List.append_nil] at hsource
    rw [← hsource]
    exact Nat.le_refl _
  | case2 => cases h
  | case3 start run pos c rest hnone ih =>
    refine ih ?_ hstart ?_ h
    · simp [hsource]
    · simp [hpos]
      omega
  | case4 start run pos c rest l hread ih =>
    obtain ⟨tokens, htokens, rfl⟩ := exists_of_map_eq_ok h
    obtain ⟨m, hcs, hstop, hm⟩ := spelled_lexeme? hread
    rw [hcs] at hsource
    have hsplit : source = before ++ run.reverse ++ m ++ l.rest := by simp [hsource]
    have hbehind : l.stop = byteLength (before ++ run.reverse ++ m) := by
      rw [hstop, hpos, byteLength_append (before ++ run.reverse)]
    have hrest : Span.InTurn (Token.At source) l.stop (byteLength source) tokens :=
      ih (by simpa using hsplit) hbehind (by simpa using hbehind) htokens
    rw [textRun_eq_plain]
    refine plain (by simpa using hsplit) hstart ?_
    have hextent : Extent (byteLength (before ++ run.reverse)) m l.token := by
      rw [← hpos]
      exact hm.elim .piece fun hlast => .last hlast.2
    obtain ⟨a, b, hlo, hle, hhi, hat⟩ := hextent.exists_at (searched_lexeme? hread)
    rw [← hsplit] at hat
    exact ⟨a, b, hlo, hle, hat, hrest.widen (hbehind ▸ hhi) (Nat.le_refl _)⟩

theorem inTurn_of_tokens {source : List Char} {ts : List Token} (h : tokens source = .ok ts) :
    Span.InTurn (Token.At source) 0 (byteLength source) ts :=
  @inTurn_of_lexemes source [] 0 [] 0 source ts rfl rfl rfl h

-- Trimming takes characters off the ends of a text.
theorem Token.At.trimmed {source : List Char} {a b : Nat} {t : Token} (hle : a ≤ b)
    (h : t.At source a b) (earlier later : List Token) : ∃ a' b', a ≤ a' ∧ a' ≤ b' ∧ b' ≤ b ∧
      (trimmedBetween earlier t later).At source a' b' := by
  cases t with
  | text s =>
    obtain ⟨s', hs', -⟩ := thins_trimmedBetween earlier s later
    have hwithin := within_trimmedBetween hs'
    rw [hs']
    cases h with
    | text hlies hspan =>
      obtain ⟨rfl, rfl⟩ := Span.mk.inj hspan
      exact ⟨s'.start, s'.stop, hwithin.start_le, Nat.le_add_right _ _, hwithin.stop_le,
        .text (hwithin.liesIn hlies) rfl⟩
    | piece htext => exact absurd rfl (htext s)
  | _ => exact ⟨a, b, Nat.le_refl _, hle, Nat.le_refl _, h⟩

theorem inTurn_trimmedAfter {source : List Char} {lo hi : Nat} {later : List Token}
    (h : Span.InTurn (Token.At source) lo hi later) (earlier : List Token) :
    Span.InTurn (Token.At source) lo hi (trimmedAfter earlier later) := by
  induction later generalizing earlier lo with
  | nil => exact h
  | cons t later ih =>
    obtain ⟨a, b, hlo, hle, hat, hrest⟩ := h
    obtain ⟨a', b', ha, hle', hb, hat'⟩ := hat.trimmed hle earlier later
    exact ⟨a', b', hlo.trans ha, hle', hat', (ih hrest _).widen hb (Nat.le_refl _)⟩

theorem inTurn_trim {source : List Char} {lo hi : Nat} {ts : List Token}
    (h : Span.InTurn (Token.At source) lo hi ts) :
    Span.InTurn (Token.At source) lo hi (trim ts) := by
  rw [trim_eq]
  exact (inTurn_trimmedAfter h []).sublist List.filter_sublist

-- The tokens that a source is cut into tile it. Text stands in the source where its token says, and
-- so does the code of a tag or of an interpolation, within the span of the token.
theorem tokens_tile {source : List Char} {ts : List Token} (h : tokens source = .ok ts) :
    Tiles 0 source ts ∧
    (∀ s, .text s ∈ ts → s.LiesIn source) ∧
    (∀ token ∈ ts, ∀ inner span, token.code? = some (inner, span) →
      inner.LiesIn source ∧ span.start ≤ inner.start ∧ inner.stop ≤ span.stop) := by
  have htiles := tiles_of_tokens h
  refine ⟨htiles, fun s hmem => ?_, fun token hmem inner span => htiles.code_liesIn hmem⟩
  obtain ⟨before, m, after, rfl, hm⟩ := htiles.exists_extent hmem
  rw [Nat.zero_add] at hm
  exact hm.text_liesIn

-- A declaration, a raw block, a delimiter in a string, a comment and a declaration that ends the
-- source, with characters of several bytes between them.
def patchwork : List Char :=
  "@param int n\né@raw$\x7b@endraw$unsafe\x7b'\x7d'\x7d@template.a.b(n)<%--é--%>@param x".toList

def patchworkTokens : List Token :=
  [.tag (.param ⟨6, " int n".toList⟩) ⟨0, 12⟩, .text ⟨13, ['é']⟩, .text ⟨19, "$\x7b".toList⟩,
    .interpolation true ⟨36, "'\x7d'".toList⟩ ⟨28, 40⟩,
    .tag (.inclusion "a/b" ⟨54, ['n']⟩) ⟨40, 56⟩, .tag .comment ⟨56, 66⟩,
    .tag (.param ⟨72, " x".toList⟩) ⟨66, 74⟩]

theorem tokens_tile_patchwork :
    tokens patchwork = .ok patchworkTokens ∧ Tiles 0 patchwork patchworkTokens ∧
      (⟨19, "$\x7b".toList⟩ : Slice).LiesIn patchwork ∧
      (⟨36, "'\x7d'".toList⟩ : Slice).LiesIn patchwork := by
  have htokens : tokens patchwork = .ok patchworkTokens := by decide +kernel
  obtain ⟨htiles, htext, hcode⟩ := tokens_tile htokens
  refine ⟨htokens, htiles, htext ⟨19, "$\x7b".toList⟩ (by decide), ?_⟩
  exact (hcode (.interpolation true ⟨36, "'\x7d'".toList⟩ ⟨28, 40⟩) (by decide) _ _ rfl).1

end Stencil.Markup
