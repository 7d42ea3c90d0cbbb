import Stencil.Proofs.Markup.Spelling

/-!
How the tokens of a source lie in it. Text stands between the pieces that the lexer reads; each
such piece begins and ends with a mark, a character that is neither a blank nor a line break, apart
from declarations, which end with their line.
-/

namespace Stencil.Markup

def isMark (c : Char) : Bool := c != '\n' && !isLineBlank c

-- Does the piece begin and end with a mark?
structure Marked (m : List Char) : Prop where
  first : m.head?.any isMark
  last : m.getLast?.any isMark

def Tag.isParam : Tag → Bool
  | param _ => true
  | _ => false

-- The characters that a piece at byte `pos` takes in the source, and its token. The declaration
-- that ends the source has no line break.
inductive Occupies (pos : Nat) : List Char → Token → Prop where
  | raw {body : List Char} (hword : ¬ body.head?.any isIdentChar) :
      Occupies pos ("@raw".toList ++ body ++ "@endraw".toList) (.text ⟨pos + 4, body⟩)
  | param (declaration : Slice) {line : List Char} (hline : '\n' ∉ line) :
      Occupies pos ("@param".toList ++ line ++ ['\n'])
        (.tag (.param declaration) ⟨pos, pos + 6 + byteLength line⟩)
  | tag {tag : Tag} {m : List Char} (htag : tag.isParam = false) (hm : Marked m) :
      Occupies pos m (.tag tag ⟨pos, pos + byteLength m⟩)
  | interpolation (raw : Bool) (inner : Slice) {m : List Char} (hm : Marked m) :
      Occupies pos m (.interpolation raw inner ⟨pos, pos + byteLength m⟩)

inductive LastParam (pos : Nat) : List Char → Token → Prop where
  | mk (declaration : Slice) {line : List Char} (hline : '\n' ∉ line) :
      LastParam pos ("@param".toList ++ line)
        (.tag (.param declaration) ⟨pos, pos + 6 + byteLength line⟩)

-- What the lexer read at byte `pos`, where `cs` follows.
structure Reads (pos : Nat) (cs : List Char) (l : Lexeme) : Prop where
  intro ::
  piece : ∃ m, cs = m ++ l.rest ∧ l.stop = pos + byteLength m ∧
    (Occupies pos m l.token ∨ l.rest = [] ∧ LastParam pos m l.token)

-- Text, unless there is none.
def plain (start : Nat) (run : List Char) : List Token :=
  if run = [] then [] else [.text ⟨start, run⟩]

-- The tokens of `cs`, which begins at byte `pos`: text, a piece and the tokens behind it, up to
-- text or a declaration that ends the source.
inductive Cut : Nat → List Char → List Token → Prop where
  | run (pos : Nat) (run : List Char) : Cut pos run (plain pos run)
  | lastParam {pos : Nat} (run : List Char) {m : List Char} {token : Token}
      (hm : LastParam (pos + byteLength run) m token) :
      Cut pos (run ++ m) (plain pos run ++ [token])
  | piece {pos : Nat} (run : List Char) {m rest : List Char} {token : Token} {tokens : List Token}
      (hm : Occupies (pos + byteLength run) m token)
      (hrest : Cut (pos + byteLength run + byteLength m) rest tokens) :
      Cut pos (run ++ m ++ rest) (plain pos run ++ token :: tokens)

-- The tokens of the part of a source before one of its pieces, nearest first.
inductive CutTo : List Char → List Token → Prop where
  | run (run : List Char) : CutTo run (plain 0 run)
  | piece {before m : List Char} {token : Token} {earlier : List Token}
      (hbefore : CutTo before earlier) (hm : Occupies (byteLength before) m token)
      (run : List Char) :
      CutTo (before ++ m ++ run)
        (plain (byteLength before + byteLength m) run ++ token :: earlier)

theorem plain_nil (start : Nat) : plain start [] = [] := rfl

theorem plain_of_ne {start : Nat} {run : List Char} (h : run ≠ []) :
    plain start run = [.text ⟨start, run⟩] := if_neg h

theorem plain_reverse (start : Nat) (run : List Char) :
    (plain start run).reverse = plain start run := by
  by_cases hrun : run = []
  · rw [hrun, plain_nil, List.reverse_nil]
  · rw [plain_of_ne hrun, List.reverse_singleton]

theorem textRun_eq_plain (start : Nat) (run : List Char) :
    textRun start run = plain start run.reverse := by
  unfold textRun plain
  cases run <;> simp

theorem Marked.of_ends {c d : Char} (inner : List Char) (hc : isMark c) (hd : isMark d) :
    Marked (c :: inner ++ [d]) := by
  refine ⟨by simpa using hc, ?_⟩
  rw [List.getLast?_append]
  simpa using hd

theorem Opener.marked {opener : List Char} {tag : Slice → Tag} (h : Opener opener tag)
    (inner : List Char) : Marked (opener ++ inner ++ [')']) := by
  cases h with
  | @inclusion dotted =>
    have hmarked := Marked.of_ends ("template.".toList ++ dotted ++ ['('] ++ inner)
      (c := '@') (d := ')') (by decide) (by decide)
    simpa [List.append_assoc] using hmarked
  | _ => exact .of_ends _ (by decide) (by decide)

theorem Opener.isParam {opener : List Char} {tag : Slice → Tag} (h : Opener opener tag)
    (inner : Slice) : (tag inner).isParam = false := by
  cases h <;> rfl

theorem Bare.marked {word : List Char} {tag : Tag} (h : Bare word tag) : Marked word := by
  cases h with
  | comment inner =>
    have hmarked := Marked.of_ends ("%--".toList ++ inner ++ "--%".toList)
      (c := '<') (d := '>') (by decide) (by decide)
    simpa [List.append_assoc] using hmarked
  | _ => exact ⟨by decide, by decide⟩

theorem Bare.isParam {word : List Char} {tag : Tag} (h : Bare word tag) : tag.isParam = false := by
  cases h <;> rfl

theorem Spells.occupies {pos : Nat} {m : List Char} {token : Token} (h : Spells pos m token) :
    Occupies pos m token := by
  cases h with
  | raw hword => exact .raw hword
  | param hline => exact .param _ hline
  | bare hword => exact .tag hword.isParam hword.marked
  | enclosed hopener inner => exact .tag (hopener.isParam _) (hopener.marked inner)
  | interpolation raw inner =>
    refine .interpolation raw _ ?_
    cases raw <;> exact .of_ends _ (by decide) (by decide)

theorem SpellsLast.lastParam {pos : Nat} {m : List Char} {token : Token}
    (h : SpellsLast pos m token) : LastParam pos m token := by
  cases h with
  | param hline => exact .mk _ hline

theorem reads_lexeme? {pos : Nat} {cs : List Char} {l : Lexeme}
    (h : lexeme? pos cs = .ok (some l)) : Reads pos cs l := by
  obtain ⟨m, hcs, hstop, hspells⟩ := spelled_lexeme? h
  refine ⟨m, hcs, hstop, ?_⟩
  rcases hspells with hspells | ⟨hend, hspells⟩
  · exact .inl hspells.occupies
  · exact .inr ⟨hend, hspells.lastParam⟩

-- The text met so far stands in front of what is still to be cut.
theorem cut_of_lexemes {start : Nat} {run : List Char} {pos : Nat} {cs : List Char}
    {ts : List Token} (hpos : pos = start + byteLength run.reverse)
    (h : lexemes start run pos cs = .ok ts) : Cut start (run.reverse ++ cs) ts := by
  fun_induction lexemes start run pos cs generalizing ts with
  | case1 start run pos =>
    obtain rfl := Except.ok.inj h
    rw [textRun_eq_plain, List.append_nil]
    exact .run start run.reverse
  | case2 => cases h
  | case3 start run pos c rest hnone ih =>
    have hcut := ih (by simp [hpos]; omega) h
    simpa using hcut
  | case4 start run pos c rest l hread ih =>
    obtain ⟨tokens, htokens, rfl⟩ := exists_of_map_eq_ok h
    have hrest : Cut l.stop l.rest tokens := ih rfl htokens
    obtain ⟨m, hcs, hstop, hm⟩ := reads_lexeme? hread
    rw [textRun_eq_plain, hcs]
    rw [hstop, hpos] at hrest
    rw [hpos] at hm
    rcases hm with hm | ⟨hend, hm⟩
    · rw [← List.append_assoc]
      exact .piece run.reverse hm hrest
    · have hnone : tokens = [] := by
        rw [hend, lexemes] at htokens
        exact (Except.ok.inj htokens).symm
      rw [hend, List.append_nil, hnone]
      exact .lastParam run.reverse hm

theorem cut_of_tokens {source : List Char} {ts : List Token} (h : tokens source = .ok ts) :
    Cut 0 source ts :=
  cut_of_lexemes rfl h

-- Where a token begins, and where the source goes on behind it. A declaration takes the line break
-- with it.
def Token.start : Token → Nat
  | .text s => s.start
  | .interpolation _ _ span | .tag _ span => span.start

def Token.reach : Token → Nat
  | .text s => s.stop
  | .interpolation _ _ span => span.stop
  | .tag t span => if t.isParam then span.stop + 1 else span.stop

theorem Occupies.start {pos : Nat} {m : List Char} {token : Token} (h : Occupies pos m token) :
    pos ≤ token.start := by
  cases h with
  | raw => exact Nat.le_add_right pos 4
  | _ => exact Nat.le_refl pos

theorem Occupies.reach {pos : Nat} {m : List Char} {token : Token} (h : Occupies pos m token) :
    token.reach ≤ pos + byteLength m := by
  cases h with
  | raw =>
    have hraw : byteLength "@raw".toList = 4 := by decide
    simp only [Token.reach, Slice.stop, byteLength_append, hraw]
    omega
  | param declaration hline =>
    have hparam : byteLength "@param".toList = 6 := by decide
    have hbreak : byteLength ['\n'] = 1 := by decide
    simp only [Token.reach, Tag.isParam, if_true, byteLength_append, hparam, hbreak]
    omega
  | tag htag hm => simp only [Token.reach, htag, Bool.false_eq_true, if_false, Nat.le_refl]
  | interpolation => exact Nat.le_refl _

theorem mem_plain {start : Nat} {run : List Char} {token : Token} (h : token ∈ plain start run) :
    token = .text ⟨start, run⟩ := by
  by_cases hrun : run = []
  · rw [hrun] at h
    cases h
  · rw [plain_of_ne hrun] at h
    exact List.mem_singleton.1 h

theorem Cut.start {pos : Nat} {cs : List Char} {ts : List Token} (h : Cut pos cs ts) :
    ∀ token ∈ ts, pos ≤ token.start := by
  induction h with
  | run pos run =>
    intro token hmem
    rw [mem_plain hmem]
    exact Nat.le_refl _
  | lastParam run hm =>
    intro token hmem
    rcases List.mem_append.1 hmem with hmem | hmem
    · rw [mem_plain hmem]
      exact Nat.le_refl _
    · rw [List.mem_singleton.1 hmem]
      cases hm
      exact Nat.le_add_right _ _
  | piece run hm hrest ih =>
    intro token hmem
    rcases List.mem_append.1 hmem with hmem | hmem
    · rw [mem_plain hmem]
      exact Nat.le_refl _
    · rcases List.mem_cons.1 hmem with rfl | hmem
      · exact Nat.le_trans (Nat.le_add_right _ _) hm.start
      · have := ih token hmem
        omega

theorem CutTo.reach {before : List Char} {earlier : List Token} (h : CutTo before earlier) :
    ∀ token ∈ earlier, token.reach ≤ byteLength before := by
  induction h with
  | run run =>
    intro token hmem
    rw [mem_plain hmem]
    simp only [Token.reach, Slice.stop, Nat.zero_add, Nat.le_refl]
  | piece hbefore hm run ih =>
    intro token hmem
    simp only [byteLength_append]
    rcases List.mem_append.1 hmem with hmem | hmem
    · rw [mem_plain hmem]
      exact Nat.le_refl _
    · rcases List.mem_cons.1 hmem with rfl | hmem
      · have := hm.reach
        omega
      · have := ih token hmem
        omega

-- A declaration ends behind the place where it begins.
theorem Cut.param {pos : Nat} {cs : List Char} {ts : List Token} (h : Cut pos cs ts) :
    ∀ declaration span, .tag (.param declaration) span ∈ ts → span.start < span.stop := by
  induction h with
  | run pos run =>
    intro declaration span hmem
    cases mem_plain hmem
  | lastParam run hm =>
    intro declaration span hmem
    rcases List.mem_append.1 hmem with hmem | hmem
    · cases mem_plain hmem
    · cases hm
      cases List.mem_singleton.1 hmem
      simp only
      omega
  | piece run hm hrest ih =>
    intro declaration span hmem
    rcases List.mem_append.1 hmem with hmem | hmem
    · cases mem_plain hmem
    · rcases List.mem_cons.1 hmem with rfl | hmem
      · cases hm with
        | param =>
          simp only
          omega
        | tag htag => cases htag
      · exact ih declaration span hmem

-- Text stands in the source where its token says.
theorem Cut.text {pos : Nat} {cs : List Char} {ts : List Token} (h : Cut pos cs ts) :
    ∀ s, .text s ∈ ts → ∃ before after, cs = before ++ s.chars ++ after ∧
      s.start = pos + byteLength before := by
  induction h with
  | run pos run =>
    intro s hmem
    obtain rfl := Token.text.inj (mem_plain hmem)
    exact ⟨[], [], by simp, rfl⟩
  | lastParam run hm =>
    intro s hmem
    rcases List.mem_append.1 hmem with hmem | hmem
    · obtain rfl := Token.text.inj (mem_plain hmem)
      exact ⟨[], _, rfl, rfl⟩
    · cases hm
      cases List.mem_singleton.1 hmem
  | @piece pos run m rest token tokens hm hrest ih =>
    intro s hmem
    rcases List.mem_append.1 hmem with hmem | hmem
    · obtain rfl := Token.text.inj (mem_plain hmem)
      exact ⟨[], m ++ rest, by simp, rfl⟩
    · rcases List.mem_cons.1 hmem with htoken | hmem
      · cases hm with
        | raw hword =>
          obtain rfl := Token.text.inj htoken
          have hraw : byteLength "@raw".toList = 4 := by decide
          refine ⟨run ++ "@raw".toList, "@endraw".toList ++ rest, by simp, ?_⟩
          rw [byteLength_append, hraw, Nat.add_assoc]
        | _ => cases htoken
      · obtain ⟨before, after, hcs, hstart⟩ := ih s hmem
        refine ⟨run ++ m ++ before, after, ?_, ?_⟩
        · rw [hcs]
          simp
        · rw [hstart, byteLength_append, byteLength_append]
          omega

-- A tag among the tokens of a source: the source splits into what was cut into the earlier tokens,
-- the tag, and what was cut into the later ones.
structure TagAt (source before inside after : List Char) (earlier : List Token) (span : Span)
    (later : List Token) : Prop where
  source_eq : source = before ++ inside ++ after
  start_eq : span.start = byteLength before
  stop_eq : span.stop = byteLength before + byteLength inside
  left : CutTo before earlier
  right : Cut span.stop after later

-- A tag behind text is the piece behind it, or is met further on.
theorem plain_append_eq {start : Nat} {run : List Char} {token t : Token}
    {tokens xs later : List Token} (ht : ∀ s, t ≠ .text s)
    (h : plain start run ++ token :: tokens = xs ++ t :: later) :
    (xs = plain start run ∧ token = t ∧ tokens = later) ∨
      ∃ ys, xs = plain start run ++ token :: ys ∧ tokens = ys ++ t :: later := by
  rcases List.append_eq_append_iff.1 h with ⟨ys, hxs, hrest⟩ | ⟨ys, hplain, hrest⟩
  · cases ys with
    | nil =>
      obtain ⟨rfl, rfl⟩ := List.cons.inj hrest
      exact .inl ⟨by simpa using hxs, rfl, rfl⟩
    | cons y ys =>
      obtain ⟨rfl, rfl⟩ := List.cons.inj hrest
      exact .inr ⟨ys, hxs, rfl⟩
  · cases ys with
    | nil =>
      obtain ⟨rfl, rfl⟩ := List.cons.inj hrest
      exact .inl ⟨by simpa using hplain.symm, rfl, rfl⟩
    | cons y ys =>
      obtain ⟨rfl, -⟩ := List.cons.inj hrest
      have hmem : t ∈ plain start run := by
        rw [hplain]
        simp
      exact absurd (mem_plain hmem) (ht _)

-- `done` is what was read before, up to the end of a piece, and `earlier` its tokens.
theorem tagAt_of_cut_append {done : List Char} {cs : List Char} {ts earlier xs later : List Token}
    {tag : Tag} {span : Span} {pos : Nat} (h : Cut pos cs ts) (hpos : pos = byteLength done)
    (hdone : ∀ run, CutTo (done ++ run) (plain pos run ++ earlier))
    (hts : ts = xs ++ .tag tag span :: later) (htag : tag.isControl) :
    ∃ before inside after,
      TagAt (done ++ cs) before inside after (xs.reverse ++ earlier) span later := by
  induction h generalizing done earlier xs with
  | run pos run =>
    have hmem : .tag tag span ∈ plain pos run := by
      rw [hts]
      simp
    cases mem_plain hmem
  | @lastParam pos run m token hm =>
    have hmem : .tag tag span ∈ plain pos run ++ [token] := by
      rw [hts]
      exact List.mem_append_right _ List.mem_cons_self
    rcases List.mem_append.1 hmem with hmem | hmem
    · cases mem_plain hmem
    · cases hm
      cases List.mem_singleton.1 hmem
      cases htag
  | @piece pos run m rest token tokens hm hrest ih =>
    have hlength : byteLength (done ++ run) = pos + byteLength run := by
      rw [byteLength_append, hpos]
    rcases plain_append_eq (by simp) hts with ⟨rfl, rfl, rfl⟩ | ⟨ys, rfl, rfl⟩
    · have hspan : span = ⟨pos + byteLength run, pos + byteLength run + byteLength m⟩ := by
        cases hm with
        | param => cases htag
        | tag => rfl
      obtain rfl := hspan
      refine ⟨done ++ run, m, rest, by simp, hlength.symm, by rw [hlength], ?_, hrest⟩
      rw [plain_reverse]
      exact hdone run
    · rw [← hlength] at hm hrest ih
      have hnext (run' : List Char) := CutTo.piece (hdone run) hm run'
      have hgo := ih (byteLength_append (done ++ run) m).symm hnext rfl
      simpa [plain_reverse] using hgo

theorem tagAt_of_cut {source : List Char} {ts earlier later : List Token} {tag : Tag} {span : Span}
    (h : Cut 0 source ts) (hts : ts = earlier.reverse ++ .tag tag span :: later)
    (htag : tag.isControl) :
    ∃ before inside after, TagAt source before inside after earlier span later := by
  have hdone (run : List Char) : CutTo ([] ++ run) (plain 0 run ++ []) := by
    simpa using CutTo.run run
  simpa using tagAt_of_cut_append h rfl hdone hts htag

end Stencil.Markup
