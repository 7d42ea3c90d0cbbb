import Mathlib.Data.List.Chain
import Stencil.Markup.Enclosed
import Stencil.Proofs.Expr.Words

/-!
Layouts of words are cut into these words again, where no two neighbours could run together. The
words of an expression have no such neighbours.
-/

namespace Stencil

-- Does the symbol begin with a `=`?
def Symbol.extends : Symbol → Bool
  | equal | assign => true
  | _ => false

namespace Code

-- Do the words stay apart without a blank between them? A point may also end up in a number, so
-- behind it there must be a name.
def Word.apart : Word → Word → Bool
  | .symbol .dot, .ident _ => true
  | .symbol .dot, _ => false
  | .symbol s, .symbol t => !(s.grows && t.extends)
  | .symbol _, _ => true
  | _, .symbol _ => true
  | _, _ => false

-- The character that a word begins with.
def Begins : Word → Char → Prop
  | .ident _, c => isIdentStart c
  | .int _, c | .float _, c => c.isDigit
  | .text _, c => c = '"' ∨ c = '\''
  | .symbol s, c => s.text.toList.head? = some c

theorem Written.begins {w : Word} {word : List Char} (h : Written w word) :
    ∃ c tail, word = c :: tail ∧ Begins w c := by
  cases h with
  | ident hcs =>
    obtain ⟨hstart, hrest⟩ := hcs
    exact ⟨_, _, rfl, hstart⟩
  | int hds =>
    obtain ⟨hne, hdigits⟩ := hds
    obtain ⟨c, cs, rfl⟩ := List.exists_cons_of_ne_nil hne
    exact ⟨c, cs, rfl, hdigits c List.mem_cons_self⟩
  | float hx =>
    obtain ⟨⟨hne, hdigits⟩, hfraction⟩ := hx
    obtain ⟨c, cs, rfl⟩ := List.exists_cons_of_ne_nil hne
    exact ⟨c, _, rfl, hdigits c List.mem_cons_self⟩
  | text hquote hcs => exact ⟨_, _, rfl, hquote⟩
  | symbol s => cases s <;> exact ⟨_, _, rfl, rfl⟩

theorem not_isIdentChar_of_symbol {s : Symbol} {c : Char} (h : Begins (.symbol s) c) :
    ¬ isIdentChar c := by
  have hsymbol : ¬ s.text.toList.head?.any isIdentChar := by cases s <;> decide
  rw [show s.text.toList.head? = some c from h] at hsymbol
  exact hsymbol

theorem eq_dot_of_begins {s : Symbol} (h : s.text.toList.head? = some '.') : s = .dot := by
  cases s with
  | dot => rfl
  | _ => exact absurd h (by decide)

theorem extends_of_begins {s : Symbol} (h : s.text.toList.head? = some '=') : s.extends := by
  cases s with
  | equal | assign => rfl
  | _ => exact absurd h (by decide)

theorem not_begins_equals {w : Word} (h : ∀ s, w ≠ .symbol s) : ¬ Begins w '=' := by
  cases w with
  | symbol s => exact absurd rfl (h s)
  | _ =>
    simp only [Begins]
    decide

theorem exists_symbol_of_apart {w w' : Word} (hw : ∀ s, w ≠ .symbol s) (h : w.apart w') :
    ∃ t, w' = .symbol t := by
  cases w with
  | symbol s => exact absurd rfl (hw s)
  | _ =>
    cases w' with
    | symbol t => exact ⟨t, rfl⟩
    | _ => cases h

theorem not_digit_of_laid {ws : List Word} {d : Char} {tail : List Char}
    (h : Laid ws (d :: tail)) (hname : ∀ w ∈ ws.head?, Word.apart (.symbol .dot) w) :
    ¬ d.isDigit := by
  generalize hcs : d :: tail = cs at h
  cases h with
  | nil hblanks =>
    subst hcs
    exact fun hd =>
      not_isIdentChar_of_blank (hblanks d List.mem_cons_self) (isIdentChar_of_digit hd)
  | @cons w ws blanks word rest hblanks hword hrest =>
    cases blanks with
    | cons c blanks =>
      obtain ⟨rfl, -⟩ := List.cons.inj hcs
      exact fun hd =>
        not_isIdentChar_of_blank (hblanks d List.mem_cons_self) (isIdentChar_of_digit hd)
    | nil =>
      obtain ⟨c, word, rfl, hbegins⟩ := hword.begins
      obtain ⟨rfl, -⟩ := List.cons.inj hcs
      have hapart := hname w rfl
      cases w with
      | ident =>
        intro hd
        have hstart : isIdentStart d := hbegins
        rw [not_isIdentStart_of_digit hd] at hstart
        cases hstart
      | _ => cases hapart

theorem free_of_laid {w : Word} {ws : List Word} {cs : List Char} (h : Laid ws cs)
    (hapart : (w :: ws).IsChain (Word.apart · ·)) : Free w cs := by
  cases h with
  | nil hblanks =>
    cases cs with
    | nil => exact free_nil w
    | cons c cs => exact free_blank w (hblanks c List.mem_cons_self) cs
  | @cons w' ws blanks word rest hblanks hword hrest =>
    cases blanks with
    | cons c blanks => exact free_blank w (hblanks c List.mem_cons_self) _
    | nil =>
      obtain ⟨c, word, rfl, hbegins⟩ := hword.begins
      obtain ⟨hnext, hbehind⟩ := List.isChain_cons_cons.1 hapart
      have hident (hw : ∀ s, w ≠ .symbol s) : ¬ isIdentChar c := by
        obtain ⟨t, rfl⟩ := exists_symbol_of_apart hw hnext
        exact not_isIdentChar_of_symbol hbegins
      cases w with
      | ident => exact hident (by simp)
      | float => exact hident (by simp)
      | text => trivial
      | int =>
        refine ⟨hident (by simp), fun d tail hpoint => ?_⟩
        obtain ⟨t, rfl⟩ := exists_symbol_of_apart (by simp) hnext
        obtain ⟨rfl, hrestpoint⟩ := List.cons.inj hpoint
        obtain rfl := eq_dot_of_begins hbegins
        obtain rfl : [] = word := by
          cases hword
          rfl
        have hrestpoint : rest = d :: tail := hrestpoint
        rw [hrestpoint] at hrest
        exact not_digit_of_laid hrest (List.isChain_cons.1 hbehind).1
      | symbol s =>
        intro hgrows hequals
        obtain rfl : c = '=' := Option.some.inj hequals
        cases w' with
        | symbol t =>
          have hextends := extends_of_begins hbegins
          cases s with
          | bang | less | greater | assign =>
            simp [Word.apart, Symbol.grows, hextends] at hnext
          | _ => cases hgrows
        | _ => exact not_begins_equals (by simp) hbegins

theorem tokens_of_blank {c : Char} (hc : isCodeBlank c) (pos : Nat) (cs : List Char) :
    tokens pos (c :: cs) = tokens (pos + 1) cs := by
  rw [tokens.eq_def]
  simp [hc]

theorem tokens_of_lexeme {c : Char} {cs : List Char} {pos : Nat} {l : Lexeme}
    (hc : isCodeBlank c = false) (h : lexeme pos c cs = .ok l) :
    tokens pos (c :: cs) = (tokens l.stop l.rest).map (⟨l.token, pos, l.stop⟩ :: ·) := by
  rw [tokens.eq_def]
  simp only [hc, Bool.false_eq_true, if_false]
  split
  · next he =>
    rw [h] at he
    cases he
  · next l' he =>
    rw [h] at he
    obtain rfl := Except.ok.inj he
    rfl

theorem tokens_of_refused {c : Char} {cs : List Char} {pos : Nat} {fault : Fault}
    (hc : isCodeBlank c = false) (h : lexeme pos c cs = .error fault) :
    tokens pos (c :: cs) = .error fault := by
  rw [tokens.eq_def]
  simp only [hc, Bool.false_eq_true, if_false]
  split
  · next he =>
    rw [h] at he
    rw [Except.error.inj he]
  · next he =>
    rw [h] at he
    cases he

-- Words are cut off the front of some code, up to what follows.
def CutsOff (cs : List Char) (ws : List Word) (rest : List Char) : Prop :=
  ∀ pos, ∃ head stop, head.map (·.token.word) = ws ∧
    tokens pos (cs ++ rest) = (tokens stop rest).map (head ++ ·)

theorem map_append_nil (r : Except Fault (List Placed)) : r = r.map ([] ++ ·) := by
  cases r <;> rfl

theorem cutsOff_blanks {blanks : List Char} (hblanks : ∀ c ∈ blanks, isCodeBlank c)
    (rest : List Char) : CutsOff blanks [] rest := by
  induction blanks with
  | nil => exact fun pos => ⟨[], pos, rfl, map_append_nil _⟩
  | cons c blanks ih =>
    intro pos
    obtain ⟨hc, hrest⟩ := List.forall_mem_cons.1 hblanks
    rw [List.cons_append, tokens_of_blank hc]
    exact ih hrest (pos + 1)

theorem cutsOff_space (rest : List Char) : CutsOff [' '] [] rest :=
  cutsOff_blanks (List.forall_mem_singleton.2 (by decide)) rest

theorem Written.cutsOff {w : Word} {word rest : List Char} (hword : Written w word)
    (hfree : Free w rest) : CutsOff word [w] rest := by
  intro pos
  obtain ⟨c, tail, rfl, hc, hread⟩ := readsWord_of_written hword hfree
  obtain ⟨token, stop, hlexeme, rfl⟩ := hread pos
  exact ⟨[⟨token, pos, stop⟩], stop, rfl, tokens_of_lexeme hc hlexeme⟩

theorem CutsOff.append {cs ds rest : List Char} {ws us : List Word}
    (h : CutsOff cs ws (ds ++ rest)) (h' : CutsOff ds us rest) :
    CutsOff (cs ++ ds) (ws ++ us) rest := by
  intro pos
  obtain ⟨head, between, rfl, hcut⟩ := h pos
  obtain ⟨tail, stop, rfl, hcut'⟩ := h' between
  refine ⟨head ++ tail, stop, List.map_append, ?_⟩
  rw [List.append_assoc, hcut, hcut']
  cases tokens stop rest with
  | error fault => rfl
  | ok ts => simp [Except.map]

-- Some code is cut into tokens that say the given words.
def CutInto (cs : List Char) (ws : List Word) : Prop :=
  ∀ pos, ∃ ts, tokens pos cs = .ok ts ∧ ts.map (·.token.word) = ws

theorem CutsOff.cutInto {cs : List Char} {ws : List Word} (h : CutsOff cs ws []) :
    CutInto cs ws := by
  intro pos
  obtain ⟨head, stop, rfl, hcut⟩ := h pos
  refine ⟨head, ?_, rfl⟩
  have hnil : tokens stop [] = .ok [] := by rw [tokens.eq_def]
  rwa [List.append_nil, hnil, Except.map, List.append_nil] at hcut

theorem cutInto_of_laid {ws : List Word} {cs : List Char} (h : Laid ws cs)
    (hapart : ws.IsChain (Word.apart · ·)) : CutInto cs ws := by
  suffices hoff : CutsOff cs ws [] from hoff.cutInto
  induction h with
  | nil hblanks => exact cutsOff_blanks hblanks []
  | @cons w ws blanks word rest hblanks hword hrest ih =>
    have hfree : Free w (rest ++ []) := by
      rw [List.append_nil]
      exact free_of_laid hrest hapart
    exact ((cutsOff_blanks hblanks _).append (hword.cutsOff hfree)).append (ih hapart.tail)

-- The search for the end of an interpolation passes over these characters and stands in code again.
def Passed (cs : List Char) : Prop :=
  ∀ unclosed depth rest,
    Markup.enclosed '\x7b' '\x7d' unclosed .code depth (cs ++ rest) =
      (Markup.enclosed '\x7b' '\x7d' unclosed .code depth rest).map
        fun (inner, after) => (cs ++ inner, after)

theorem map_map_cons {r : Except Defect (List Char × List Char)} (c : Char) (cs : List Char) :
    ((r.map fun (inner, after) => (cs ++ inner, after)).map
      fun (inner, after) => (c :: inner, after)) =
        r.map fun (inner, after) => (c :: cs ++ inner, after) := by
  cases r <;> rfl

theorem enclosed_inert {c : Char} (hquote : ¬ (c = '"' ∨ c = '\'')) (hopen : c ≠ '\x7b')
    (hclose : c ≠ '\x7d') (unclosed : Defect) (depth : Nat) (cs : List Char) :
    Markup.enclosed '\x7b' '\x7d' unclosed .code depth (c :: cs) =
      (Markup.enclosed '\x7b' '\x7d' unclosed .code depth cs).map
        fun (inner, after) => (c :: inner, after) := by
  rw [Markup.enclosed.eq_def]
  simp only [if_neg hquote, if_neg hopen, if_neg hclose]

theorem enclosed_quote {c : Char} (hquote : c = '"' ∨ c = '\'') (unclosed : Defect) (depth : Nat)
    (cs : List Char) :
    Markup.enclosed '\x7b' '\x7d' unclosed .code depth (c :: cs) =
      (Markup.enclosed '\x7b' '\x7d' unclosed (.quoted c) depth cs).map
        fun (inner, after) => (c :: inner, after) := by
  rw [Markup.enclosed.eq_def]
  simp only [if_pos hquote]

theorem passed_nil : Passed [] := by
  intro unclosed depth rest
  rw [List.nil_append]
  cases Markup.enclosed '\x7b' '\x7d' unclosed .code depth rest <;> rfl

theorem Passed.append {cs ds : List Char} (h : Passed cs) (h' : Passed ds) :
    Passed (cs ++ ds) := by
  intro unclosed depth rest
  rw [List.append_assoc, h unclosed depth, h' unclosed depth]
  cases Markup.enclosed '\x7b' '\x7d' unclosed .code depth rest with
  | error e => rfl
  | ok p => simp [Except.map]

-- Neither a quote nor a brace.
def isInert (c : Char) : Bool := c != '"' && c != '\'' && c != '\x7b' && c != '\x7d'

theorem passed_of_inert {cs : List Char} (h : ∀ c ∈ cs, isInert c) : Passed cs := by
  induction cs with
  | nil => exact passed_nil
  | cons c cs ih =>
    intro unclosed depth rest
    have hc := h c List.mem_cons_self
    simp only [isInert, Bool.and_eq_true, bne_iff_ne] at hc
    obtain ⟨⟨⟨hdouble, hsingle⟩, hopen⟩, hclose⟩ := hc
    rw [List.cons_append, enclosed_inert (by simp [hdouble, hsingle]) hopen hclose,
      ih (fun d hd => h d (List.mem_cons_of_mem c hd)) unclosed depth]
    exact map_map_cons c cs

-- A text literal, up to the quote that ends it.
theorem enclosed_quoted {quote : Char} {value cs : List Char}
    (hquote : quote = '"' ∨ quote = '\'') (h : Quoted quote value cs) (unclosed : Defect)
    (depth : Nat) (rest : List Char) :
    Markup.enclosed '\x7b' '\x7d' unclosed (.quoted quote) depth (cs ++ quote :: rest) =
      (Markup.enclosed '\x7b' '\x7d' unclosed .code depth rest).map
        fun (inner, after) => (cs ++ [quote] ++ inner, after) := by
  have hslash : '\\' ≠ quote := by rcases hquote with rfl | rfl <;> decide
  induction h with
  | nil => simp [Markup.enclosed]
  | plain hc hescape _ ih =>
    rw [List.cons_append, Markup.enclosed]
    simp only [hc, hescape, if_false, ih]
    exact map_map_cons _ _
  | escaped he _ ih =>
    rw [List.cons_append, List.cons_append, Markup.enclosed]
    simp only [hslash, if_false, if_true]
    rw [Markup.enclosed, ih]
    cases Markup.enclosed '\x7b' '\x7d' unclosed .code depth rest <;> rfl

theorem isInert_of_identChar {c : Char} (h : isIdentChar c) : isInert c := by
  have hne {d : Char} (hd : ¬ isIdentChar d) : c ≠ d := fun heq => hd (heq ▸ h)
  simp only [isInert, Bool.and_eq_true, bne_iff_ne]
  exact ⟨⟨⟨hne (by decide), hne (by decide)⟩, hne (by decide)⟩, hne (by decide)⟩

theorem isInert_of_blank {c : Char} (h : isCodeBlank c) : isInert c := by
  have hne {d : Char} (hd : isCodeBlank d = false) : c ≠ d := ne_of_blank h hd
  simp only [isInert, Bool.and_eq_true, bne_iff_ne]
  exact ⟨⟨⟨hne (by decide), hne (by decide)⟩, hne (by decide)⟩, hne (by decide)⟩

theorem Written.passed {w : Word} {word : List Char} (h : Written w word) : Passed word := by
  have hdigits {ds : List Char} (hds : ∀ d ∈ ds, d.isDigit) : ∀ d ∈ ds, isInert d :=
    fun d hd => isInert_of_identChar (isIdentChar_of_digit (hds d hd))
  cases h with
  | ident hcs =>
    obtain ⟨hstart, hrest⟩ := hcs
    refine passed_of_inert fun c hc => isInert_of_identChar ?_
    rcases List.mem_cons.1 hc with rfl | hc
    · exact isIdentChar_of_start hstart
    · exact hrest c hc
  | int hds => exact passed_of_inert (hdigits hds.2)
  | float hx =>
    obtain ⟨hwhole, hfraction⟩ := hx
    have hpoint : Passed ['.'] := passed_of_inert (List.forall_mem_singleton.2 rfl)
    exact (passed_of_inert (hdigits hwhole.2)).append
      (hpoint.append (passed_of_inert (hdigits hfraction.2)))
  | @text quote value cs hquote hcs =>
    intro unclosed depth rest
    have hquoted := enclosed_quoted hquote hcs unclosed depth rest
    rw [List.append_assoc, List.singleton_append, List.cons_append, enclosed_quote hquote, hquoted]
    cases Markup.enclosed '\x7b' '\x7d' unclosed .code depth rest with
    | error e => rfl
    | ok p => simp [Except.map]
  | symbol s => exact passed_of_inert (List.all_eq_true.1 (by cases s <;> decide))

theorem Laid.passed {ws : List Word} {cs : List Char} (h : Laid ws cs) : Passed cs := by
  induction h with
  | nil hblanks => exact passed_of_inert fun c hc => isInert_of_blank (hblanks c hc)
  | cons hblanks hword _ ih =>
    exact ((passed_of_inert fun c hc => isInert_of_blank (hblanks c hc)).append hword.passed).append
      ih

-- The end of an interpolation is found behind its code.
theorem Passed.enclosed {cs : List Char} (h : Passed cs) (unclosed : Defect) (rest : List Char) :
    Markup.enclosed '\x7b' '\x7d' unclosed .code 0 (cs ++ '\x7d' :: rest) = .ok (cs, rest) := by
  rw [h]
  simp [Markup.enclosed, Except.map]

-- May the word be the first, or the last, of an expression?
def Word.opens : Word → Bool
  | .symbol .openParen | .symbol .openBracket | .symbol .bang | .symbol .minus => true
  | .symbol _ => false
  | _ => true

def Word.closes : Word → Bool
  | .symbol .closeParen | .symbol .closeBracket => true
  | .symbol _ => false
  | _ => true

-- Words that hold together as those of an expression do.
structure Phrase (ws : List Word) : Prop where
  first : ws.head?.any Word.opens
  last : ws.getLast?.any Word.closes
  apart : ws.IsChain (Word.apart · ·)

theorem apart_of_opens {s : Symbol} (hs : s ≠ .dot) {w : Word} (hw : w.opens) :
    Word.apart (.symbol s) w := by
  cases w with
  | symbol t =>
    have ht : t.extends = false := by
      cases t with
      | equal | assign => cases hw
      | _ => rfl
    cases s with
    | dot => exact absurd rfl hs
    | _ => simp [Word.apart, ht]
  | _ =>
    cases s with
    | dot => exact absurd rfl hs
    | _ => rfl

theorem apart_of_closes {w : Word} (hw : w.closes) (t : Symbol) : Word.apart w (.symbol t) := by
  cases w with
  | symbol s =>
    cases s with
    | closeParen | closeBracket => rfl
    | _ => cases hw
  | _ => rfl

theorem phrase_word {w : Word} (hopens : w.opens) (hcloses : w.closes) : Phrase [w] :=
  ⟨hopens, hcloses, .singleton w⟩

theorem Phrase.symbol_cons {ws : List Word} (h : Phrase ws) {s : Symbol} (hs : s ≠ .dot) :
    (Word.symbol s :: ws).IsChain (Word.apart · ·) := by
  refine List.isChain_cons.2 ⟨fun w hw => ?_, h.apart⟩
  have hfirst := h.first
  rw [Option.mem_def.1 hw] at hfirst
  exact apart_of_opens hs hfirst

theorem Phrase.signed {ws : List Word} (h : Phrase ws) (op : UnaryOp) :
    Phrase (.symbol op.sign :: ws) where
  first := by cases op <;> rfl
  last := by
    rw [List.getLast?_cons_of_ne_nil]
    · exact h.last
    · rintro rfl
      cases h.first
  apart := h.symbol_cons (by cases op <;> decide)

-- Words behind a symbol, which stands behind a phrase.
theorem Phrase.append {ws us : List Word} {s : Symbol} (h : Phrase ws)
    (hlast : (Word.symbol s :: us).getLast?.any Word.closes)
    (hus : (Word.symbol s :: us).IsChain (Word.apart · ·)) : Phrase (ws ++ .symbol s :: us) where
  first := by
    cases ws with
    | nil => cases h.first
    | cons w ws => exact h.first
  last := by
    rw [List.getLast?_append_cons]
    exact hlast
  apart := by
    refine List.isChain_append.2 ⟨h.apart, hus, fun w hw v hv => ?_⟩
    obtain rfl : Word.symbol s = v := Option.some.inj hv
    have hcloses := h.last
    rw [Option.mem_def.1 hw] at hcloses
    exact apart_of_closes hcloses s

theorem Phrase.join {ws us : List Word} {s : Symbol} (h : Phrase ws) (h' : Phrase us)
    (hs : s ≠ .dot) : Phrase (ws ++ .symbol s :: us) := by
  refine h.append ?_ (h'.symbol_cons hs)
  rw [List.getLast?_cons_of_ne_nil]
  · exact h'.last
  · rintro rfl
    cases h'.first

theorem Phrase.member {ws : List Word} (h : Phrase ws) (name : String) :
    Phrase (ws ++ [.symbol .dot, .ident name]) :=
  h.append rfl (.cons_cons rfl (.singleton _))

-- A phrase, or nothing, with a pair of brackets around it.
theorem isChain_bracketed {ws : List Word} (h : ws = [] ∨ Phrase ws) {s t : Symbol}
    (hs : s = .openParen ∨ s = .openBracket) :
    (.symbol s :: ws ++ [.symbol t] : List Word).IsChain (Word.apart · ·) := by
  have hdot : s ≠ .dot := by rcases hs with rfl | rfl <;> decide
  rcases h with rfl | h
  · have hpair : Word.apart (.symbol s) (.symbol t) := by
      rcases hs with rfl | rfl <;> rfl
    exact List.isChain_pair.2 hpair
  · refine List.isChain_append.2 ⟨h.symbol_cons hdot, .singleton _, fun w hw v hv => ?_⟩
    obtain rfl : Word.symbol t = v := Option.some.inj hv
    have hlast := h.last
    have hne : ws ≠ [] := by
      rintro rfl
      cases h.first
    rw [List.getLast?_cons_of_ne_nil hne] at hw
    rw [Option.mem_def.1 hw] at hlast
    exact apart_of_closes hlast t

theorem phrase_bracketed {ws : List Word} (h : ws = [] ∨ Phrase ws) {s t : Symbol}
    (hs : s = .openParen ∨ s = .openBracket) (ht : Word.closes (.symbol t)) :
    Phrase (.symbol s :: ws ++ [.symbol t]) where
  first := by rcases hs with rfl | rfl <;> rfl
  last := by
    rw [List.getLast?_append, List.getLast?_singleton]
    exact ht
  apart := isChain_bracketed h hs

theorem Phrase.call {ws args : List Word} (h : Phrase ws) (hargs : args = [] ∨ Phrase args)
    (name : String) :
    Phrase (ws ++ [.symbol .dot, .ident name, .symbol .openParen] ++ args ++
      [.symbol .closeParen]) := by
  have hbracketed := isChain_bracketed hargs (.inl rfl) (t := .closeParen)
  have hlast : (Word.symbol .openParen :: (args ++ [.symbol .closeParen])).getLast?.any
      Word.closes := by
    rw [← List.cons_append, List.getLast?_append, List.getLast?_singleton]
    rfl
  have hcall := (h.member name).append hlast hbracketed
  simpa using hcall

theorem phrase_within (limit : Nat) (e : Expr) {ws : List Word} (h : Phrase ws) :
    Phrase (e.within limit ws) := by
  unfold Expr.within
  split
  · exact h
  · exact phrase_bracketed (.inr h) (.inl rfl) rfl

theorem phrase_literal (value : Literal) : Phrase value.words := by
  cases value with
  | bool b => cases b <;> exact phrase_word rfl rfl
  | int n =>
    simp only [Literal.words]
    split
    · exact ⟨rfl, rfl, .cons_cons rfl (.singleton _)⟩
    · exact phrase_word rfl rfl
  | _ => exact phrase_word rfl rfl

mutual

theorem phrase_words : ∀ e : Expr, Phrase e.words
  | .literal _ value => phrase_literal value
  | .name _ _ => phrase_word rfl rfl
  | .list _ items =>
    phrase_bracketed ((phrase_wordsOfAll items).imp_left (congrArg Expr.wordsOfAll)) (.inr rfl) rfl
  | .member _ object field => (phrase_within 0 object (phrase_words object)).member field
  | .call _ object method args =>
    (phrase_within 0 object (phrase_words object)).call
      ((phrase_wordsOfAll args).imp_left (congrArg Expr.wordsOfAll)) method
  | .unary _ op operand => (phrase_within 1 operand (phrase_words operand)).signed op
  | .binary _ op lhs rhs =>
    (phrase_within _ lhs (phrase_words lhs)).join (phrase_within _ rhs (phrase_words rhs))
      (by cases op with
        | equality op => cases op <;> decide
        | order op => cases op <;> decide
        | arithmetic op => cases op <;> decide
        | _ => decide)

theorem phrase_wordsOfAll : ∀ es : List Expr, es = [] ∨ Phrase (Expr.wordsOfAll es)
  | [] => .inl rfl
  | [e] => .inr (phrase_words e)
  | e :: e' :: es => by
    rcases phrase_wordsOfAll (e' :: es) with hnone | hrest
    · cases hnone
    · exact .inr ((phrase_words e).join hrest (by decide))

end

end Code

end Stencil
