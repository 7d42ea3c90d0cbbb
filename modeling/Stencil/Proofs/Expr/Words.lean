import Stencil.Proofs.Expr.Writing

/-!
A word is read from the front of its spelling, if what follows it does not make it longer.
-/

namespace Stencil

-- A symbol that would be another with a `=` behind it.
def Symbol.grows : Symbol → Bool
  | bang | less | greater | assign => true
  | _ => false

namespace Code

-- What follows a word in the source does not make it longer.
def Free : Word → List Char → Prop
  | .ident _, cs => ¬ cs.head?.any isIdentChar
  | .int _, cs => ¬ cs.head?.any isIdentChar ∧ ∀ d tail, cs = '.' :: d :: tail → ¬ d.isDigit
  | .float _, cs => ¬ cs.head?.any isIdentChar
  | .text _, _ => True
  | .symbol s, cs => s.grows → cs.head? ≠ some '='

theorem not_isIdentChar_of_blank {c : Char} (h : isCodeBlank c) : ¬ isIdentChar c := by
  simp only [isCodeBlank, Bool.or_eq_true, beq_iff_eq] at h
  rcases h with (((rfl | rfl) | rfl) | rfl) | rfl <;> decide

theorem ne_of_blank {c d : Char} (h : isCodeBlank c) (hd : isCodeBlank d = false) : c ≠ d := by
  rintro rfl
  rw [h] at hd
  cases hd

theorem free_blank (w : Word) {c : Char} (hc : isCodeBlank c) (cs : List Char) :
    Free w (c :: cs) := by
  have hident : ¬ (c :: cs).head?.any isIdentChar := not_isIdentChar_of_blank hc
  cases w with
  | ident => exact hident
  | int =>
    refine ⟨hident, fun d tail h => ?_⟩
    exact absurd (List.cons.inj h).1 (ne_of_blank hc (by decide))
  | float => exact hident
  | text => trivial
  | symbol s => exact fun _ h => ne_of_blank hc (by decide) (Option.some.inj h)

theorem free_nil (w : Word) : Free w [] := by
  cases w with
  | int => exact ⟨by simp, by simp⟩
  | text => trivial
  | symbol s => exact fun _ => by simp
  | _ => simp [Free]

theorem isIdentChar_of_start {c : Char} (h : isIdentStart c) : isIdentChar c := by
  simp only [isIdentStart, isIdentChar, Char.isAlphanum, Bool.or_eq_true] at h ⊢
  rcases h with h | h
  · exact .inl (.inl h)
  · exact .inr h

theorem isIdentChar_of_digit {c : Char} (h : c.isDigit) : isIdentChar c := by
  simp [isIdentChar, Char.isAlphanum, h]

theorem isDigit_iff {c : Char} : c.isDigit ↔ 48 ≤ c.toNat ∧ c.toNat ≤ 57 := by
  simp only [Char.isDigit, Bool.and_eq_true, decide_eq_true_eq, UInt32.le_iff_toNat_le, ge_iff_le]
  exact Iff.rfl

theorem isIdentStart_iff {c : Char} : isIdentStart c ↔
    65 ≤ c.toNat ∧ c.toNat ≤ 90 ∨ 97 ≤ c.toNat ∧ c.toNat ≤ 122 ∨ c.toNat = 95 := by
  have hunderscore : c = '_' ↔ c.toNat = 95 :=
    ⟨fun h => by rw [h]; rfl, fun h => Char.ext (UInt32.toNat_inj.1 h)⟩
  delta isIdentStart Char.isAlpha Char.isUpper Char.isLower
  simp only [Bool.or_eq_true, Bool.and_eq_true, decide_eq_true_eq, UInt32.le_iff_toNat_le,
    ge_iff_le, beq_iff_eq, hunderscore, or_assoc]
  exact Iff.rfl

theorem not_isIdentStart_of_digit {c : Char} (h : c.isDigit) : isIdentStart c = false := by
  refine Bool.eq_false_iff.2 fun hstart => ?_
  have hdigit := isDigit_iff.1 h
  have hletter := isIdentStart_iff.1 hstart
  omega

theorem not_isCodeBlank_of_identChar {c : Char} (h : isIdentChar c) : isCodeBlank c = false :=
  Bool.eq_false_iff.2 fun hblank => not_isIdentChar_of_blank hblank h

section Stretch

variable {p : Char → Bool} {cs rest : List Char}

theorem takeWhile_stretch (hcs : ∀ c ∈ cs, p c) (hrest : ¬ rest.head?.any p) :
    (cs ++ rest).takeWhile p = cs := by
  rw [List.takeWhile_append_of_pos hcs]
  cases rest with
  | nil => simp
  | cons d rest =>
    have hd : ¬ p d := hrest
    rw [List.takeWhile_cons_of_neg hd, List.append_nil]

theorem dropWhile_stretch (hcs : ∀ c ∈ cs, p c) (hrest : ¬ rest.head?.any p) :
    (cs ++ rest).dropWhile p = rest := by
  rw [List.dropWhile_append_of_pos hcs]
  cases rest with
  | nil => rfl
  | cons d rest =>
    have hd : ¬ p d := hrest
    exact List.dropWhile_cons_of_neg hd

end Stretch

-- The word is read from the front of the source, up to what follows it.
def ReadsWord (w : Word) (word rest : List Char) : Prop :=
  ∃ c tail, word = c :: tail ∧ isCodeBlank c = false ∧
    ∀ pos, ∃ token stop, lexeme pos c (tail ++ rest) = .ok ⟨token, stop, rest⟩ ∧ token.word = w

theorem readsWord_ident {word rest : List Char} (h : Identifier word)
    (hfree : ¬ rest.head?.any isIdentChar) :
    ReadsWord (.ident (String.ofList word)) word rest := by
  obtain ⟨hstart, hrest⟩ := h
  rename_i c cs
  refine ⟨c, cs, rfl, not_isCodeBlank_of_identChar (isIdentChar_of_start hstart), fun pos => ?_⟩
  refine ⟨.ident (String.ofList (c :: cs)), pos + byteLength (c :: cs), ?_, rfl⟩
  rw [lexeme, if_pos hstart, takeWhile_stretch hrest hfree, dropWhile_stretch hrest hfree]

theorem head_not_digit {rest : List Char} (h : ¬ rest.head?.any isIdentChar) :
    ¬ rest.head?.any Char.isDigit := by
  cases rest with
  | nil => simp
  | cons c rest => exact fun hdigit => h (isIdentChar_of_digit hdigit)

theorem head_not_start {rest : List Char} (h : ¬ rest.head?.any isIdentChar) :
    ¬ rest.head?.any isIdentStart := by
  cases rest with
  | nil => simp
  | cons c rest => exact fun hstart => h (isIdentChar_of_start hstart)

theorem numeral_int {ds rest : List Char} (hds : ∀ d ∈ ds, d.isDigit)
    (hfree : ¬ rest.head?.any isIdentChar)
    (hpoint : ∀ d tail, rest = '.' :: d :: tail → ¬ d.isDigit) :
    numeral (ds ++ rest) = ⟨ds, [], rest⟩ := by
  unfold numeral
  rw [takeWhile_stretch hds (head_not_digit hfree), dropWhile_stretch hds (head_not_digit hfree)]
  simp only
  split
  · next d tail =>
    rw [if_neg (hpoint d tail rfl)]
  · rfl

theorem numeral_float {whole fraction rest : List Char} (hwhole : ∀ d ∈ whole, d.isDigit)
    (hfraction : fraction ≠ [] ∧ ∀ d ∈ fraction, d.isDigit)
    (hfree : ¬ rest.head?.any isIdentChar) :
    numeral (whole ++ '.' :: (fraction ++ rest)) = ⟨whole, fraction, rest⟩ := by
  obtain ⟨hne, hdigits⟩ := hfraction
  have hpoint : ¬ ('.' :: (fraction ++ rest)).head?.any Char.isDigit := by simp
  unfold numeral
  rw [takeWhile_stretch hwhole hpoint, dropWhile_stretch hwhole hpoint]
  cases fraction with
  | nil => exact absurd rfl hne
  | cons d fraction =>
    have hd : d.isDigit := hdigits d List.mem_cons_self
    have hrest : ∀ c ∈ fraction, c.isDigit := fun c hc => hdigits c (List.mem_cons_of_mem d hc)
    simp only [List.cons_append, hd, if_true, takeWhile_stretch hrest (head_not_digit hfree),
      dropWhile_stretch hrest (head_not_digit hfree)]

theorem lexeme_of_digit {c : Char} (hc : c.isDigit) (pos : Nat) (cs : List Char) :
    lexeme pos c cs = numberLiteral pos (c :: cs) := by
  rw [lexeme, if_neg (by simp [not_isIdentStart_of_digit hc]), if_pos hc]

theorem readsWord_int {ds rest : List Char} (hds : ds ≠ [] ∧ ∀ d ∈ ds, d.isDigit)
    (hfits : digitsValue ds ≤ greatestMagnitude) (hfree : ¬ rest.head?.any isIdentChar)
    (hpoint : ∀ d tail, rest = '.' :: d :: tail → ¬ d.isDigit) :
    ReadsWord (.int (digitsValue ds)) ds rest := by
  obtain ⟨hne, hdigits⟩ := hds
  cases ds with
  | nil => exact absurd rfl hne
  | cons c cs =>
    have hc : c.isDigit := hdigits c List.mem_cons_self
    refine ⟨c, cs, rfl, not_isCodeBlank_of_identChar (isIdentChar_of_digit hc), fun pos => ?_⟩
    refine ⟨.int (digitsValue (c :: cs)) (String.ofList (c :: cs)), pos + byteLength (c :: cs), ?_,
      rfl⟩
    rw [lexeme_of_digit hc, numberLiteral, ← List.cons_append, numeral_int hdigits hfree hpoint]
    simp [head_not_start hfree, hfits, Numeral.text]

theorem readsWord_float {x : Float} {word rest : List Char} (hx : Decimal x word)
    (hfree : ¬ rest.head?.any isIdentChar) : ReadsWord (.float x) word rest := by
  obtain ⟨⟨hne, hwhole⟩, hfraction⟩ := hx
  rename_i whole fraction
  cases whole with
  | nil => exact absurd rfl hne
  | cons c cs =>
    have hc : c.isDigit := hwhole c List.mem_cons_self
    refine ⟨c, cs ++ '.' :: fraction, rfl,
      not_isCodeBlank_of_identChar (isIdentChar_of_digit hc), fun pos => ?_⟩
    have hcode : c :: (cs ++ '.' :: fraction ++ rest) = c :: cs ++ '.' :: (fraction ++ rest) := by
      simp
    have hempty : fraction.isEmpty = false := by simpa using hfraction.1
    refine ⟨.float _, pos + byteLength (c :: cs ++ '.' :: fraction), ?_, rfl⟩
    rw [lexeme_of_digit hc, numberLiteral, hcode, numeral_float hwhole hfraction hfree]
    simp [head_not_start hfree, hempty, Numeral.text]

section TextLiteral

variable {quote c : Char} (head pos : Nat) (cs : List Char)

theorem textLiteral_end : textLiteral quote head pos (quote :: cs) = .ok ([], pos + 1, cs) := by
  rw [textLiteral.eq_def]
  simp

theorem textLiteral_plain (hquote : c ≠ quote) (hslash : c ≠ '\\') :
    textLiteral quote head pos (c :: cs) =
      (textLiteral quote head (pos + c.utf8Size) cs).map
        fun (value, stop, rest) => (c :: value, stop, rest) := by
  rw [textLiteral.eq_def]
  simp [hquote, hslash]

theorem textLiteral_escaped {e : Char} (hquote : quote ≠ '\\') (he : unescape? e = some c) :
    textLiteral quote head pos ('\\' :: e :: cs) =
      (textLiteral quote head (pos + 1 + e.utf8Size) cs).map
        fun (value, stop, rest) => (c :: value, stop, rest) := by
  rw [textLiteral.eq_def]
  simp [hquote.symm, he]

end TextLiteral

theorem textLiteral_quoted {quote : Char} (hquote : quote ≠ '\\') {value cs : List Char}
    (h : Quoted quote value cs) (head pos : Nat) (rest : List Char) :
    ∃ stop, textLiteral quote head pos (cs ++ quote :: rest) = .ok (value, stop, rest) := by
  induction h generalizing pos with
  | nil => exact ⟨pos + 1, textLiteral_end head pos rest⟩
  | @plain c value cs hc hslash _ ih =>
    obtain ⟨stop, hread⟩ := ih (pos + c.utf8Size)
    refine ⟨stop, ?_⟩
    rw [List.cons_append, textLiteral_plain _ _ _ hc hslash, hread]
    rfl
  | @escaped e c value cs he _ ih =>
    obtain ⟨stop, hread⟩ := ih (pos + 1 + e.utf8Size)
    refine ⟨stop, ?_⟩
    rw [List.cons_append, List.cons_append, textLiteral_escaped _ _ _ hquote he, hread]
    rfl

theorem readsWord_text {quote : Char} {value cs : List Char}
    (hquote : quote = '"' ∨ quote = '\'') (h : Quoted quote value cs) (rest : List Char) :
    ReadsWord (.text (String.ofList value)) (quote :: cs ++ [quote]) rest := by
  have hslash : quote ≠ '\\' := by rcases hquote with rfl | rfl <;> decide
  have hblank : isCodeBlank quote = false := by rcases hquote with rfl | rfl <;> decide
  have hstart : ¬ isIdentStart quote := by rcases hquote with rfl | rfl <;> decide
  have hdigit : ¬ quote.isDigit := by rcases hquote with rfl | rfl <;> decide
  refine ⟨quote, cs ++ [quote], rfl, hblank, fun pos => ?_⟩
  obtain ⟨stop, hread⟩ := textLiteral_quoted hslash h pos (pos + 1) rest
  refine ⟨.text (String.ofList value), stop, ?_, rfl⟩
  rw [lexeme, if_neg hstart, if_neg hdigit, if_pos hquote, List.append_assoc,
    List.singleton_append, hread]
  rfl

theorem readsWord_symbol {s : Symbol} {rest : List Char}
    (hfree : s.grows → rest.head? ≠ some '=') : ReadsWord (.symbol s) s.text.toList rest := by
  have hread (c : Char) (tail : List Char) (htext : s.text.toList = c :: tail)
      (hc : isCodeBlank c = false ∧ ¬ isIdentStart c ∧ ¬ c.isDigit ∧ ¬ (c = '"' ∨ c = '\''))
      (hsymbol : Symbol.read? (c :: (tail ++ rest)) = some (s, rest)) :
      ReadsWord (.symbol s) s.text.toList rest := by
    refine ⟨c, tail, htext, hc.1, fun pos => ?_⟩
    refine ⟨.symbol s, pos + byteLength s.text.toList, ?_, rfl⟩
    rw [lexeme, if_neg hc.2.1, if_neg hc.2.2.1, if_neg hc.2.2.2]
    simp only [hsymbol]
  -- The shorter of two symbols is read where nothing makes the longer one.
  have hshort (c : Char) (htext : s.text.toList = [c])
      (hc : isCodeBlank c = false ∧ ¬ isIdentStart c ∧ ¬ c.isDigit ∧ ¬ (c = '"' ∨ c = '\''))
      (hgrows : s.grows) (hend : Symbol.read? [c] = some (s, []))
      (hsymbol : ∀ d tail, d ≠ '=' → Symbol.read? (c :: d :: tail) = some (s, d :: tail)) :
      ReadsWord (.symbol s) s.text.toList rest := by
    refine hread c [] htext hc ?_
    cases rest with
    | nil => exact hend
    | cons d tail => exact hsymbol d tail fun h => hfree hgrows (congrArg some h)
  cases s with
  | bang =>
    exact hshort '!' rfl (by decide) rfl rfl fun d tail hd => by simp [Symbol.read?, hd]
  | less =>
    exact hshort '<' rfl (by decide) rfl rfl fun d tail hd => by simp [Symbol.read?, hd]
  | greater =>
    exact hshort '>' rfl (by decide) rfl rfl fun d tail hd => by simp [Symbol.read?, hd]
  | assign =>
    exact hshort '=' rfl (by decide) rfl rfl fun d tail hd => by simp [Symbol.read?, hd]
  | equal => exact hread '=' ['='] rfl (by decide) rfl
  | notEqual => exact hread '!' ['='] rfl (by decide) rfl
  | lessEqual => exact hread '<' ['='] rfl (by decide) rfl
  | greaterEqual => exact hread '>' ['='] rfl (by decide) rfl
  | and => exact hread '&' ['&'] rfl (by decide) rfl
  | or => exact hread '|' ['|'] rfl (by decide) rfl
  | openParen => exact hread '(' [] rfl (by decide) rfl
  | closeParen => exact hread ')' [] rfl (by decide) rfl
  | openBracket => exact hread '[' [] rfl (by decide) rfl
  | closeBracket => exact hread ']' [] rfl (by decide) rfl
  | comma => exact hread ',' [] rfl (by decide) rfl
  | dot => exact hread '.' [] rfl (by decide) rfl
  | plus => exact hread '+' [] rfl (by decide) rfl
  | minus => exact hread '-' [] rfl (by decide) rfl
  | star => exact hread '*' [] rfl (by decide) rfl
  | slash => exact hread '/' [] rfl (by decide) rfl
  | percent => exact hread '%' [] rfl (by decide) rfl

theorem readsWord_of_written {w : Word} {word rest : List Char} (h : Written w word)
    (hfree : Free w rest) : ReadsWord w word rest := by
  cases h with
  | ident hcs => exact readsWord_ident hcs hfree
  | int hds hfits => exact readsWord_int hds hfits hfree.1 hfree.2
  | float hx => exact readsWord_float hx hfree
  | text hquote hcs => exact readsWord_text hquote hcs rest
  | symbol s => exact readsWord_symbol hfree

end Code

end Stencil
