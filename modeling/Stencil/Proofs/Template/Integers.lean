import Stencil.Proofs.Type.Lines

/-!
Integers as they are written: digits, with a minus sign in front of them or not. The lexer refuses
what is no 64-bit word without a sign, the parser what is none with the sign, and both say the digits.
-/

namespace Stencil

namespace Code

open Reader

section Tokens

variable {ds : List Char}

-- Digits are one token, if they fit.
theorem tokens_digits (hds : ds ≠ [] ∧ ∀ d ∈ ds, d.isDigit) (pos : Nat) :
    tokens pos ds =
      if digitsValue ds ≤ greatestMagnitude then
        .ok [⟨.int (digitsValue ds) (String.ofList ds), pos, pos + byteLength ds⟩]
      else .error ⟨.invalidNumber (String.ofList ds), pos⟩ := by
  obtain ⟨hne, hdigits⟩ := hds
  cases ds with
  | nil => exact absurd rfl hne
  | cons c cs =>
    have hc : c.isDigit := hdigits c List.mem_cons_self
    have hblank := not_isCodeBlank_of_identChar (isIdentChar_of_digit hc)
    have hnumeral : numeral (c :: cs ++ []) = ⟨c :: cs, [], []⟩ :=
      numeral_int hdigits (by simp) (by simp)
    rw [List.append_nil] at hnumeral
    have hlexeme : lexeme pos c cs =
        if digitsValue (c :: cs) ≤ greatestMagnitude then
          .ok ⟨.int (digitsValue (c :: cs)) (String.ofList (c :: cs)),
            pos + byteLength (c :: cs), []⟩
        else .error ⟨.invalidNumber (String.ofList (c :: cs)), pos⟩ := by
      rw [lexeme_of_digit hc, numberLiteral, hnumeral]
      simp [Numeral.text]
    by_cases hfits : digitsValue (c :: cs) ≤ greatestMagnitude
    · rw [if_pos hfits] at hlexeme ⊢
      rw [tokens_of_lexeme hblank hlexeme, tokens.eq_def]
      rfl
    · rw [if_neg hfits] at hlexeme ⊢
      exact tokens_of_refused hblank hlexeme

end Tokens

section Refused

variable {x deeper : Reader Measured} {c : Cursor} {fault : Fault} {n : Nat} {digits : String}
  {span sign : Span} {stop id : Nat}

theorem run_binary_of_error (h : x.run c = .error fault) (looseness : Nat) :
    (binary x looseness).run c = .error fault := by
  induction looseness with
  | zero => exact h
  | succ looseness ih => exact run_bind_of_error ih

-- What is no word has no literal.
theorem run_primary_of_none (h : Number.word? n = none) (ts : List Placed) :
    (primary x).run ⟨⟨.int n digits, span⟩ :: ts, stop, id⟩ =
      .error ⟨.invalidNumber digits, span.start⟩ := by
  have hhere : here.run ⟨⟨.int n digits, span⟩ :: ts, stop, id⟩ =
      .ok (span, ⟨⟨.int n digits, span⟩ :: ts, stop, id⟩) := rfl
  have hnext : next?.run ⟨⟨.int n digits, span⟩ :: ts, stop, id⟩ =
      .ok (some (.int n digits), ⟨⟨.int n digits, span⟩ :: ts, stop, id⟩) := rfl
  rw [primary, run_bind_of_ok hhere, run_bind_of_ok hnext]
  simp only [h]
  rfl

theorem run_signed_of_none (h : Number.word? n = none) (ts : List Placed) :
    (signed deeper).run ⟨⟨.int n digits, span⟩ :: ts, stop, id⟩ =
      .error ⟨.invalidNumber digits, span.start⟩ := by
  have hhere : here.run ⟨⟨.int n digits, span⟩ :: ts, stop, id⟩ =
      .ok (span, ⟨⟨.int n digits, span⟩ :: ts, stop, id⟩) := rfl
  have haccept (s : Symbol) : (accept s).run ⟨⟨.int n digits, span⟩ :: ts, stop, id⟩ =
      .ok (false, ⟨⟨.int n digits, span⟩ :: ts, stop, id⟩) := rfl
  rw [signed, run_bind_of_ok hhere, run_bind_of_ok (haccept .bang)]
  simp only [Bool.false_eq_true, if_false]
  rw [run_bind_of_ok (haccept .minus)]
  simp only [Bool.false_eq_true, if_false]
  exact run_bind_of_error (run_primary_of_none h ts)

-- Behind a minus sign only the least word is read in another way.
theorem run_signed_minus_of_none (h : Number.word? n = none) (hleast : (n : Int) ≠ 2 ^ 63)
    (depth : Nat) :
    (signed (operand (depth + 1))).run
        ⟨[⟨.symbol .minus, sign⟩, ⟨.int n digits, span⟩], stop, id⟩ =
      .error ⟨.invalidNumber digits, span.start⟩ := by
  let c : Cursor := ⟨[⟨.symbol .minus, sign⟩, ⟨.int n digits, span⟩], stop, id⟩
  have hhere : here.run c = .ok (sign, c) := rfl
  have hbang : (accept .bang).run c = .ok (false, c) := rfl
  have hminus : (accept .minus).run c = .ok (true, ⟨[⟨.int n digits, span⟩], stop, id⟩) := rfl
  have hnone : leastIntLiteral?.run ⟨[⟨.int n digits, span⟩], stop, id⟩ =
      .ok (none, ⟨[⟨.int n digits, span⟩], stop, id⟩) := by
    have hother : ¬ -(n : Int) = Int64.minValue.toInt := by
      rw [Int64.toInt_minValue]
      omega
    change (Pure.pure (if -(n : Int) = Int64.minValue.toInt then some span else none) :
      Reader (Option Span)).run _ = _
    rw [if_neg hother]
    rfl
  rw [signed, run_bind_of_ok hhere, run_bind_of_ok hbang]
  simp only [Bool.false_eq_true, if_false]
  rw [run_bind_of_ok hminus]
  simp only [if_true]
  rw [run_bind_of_ok hnone]
  exact run_bind_of_error (run_signed_of_none h [])

theorem run_expression_of_error (h : (operand maxNesting).run c = .error fault) :
    expression.run c = .error fault := run_bind_of_error (run_binary_of_error h loosest)

end Refused

variable {cs ds : List Char} {v : Int}

theorem tokens_minus (pos : Nat) (cs : List Char) : ∃ span stop,
    tokens pos ('-' :: cs) = (tokens stop cs).map (⟨.symbol .minus, span⟩ :: ·) := by
  have hfree : Free (.symbol .minus) cs := fun h => by cases h
  obtain ⟨head, stop, hwords, hcut⟩ := (Written.symbol .minus).cutsOff hfree pos
  obtain ⟨span, rfl⟩ := eq_symbol_of_words hwords
  exact ⟨span, stop, hcut⟩

-- An integer as it is written: its digits, and its value.
inductive Integer : List Char → List Char → Int → Prop where
  | plain {ds : List Char} (hds : ds ≠ [] ∧ ∀ d ∈ ds, d.isDigit) :
      Integer ds ds (digitsValue ds)
  | minus {ds : List Char} (hds : ds ≠ [] ∧ ∀ d ∈ ds, d.isDigit) :
      Integer ('-' :: ds) ds (-digitsValue ds)

theorem refusedFor_digits (hds : ds ≠ [] ∧ ∀ d ∈ ds, d.isDigit)
    (hlarge : Number.word? (digitsValue ds) = none) :
    RefusedFor ds (.invalidNumber (String.ofList ds)) := by
  intro pos
  refine ⟨pos, ?_⟩
  rw [tokens_digits hds]
  by_cases hfits : digitsValue ds ≤ greatestMagnitude
  · rw [if_pos hfits]
    refine .inr ⟨_, List.cons_ne_nil _ _, rfl, fun stop n => ?_⟩
    exact run_expression_of_error (run_signed_of_none hlarge [])
  · rw [if_neg hfits]
    exact .inl rfl

theorem refusedFor_minus_digits (hds : ds ≠ [] ∧ ∀ d ∈ ds, d.isDigit)
    (hlarge : Number.word? (digitsValue ds) = none) (hleast : (digitsValue ds : Int) ≠ 2 ^ 63) :
    RefusedFor ('-' :: ds) (.invalidNumber (String.ofList ds)) := by
  intro pos
  obtain ⟨span, stop, hcut⟩ := tokens_minus pos ds
  refine ⟨stop, ?_⟩
  rw [hcut, tokens_digits hds]
  by_cases hfits : digitsValue ds ≤ greatestMagnitude
  · rw [if_pos hfits]
    refine .inr ⟨_, List.cons_ne_nil _ _, rfl, fun stop n => ?_⟩
    exact run_expression_of_error (run_signed_minus_of_none hlarge hleast 62)
  · rw [if_neg hfits]
    exact .inl rfl

-- What is no word is refused, and its digits are reported.
theorem Integer.refusedFor (h : Integer cs ds v) (hv : ¬Number.IsWord v) :
    RefusedFor cs (.invalidNumber (String.ofList ds)) := by
  cases h with
  | plain hds => exact refusedFor_digits hds (Number.word?_eq_none_iff.2 hv)
  | minus hds =>
    rw [Number.isWord_iff_bounds] at hv
    refine refusedFor_minus_digits hds (Number.word?_eq_none_iff.2 ?_) (by omega)
    rw [Number.isWord_iff_bounds]
    omega

-- Is the expression the constant of this integer?
def IsInt (v : Int) (e : Expr) : Prop :=
  ∃ w : Int64, w.toInt = v ∧ e.constant? = some (.literal (.int w))

theorem written_digits (hds : ds ≠ [] ∧ ∀ d ∈ ds, d.isDigit) (hfits : digitsValue ds ≤ 2 ^ 63) :
    Written (.int (digitsValue ds)) ds := by
  have hmagnitude : greatestMagnitude = 2 ^ 64 - 1 := rfl
  exact .int hds (by omega)

theorem laid_minus_digits (hds : ds ≠ [] ∧ ∀ d ∈ ds, d.isDigit)
    (hfits : digitsValue ds ≤ 2 ^ 63) :
    Laid [.symbol .minus, .int (digitsValue ds)] ('-' :: ds) :=
  (Written.symbol .minus).laid (written_digits hds hfits).laid_alone

theorem words_natural {w : Int64} {n : Nat} (hw : w.toInt = n) :
    (Expr.literal default (.int w)).words = [.int n] ∧
      (Expr.literal default (.int w)).rank = 0 := by
  have hleast : w ≠ Int64.minValue := by
    rintro rfl
    rw [Int64.toInt_minValue] at hw
    omega
  have hmagnitude : w.toInt.natAbs = n := by rw [hw]; rfl
  constructor
  · rw [Expr.words, Literal.words, if_neg hleast, hmagnitude]
  · rw [Expr.rank, if_neg hleast]

theorem eq_literal_of_unmarked {made : Expr} {value : Literal}
    (h : made.unmarked = .literal default value) : ∃ m, made = .literal m value := by
  cases made with
  | literal m value' =>
    obtain rfl := (Expr.literal.inj h).2
    exact ⟨m, rfl⟩
  | _ => simp [Expr.unmarked] at h

theorem eq_negation_of_unmarked {made : Expr} {value : Literal}
    (h : made.unmarked = .unary default .negate (.literal default value)) :
    ∃ m m', made = .unary m .negate (.literal m' value) := by
  cases made with
  | unary m op operand =>
    obtain ⟨-, rfl, hoperand⟩ := Expr.unary.inj h
    obtain ⟨m', rfl⟩ := eq_literal_of_unmarked hoperand
    exact ⟨m, m', rfl⟩
  | _ => simp [Expr.unmarked] at h

theorem readAs_digits (hds : ds ≠ [] ∧ ∀ d ∈ ds, d.isDigit) {w : Int64}
    (hw : w.toInt = digitsValue ds) : ReadAs ds (IsInt (digitsValue ds)) := by
  have hbounds := Number.isWord_iff_bounds.1 (Number.isWord_toInt w)
  have hlaid : Laid (Expr.literal default (.int w)).words ds := by
    rw [(words_natural hw).1]
    exact (written_digits hds (by omega)).laid_alone
  have hwritable : (Expr.literal default (.int w)).Writable := .inl (by omega)
  have hheight : (Expr.literal default (.int w)).height ≤ maxNesting := by
    rw [Expr.height]
    decide
  refine (readAs_of_laid hwritable hheight hlaid).imp fun made hmade => ?_
  obtain ⟨m, rfl⟩ := eq_literal_of_unmarked hmade
  exact ⟨w, hw, rfl⟩

-- The negation of a word that has one.
theorem readAs_minus_digits (hds : ds ≠ [] ∧ ∀ d ∈ ds, d.isDigit) {w v : Int64}
    (hw : w.toInt = digitsValue ds) (hv : v.toInt = -digitsValue ds) :
    ReadAs ('-' :: ds) (IsInt (-digitsValue ds)) := by
  let e : Expr := .unary default .negate (.literal default (.int w))
  have hbounds := Number.isWord_iff_bounds.1 (Number.isWord_toInt w)
  obtain ⟨hwords, hrank⟩ := words_natural hw
  have hlaid : Laid e.words ('-' :: ds) := by
    rw [Expr.words, Expr.within, hrank, hwords, if_pos (by decide)]
    exact laid_minus_digits hds (by omega)
  have hwritable : e.Writable := .inl (by omega)
  have hheight : e.height ≤ maxNesting := by
    rw [Expr.height, Expr.height]
    decide
  refine (readAs_of_laid hwritable hheight hlaid).imp fun made hmade => ?_
  obtain ⟨m, m', rfl⟩ := eq_negation_of_unmarked hmade
  refine ⟨v, hv, ?_⟩
  rw [Expr.constant?, hw, ← hv, Number.word?_toInt]
  rfl

-- The least word is one literal, with its sign.
theorem readAs_least (hds : ds ≠ [] ∧ ∀ d ∈ ds, d.isDigit) (hleast : digitsValue ds = 2 ^ 63) :
    ReadAs ('-' :: ds) (IsInt (-digitsValue ds)) := by
  let e : Expr := .literal default (.int Int64.minValue)
  have hwords : e.words = [.symbol .minus, .int (digitsValue ds)] := by
    rw [hleast]
    rfl
  have hlaid : Laid e.words ('-' :: ds) := by
    rw [hwords]
    exact laid_minus_digits hds (by omega)
  have hwritable : e.Writable := .inr rfl
  refine (readAs_of_laid hwritable (by decide) hlaid).imp fun made hmade => ?_
  obtain ⟨m, rfl⟩ := eq_literal_of_unmarked hmade
  exact ⟨Int64.minValue, by rw [hleast]; rfl, rfl⟩

-- What is a word is read as its constant.
theorem Integer.readAs (h : Integer cs ds v) (hv : Number.IsWord v) :
    ReadAs cs (IsInt v) := by
  obtain ⟨w, hw⟩ := Number.exists_word hv
  cases h with
  | plain hds => exact readAs_digits hds hw
  | minus hds =>
    by_cases hleast : digitsValue ds = 2 ^ 63
    · exact readAs_least hds hleast
    · have hpositive : Number.IsWord (digitsValue ds) := by
        rw [Number.isWord_iff_bounds] at hv ⊢
        omega
      obtain ⟨u, hu⟩ := Number.exists_word hpositive
      exact readAs_minus_digits hds hu hw

theorem Integer.ne_nil (h : Integer cs ds v) : cs ≠ [] := by
  cases h with
  | plain hds => exact hds.1
  | minus hds => exact List.cons_ne_nil _ _

theorem Integer.minus_or_digit (h : Integer cs ds v) {c : Char}
    (hc : c ∈ cs) : c = '-' ∨ c.isDigit := by
  cases h with
  | plain hds => exact .inr (hds.2 c hc)
  | minus hds => exact (List.mem_cons.1 hc).imp id (hds.2 c)

theorem Integer.passed (h : Integer cs ds v) : Passed cs := by
  refine passed_of_inert fun c hc => ?_
  rcases h.minus_or_digit hc with rfl | hdigit
  · decide
  · exact isInert_of_identChar (isIdentChar_of_digit hdigit)

theorem Integer.not_isBlank (h : Integer cs ds v) {c : Char}
    (hc : c ∈ cs) : Text.isBlank c = false := by
  rcases h.minus_or_digit hc with rfl | hdigit
  · decide
  · exact Text.not_isBlank_of_isIdentChar (isIdentChar_of_digit hdigit)

-- A name that is no keyword stands for what it is bound to.
theorem readAs_name {x : String} (hx : Identifier x.toList) (hfree : x ∉ ["true", "false", "null"]) :
    ReadAs x.toList fun e => ∃ m, e = .name m x := by
  have hlaid : Laid (Expr.name default x).words x.toList := (written_ident hx).laid_alone
  have hwritable : (Expr.name default x).Writable := ⟨hx, hfree⟩
  have hheight : (Expr.name default x).height ≤ maxNesting := by
    rw [Expr.height]
    decide
  refine (readAs_of_laid hwritable hheight hlaid).imp fun made hmade => ?_
  cases made with
  | name m y => exact ⟨m, by rw [(Expr.name.inj hmade).2]⟩
  | _ => simp [Expr.unmarked] at hmade

end Code

namespace Template

open Code

variable {cs ds : List Char} {v : Int}

-- A source that shows the integer.
theorem parse_integer (h : Integer cs ds v) (hv : Number.IsWord v) (trimLines : Bool) :
    ∃ e span n, parse (String.ofList (interpolated cs)) trimLines =
      .ok ⟨[], [.interpolation false e span], n⟩ ∧ IsInt v e := by
  obtain ⟨e, n, hread, he⟩ := (h.readAs hv).runOn 2 0
  refine ⟨e, ⟨0, byteLength (interpolated cs)⟩, n, ?_, he⟩
  rw [parse_interpolated (h.passed.enclosed _ []), hread]
  rfl

theorem parse_large_integer (h : Integer cs ds v) (hv : ¬Number.IsWord v) (trimLines : Bool) :
    ∃ offset, parse (String.ofList (interpolated cs)) trimLines =
      .error (SyntaxError.ofFault (String.ofList (interpolated cs))
        ⟨.invalidNumber (String.ofList ds), offset⟩) := by
  obtain ⟨offset, hread⟩ := (h.refusedFor hv).runOn 2 0
  refine ⟨offset, ?_⟩
  rw [parse_interpolated (h.passed.enclosed _ []), hread]
  rfl

-- A source that declares the integer as a default, and shows the parameter in the next line.
def defaultShown (x : String) (cs : List Char) : List Char :=
  declLine (Ty.int.defaulting x cs) ++ '\n' :: interpolated x.toList

variable {x : String}

theorem parse_defaultShown (hx : Identifier x.toList) (h : Integer cs ds v) (trimLines : Bool) :
    ∃ span next span', parse (String.ofList (defaultShown x cs)) trimLines =
      (((paramDecl span).runOn ⟨6, Ty.int.defaulting x cs⟩ 0).bind fun (decl, n) =>
        (completeExpression.runOn ⟨next, x.toList⟩ n).map fun (e, m) =>
          (⟨[decl], [.interpolation false e span'], m⟩ : Template)).mapError
        (SyntaxError.ofFault (String.ofList (defaultShown x cs))) :=
  ⟨_, parse_declaration_interpolated
    (Ty.inLine_defaulting (t := .int) trivial hx h.ne_nil fun _ hc => h.not_isBlank hc)
    ((written_ident hx).passed.enclosed _ []) trimLines⟩

theorem parse_default_integer (hx : Identifier x.toList) (hfree : x ∉ ["true", "false", "null"])
    (h : Integer cs ds v) (hv : Number.IsWord v) (trimLines : Bool) :
    ∃ e m span span' n, parse (String.ofList (defaultShown x cs)) trimLines =
      .ok ⟨[⟨x, .named "int", some e, span⟩], [.interpolation false (.name m x) span'], n⟩ ∧
        IsInt v e := by
  obtain ⟨span, next, span', hparse⟩ := parse_defaultShown hx h trimLines
  obtain ⟨e, n, hdecl, he⟩ :=
    Ty.runOn_of_readAs (t := .int) trivial (Nat.zero_le _) hx (h.readAs hv) 6 span 0
  obtain ⟨shown, n', hread, m, rfl⟩ := (readAs_name hx hfree).runOn next n
  refine ⟨e, m, span, span', n', ?_, he⟩
  rw [hparse, hdecl]
  simp only [Except.bind]
  rw [hread]
  rfl

theorem parse_large_default (hx : Identifier x.toList) (h : Integer cs ds v)
    (hv : ¬Number.IsWord v) (trimLines : Bool) :
    ∃ offset, parse (String.ofList (defaultShown x cs)) trimLines =
      .error (SyntaxError.ofFault (String.ofList (defaultShown x cs))
        ⟨.invalidNumber (String.ofList ds), offset⟩) := by
  obtain ⟨span, next, span', hparse⟩ := parse_defaultShown hx h trimLines
  obtain ⟨offset, hdecl⟩ :=
    Ty.runOn_of_refusedFor (t := .int) trivial (Nat.zero_le _) hx (h.refusedFor hv) 6 span 0
  refine ⟨offset, ?_⟩
  rw [hparse, hdecl]
  rfl

end Template

end Stencil
