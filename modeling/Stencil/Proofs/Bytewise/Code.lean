import Stencil.Proofs.Expr.Tokens
import Stencil.Proofs.Markup.TrimmedText
import Stencil.Proofs.Text.Units

/-!
Cutting code by byte offsets into its slice of the source. No slice fails and no unit is read out of
bounds, and the tokens are the same. The reader then goes by indices into their table, in bounds.
-/

namespace Stencil.Code.Bytewise

open Checked

section Cutting

variable (text : List Char) (base : Nat)

-- The value of a literal with a point.
def floatValue (literal : List Char) : Float :=
  let n := numeral literal
  Float.ofScientific (digitsValue (n.whole ++ n.fraction)) true n.fraction.length

-- Does a point with a digit on its right stand at unit `i`?
def pointAt (i : Nat) : Bool :=
  if h : i + 1 < (units text).length then (units text)[i] = '.' && (units text)[i + 1].isDigit
  else false

-- The number at unit `i`, and the offset behind it.
def numberAt (i : Nat) : Checked (Token × Nat) := do
  let whole := skipWhile Char.isDigit (units text) i
  let fractional := pointAt text whole
  let stop := if fractional then skipWhile Char.isDigit (units text) (whole + 1) else whole
  let literal ← sliceBytes? i stop text
  let invalid : Checked (Token × Nat) := do
    let written ← sliceBytes? i (skipWhile Char.isAlphanum (units text) stop) text
    throw ⟨.invalidNumber (String.ofList written), base + i⟩
  if (units text)[stop]?.any isIdentStart then invalid
  else if fractional then return (.float (floatValue literal), stop)
  else if digitsValue literal ≤ greatestMagnitude then
    return (.int (digitsValue literal) (String.ofList literal), stop)
  else invalid

-- The token that begins with unit `i`, and the offset behind it.
def lexemeAt (i : Nat) (h : i < (units text).length) : Checked (Token × Nat) := do
  let u := (units text)[i]
  if isIdentStart u then
    let stop := skipWhile isIdentChar (units text) i
    let name ← sliceBytes? i stop text
    return (.ident (String.ofList name), stop)
  else if u.isDigit then numberAt text base i
  else if u = '"' ∨ u = '\'' then
    let rest ← dropBytes? (i + 1) text
    let (value, stop, _) ← ofExcept (textLiteral u (base + i) (base + i + 1) rest)
    return (.text (String.ofList value), stop - base)
  else
    let rest ← dropBytes? i text
    match Symbol.read? rest with
    | some (s, _) => return (.symbol s, i + byteLength s.text.toList)
    | none => throw ⟨.unexpectedCharacter (rest.head?.getD '?'), base + i⟩

-- Cuts the code from unit `i` on. A token that ends where it begins counts as a failure.
def tokensFrom (i : Nat) : Checked (List Placed) := do
  if h : i < (units text).length then
    if isCodeBlank (units text)[i] then tokensFrom (i + 1)
    else
      let (token, stop) ← lexemeAt text base i h
      if _h : i < stop then
        let tokens ← tokensFrom stop
        return ⟨token, base + i, base + stop⟩ :: tokens
      else ExceptT.mk none
  else return []
termination_by (units text).length - i

end Cutting

-- The tokens of the code from byte `start` to byte `stop` of the source.
def tokens (source : List Char) (start stop : Nat) : Checked (List Placed) := do
  let text ← sliceBytes? start stop source
  tokensFrom text start 0

-- What a reading gives of a token in code that begins at byte `base`.
def found (base : Nat) (l : Lexeme) : Token × Nat := (l.token, l.stop - base)

section Equal

variable {text cs : List Char} {base i : Nat}

theorem ascii_of_isDigit (c : Char) (h : c.isDigit) : c.toNat < 0x80 :=
  ascii_of_isIdentChar c (isIdentChar_of_digit h)

theorem ascii_of_isAlphanum (c : Char) (h : c.isAlphanum) : c.toNat < 0x80 :=
  ascii_of_isIdentChar c (Bool.or_eq_true_iff.2 (.inl h))

theorem ascii_of_isIdentStart (c : Char) (h : isIdentStart c) : c.toNat < 0x80 :=
  ascii_of_isIdentChar c (isIdentChar_of_start h)

theorem pointAt_units (i : Nat) : pointAt text i =
    ((units text)[i]?.any (· == '.') && (units text)[i + 1]?.any Char.isDigit) := by
  by_cases h : i + 1 < (units text).length
  · rw [pointAt, dif_pos h, List.getElem?_eq_getElem h, List.getElem?_eq_getElem (by omega)]
    simp only [Option.any_some, beq_eq_decide]
  · rw [pointAt, dif_neg h, List.getElem?_eq_none (Nat.le_of_not_lt h), Option.any_none,
      Bool.and_false]

theorem pointAt_eq (h : dropBytes? i text = some cs) :
    pointAt text i = (cs.head?.any (· == '.') && cs.tail.head?.any Char.isDigit) := by
  have hpoint (c : Char) (hc : (c == '.') = true) : c.toNat < 0x80 := by
    rw [beq_iff_eq.1 hc]
    decide
  rw [pointAt_units, any_unit hpoint h]
  cases cs with
  | nil => rfl
  | cons c rest =>
    by_cases hc : c = '.'
    · subst hc
      have hrest : dropBytes? (i + 1) text = some rest := dropBytes?_cons h
      rw [any_unit ascii_of_isDigit hrest]
      rfl
    · have hne : (c == '.') = false := beq_eq_false_iff_ne.2 hc
      simp [hne]

-- The scan for a number goes as far as its numeral does.
theorem numeral_extent (h : dropBytes? i text = some cs) :
    let whole := skipWhile Char.isDigit (units text) i
    pointAt text whole = !(numeral cs).fraction.isEmpty ∧
      (if pointAt text whole then skipWhile Char.isDigit (units text) (whole + 1) else whole) =
        i + byteLength (numeral cs).text := by
  have hsplit : cs.takeWhile Char.isDigit ++ cs.dropWhile Char.isDigit = cs :=
    List.takeWhile_append_dropWhile
  have htail : dropBytes? (i + byteLength (cs.takeWhile Char.isDigit)) text =
      some (cs.dropWhile Char.isDigit) := dropBytes?_append (hsplit.symm ▸ h)
  intro whole
  have hwhole : whole = i + byteLength (cs.takeWhile Char.isDigit) :=
    skipWhile_units ascii_of_isDigit h
  rw [← hwhole] at htail
  rw [pointAt_eq htail]
  unfold numeral
  simp only
  generalize cs.dropWhile Char.isDigit = tail at htail ⊢
  have hnone (hflag : (tail.head?.any (· == '.') && tail.tail.head?.any Char.isDigit) = false) :
      (tail.head?.any (· == '.') && tail.tail.head?.any Char.isDigit) = !([] : List Char).isEmpty ∧
      (if (tail.head?.any (· == '.') && tail.tail.head?.any Char.isDigit) = true then
        skipWhile Char.isDigit (units text) (whole + 1) else whole) =
          i + byteLength (cs.takeWhile Char.isDigit) := by
    rw [hflag]
    exact ⟨rfl, hwhole⟩
  split
  · next d rest =>
    by_cases hd : d.isDigit
    · have hbehind : dropBytes? (whole + 1) text = some (d :: rest) := dropBytes?_cons htail
      have hflag : (('.' :: d :: rest).head?.any (· == '.') &&
          ('.' :: d :: rest).tail.head?.any Char.isDigit) = true := by simp [hd]
      have hpoint : '.'.utf8Size = 1 := rfl
      rw [if_pos hd, hflag, if_pos rfl, skipWhile_units ascii_of_isDigit hbehind,
        List.takeWhile_cons_of_pos hd, hwhole]
      refine ⟨rfl, ?_⟩
      simp only [Numeral.text, List.isEmpty_cons, Bool.false_eq_true, if_false, byteLength_append,
        byteLength_cons, hpoint]
      omega
    · rw [if_neg hd]
      exact hnone (by simp [hd])
  · next hnot =>
    refine hnone (Bool.eq_false_iff.2 fun hflag => ?_)
    obtain ⟨hpoint, hdigit⟩ := Bool.and_eq_true_iff.1 hflag
    cases tail with
    | nil => cases hpoint
    | cons c tail =>
      cases tail with
      | nil => cases hdigit
      | cons d rest =>
        obtain rfl := beq_iff_eq.1 hpoint
        exact hnot d rest rfl

theorem floatValue_text {n : Numeral} (hwhole : ∀ d ∈ n.whole, d.isDigit)
    (hempty : n.fraction.isEmpty = false) (hfraction : ∀ d ∈ n.fraction, d.isDigit) :
    floatValue n.text = Float.ofScientific (digitsValue (n.whole ++ n.fraction)) true
      n.fraction.length := by
  have hne : n.fraction ≠ [] := fun hnil => by simp [hnil] at hempty
  have hnumeral : numeral (n.whole ++ '.' :: (n.fraction ++ [])) = ⟨n.whole, n.fraction, []⟩ :=
    numeral_float hwhole ⟨hne, hfraction⟩ (by simp)
  rw [List.append_nil] at hnumeral
  rw [floatValue, Numeral.text, if_neg (by simp [hempty]), hnumeral]

-- A number is read as far as its numeral goes.
theorem numberAt_eq (h : dropBytes? i text = some cs) :
    numberAt text base i = some ((numberLiteral (base + i) cs).map (found base)) := by
  obtain ⟨hpoint, hstop⟩ := numeral_extent h
  obtain ⟨hcs, hwhole, hfraction⟩ := numeral_spelling cs
  unfold numberAt numberLiteral
  simp only [hstop]
  rw [hpoint]
  generalize numeral cs = n at hcs hwhole hfraction ⊢
  rw [hcs] at h
  have hrest := dropBytes?_append h
  have hwritten : sliceBytes? i
      (skipWhile Char.isAlphanum (units text) (i + byteLength n.text)) text =
        some (n.text ++ n.rest.takeWhile Char.isAlphanum) := by
    have hdrop : dropBytes? i text = some (n.text ++ n.rest.takeWhile Char.isAlphanum ++
        n.rest.dropWhile Char.isAlphanum) := by
      rwa [List.append_assoc, List.takeWhile_append_dropWhile]
    rw [skipWhile_units ascii_of_isAlphanum hrest, Nat.add_assoc, ← byteLength_append]
    exact sliceBytes?_of_drop hdrop
  have hfound : i + byteLength n.text = base + i + byteLength n.text - base := by omega
  simp only [sliceBytes?_of_drop h, bind_lift, any_unit ascii_of_isIdentStart hrest, hwritten]
  split
  · rfl
  cases hempty : n.fraction.isEmpty with
  | true =>
    have htext : n.text = n.whole := by rw [Numeral.text, if_pos hempty]
    rw [Bool.not_true, if_neg Bool.false_ne_true, if_pos rfl, ← htext]
    split
    · rw [hfound]
      rfl
    · rfl
  | false =>
    have hvalue := floatValue_text hwhole hempty hfraction
    rw [Bool.not_false, if_pos rfl, if_neg Bool.false_ne_true, hvalue, hfound]
    rfl

variable {c : Char}

theorem identAt_eq (h : dropBytes? i text = some (c :: cs)) (hc : isIdentStart c) :
    sliceBytes? i (skipWhile isIdentChar (units text) i) text =
        some (c :: cs.takeWhile isIdentChar) ∧
      skipWhile isIdentChar (units text) i = i + byteLength (c :: cs.takeWhile isIdentChar) := by
  have hstop : skipWhile isIdentChar (units text) i =
      i + byteLength (c :: cs.takeWhile isIdentChar) := by
    rw [skipWhile_units ascii_of_isIdentChar h,
      List.takeWhile_cons_of_pos (isIdentChar_of_start hc)]
  have hdrop : dropBytes? i text =
      some (c :: cs.takeWhile isIdentChar ++ cs.dropWhile isIdentChar) := by
    rwa [List.cons_append, List.takeWhile_append_dropWhile]
  exact ⟨hstop ▸ sliceBytes?_of_drop hdrop, hstop⟩

theorem lexemeAt_eq {hlt : i < (units text).length} (h : dropBytes? i text = some (c :: cs)) :
    lexemeAt text base i hlt = some ((lexeme (base + i) c cs).map (found base)) := by
  have hback (n : Nat) : base + i + n - base = i + n := by omega
  -- what is none of an identifier, a number and a string literal
  have hother : (do
      let rest ← dropBytes? i text
      match Symbol.read? rest with
      | some (s, _) => return (.symbol s, i + byteLength s.text.toList)
      | none => throw ⟨.unexpectedCharacter (rest.head?.getD '?'), base + i⟩ :
        Checked (Token × Nat)) =
      some ((match Symbol.read? (c :: cs) with
        | some (s, rest) => .ok ⟨.symbol s, base + i + byteLength s.text.toList, rest⟩
        | none => .error ⟨.unexpectedCharacter c, base + i⟩ : Except Fault Lexeme).map
          (found base)) := by
    rw [h, bind_lift]
    cases Symbol.read? (c :: cs) with
    | none => rfl
    | some read =>
      simp only [← hback]
      rfl
  by_cases hc : c.toNat < 0x80
  · obtain ⟨_, hunit⟩ := List.getElem?_eq_some_iff.1 (unit_of_ascii h hc)
    unfold lexemeAt lexeme
    simp only [hunit]
    by_cases hstart : isIdentStart c
    · obtain ⟨hslice, hstop⟩ := identAt_eq h hstart
      rw [if_pos hstart, if_pos hstart, hslice, bind_lift, hstop, ← hback]
      rfl
    rw [if_neg hstart, if_neg hstart]
    by_cases hdigit : c.isDigit
    · rw [if_pos hdigit, if_pos hdigit]
      exact numberAt_eq h
    rw [if_neg hdigit, if_neg hdigit]
    by_cases hquote : c = '"' ∨ c = '\''
    · have hrest : dropBytes? (i + 1) text = some cs := by
        rw [← utf8Size_of_ascii hc]
        exact dropBytes?_cons h
      rw [if_pos hquote, if_pos hquote, hrest, bind_lift]
      cases textLiteral c (base + i) (base + i + 1) cs <;> rfl
    rw [if_neg hquote, if_neg hquote]
    exact hother
  · have hwide := Nat.le_of_not_lt hc
    obtain ⟨u, hu, huwide⟩ : ∃ u, (units text)[i]? = some u ∧ 0x80 ≤ u.toNat :=
      unit_of_wide h hwide c.utf8Size_pos
    obtain ⟨_, hunit⟩ := List.getElem?_eq_some_iff.1 hu
    have hnone {d : Char} (hd : 0x80 ≤ d.toNat) :
        ¬ isIdentStart d ∧ ¬ d.isDigit ∧ ¬ (d = '"' ∨ d = '\'') := by
      refine ⟨fun hs => ?_, fun hs => ?_, not_or.2 ⟨?_, ?_⟩⟩
      · exact Nat.not_lt.2 hd (ascii_of_isIdentStart d hs)
      · exact Nat.not_lt.2 hd (ascii_of_isDigit d hs)
      · exact ne_of_wide hd (by decide)
      · exact ne_of_wide hd (by decide)
    obtain ⟨hstart, hdigit, hquote⟩ := hnone huwide
    obtain ⟨hstart', hdigit', hquote'⟩ := hnone hwide
    unfold lexemeAt lexeme
    simp only [hunit]
    rw [if_neg hstart, if_neg hdigit, if_neg hquote, if_neg hstart', if_neg hdigit', if_neg hquote']
    exact hother

theorem ascii_of_isCodeBlank (c : Char) (h : isCodeBlank c) : c.toNat < 0x80 := by
  simp only [isCodeBlank, Bool.or_eq_true, beq_iff_eq] at h
  rcases h with (((rfl | rfl) | rfl) | rfl) | rfl <;> decide

theorem isCodeBlank_unit {hlt : i < (units text).length} (h : dropBytes? i text = some (c :: cs)) :
    isCodeBlank (units text)[i] = isCodeBlank c := by
  have hany := any_unit ascii_of_isCodeBlank h
  rwa [List.getElem?_eq_getElem hlt] at hany

theorem tokensFrom_eq {pos : Nat} (h : dropBytes? i text = some cs) (hpos : pos = base + i) :
    tokensFrom text base i = some (Code.tokens pos cs) := by
  fun_induction Code.tokens pos cs generalizing i with
  | case1 pos =>
    have hend : ¬ i < (units text).length := by
      rw [length_units_of_drop h]
      exact Nat.lt_irrefl i
    rw [tokensFrom, dif_neg hend]
    rfl
  | case2 pos c rest hc ih =>
    have hrest : dropBytes? (i + 1) text = some rest := by
      rw [← utf8Size_of_ascii (ascii_of_isCodeBlank c hc)]
      exact dropBytes?_cons h
    rw [tokensFrom, dif_pos (lt_length_units h), isCodeBlank_unit h, if_pos hc]
    exact ih hrest (by omega)
  | case3 pos c rest hc fault hread =>
    rw [tokensFrom, dif_pos (lt_length_units h), isCodeBlank_unit h, if_neg hc, lexemeAt_eq h,
      ← hpos, hread]
    rfl
  | case4 pos c rest hc l hread hshorter ih =>
    obtain ⟨word, hcode, hstop, hword⟩ := spells_of_lexeme hread
    have hbehind : dropBytes? (i + byteLength word) text = some l.rest :=
      dropBytes?_append (hcode ▸ h)
    have hfound : lexemeAt text base i (lt_length_units h) =
        some (.ok (l.token, i + byteLength word)) := by
      have hback : l.stop - base = i + byteLength word := by omega
      rw [lexemeAt_eq h, ← hpos, hread, ← hback]
      rfl
    have hlt : i < i + byteLength word :=
      Nat.lt_add_of_pos_right (byteLength_pos_of_lt hcode (Nat.lt_succ_of_le hshorter))
    rw [tokensFrom, dif_pos (lt_length_units h), isCodeBlank_unit h, if_neg hc, bind_of_ok hfound]
    dsimp only
    rw [dif_pos hlt, ih hbehind (by omega), ← hpos, ← Nat.add_assoc, ← hpos, ← hstop]
    cases Code.tokens l.stop l.rest <;> rfl

end Equal

-- Code that lies in a source is cut without a failing slice, into the same tokens.
theorem tokens_eq {source : List Char} {inner : Slice} (h : inner.LiesIn source) :
    tokens source inner.start inner.stop = some (Code.tokens inner.start inner.chars) := by
  obtain ⟨before, after, hsource, hstart⟩ := h
  have hslice : sliceBytes? inner.start inner.stop source = some inner.chars :=
    sliceBytes?_eq_some_iff.2 ⟨before, after, hsource, hstart.symm, rfl⟩
  rw [tokens, hslice, bind_lift]
  refine tokensFrom_eq ?_ rfl
  cases inner.chars <;> rfl

-- The digits of an integer are what stands in its span.
theorem int_of_lexeme {pos m : Nat} {c : Char} {cs : List Char} {l : Lexeme} {digits : String}
    (h : lexeme pos c cs = .ok l) (hint : l.token = .int m digits) :
    c :: cs = digits.toList ++ l.rest ∧ l.stop = pos + byteLength digits.toList := by
  have hmap {α : Type} {r : Except Fault α} {f : α → Lexeme} (hr : r.map f = .ok l)
      (hf : ∀ a, (f a).token ≠ .int m digits) : False := by
    obtain ⟨a, -, rfl⟩ := exists_of_map_eq_ok hr
    exact hf a hint
  unfold lexeme at h
  split at h
  · obtain rfl := Except.ok.inj h
    cases hint
  split at h
  · obtain ⟨hcs, -⟩ := numeral_spelling (c :: cs)
    simp only [numberLiteral] at h
    split at h
    · cases h
    split at h
    · next hempty =>
      split at h
      · obtain rfl := Except.ok.inj h
        injection hint with _ hdigits
        have htext : digits.toList = (numeral (c :: cs)).text := by
          rw [← hdigits, String.toList_ofList, Numeral.text, if_pos hempty]
        rw [htext]
        exact ⟨hcs, rfl⟩
      · cases h
    · obtain rfl := Except.ok.inj h
      cases hint
  split at h
  · exact (hmap h fun _ heq => by cases heq).elim
  split at h
  · obtain rfl := Except.ok.inj h
    cases hint
  · cases h

theorem slice_of_int {source after : List Char} {pos : Nat} {cs : List Char} {ts : List Placed}
    (h : Code.tokens pos cs = .ok ts) (hsource : dropBytes? pos source = some (cs ++ after)) :
    ∀ t ∈ ts, ∀ m digits, t.token = .int m digits →
      sliceBytes? t.span.start t.span.stop source = some digits.toList := by
  fun_induction Code.tokens pos cs generalizing ts with
  | case1 =>
    obtain rfl := Except.ok.inj h
    simp
  | case2 pos c rest hc ih =>
    refine ih h ?_
    rw [← utf8Size_of_ascii (ascii_of_isCodeBlank c hc)]
    exact dropBytes?_cons hsource
  | case3 => cases h
  | case4 pos c rest hc l hread _ ih =>
    obtain ⟨ts, hts, rfl⟩ := exists_of_map_eq_ok h
    obtain ⟨word, hcode, hstop, -⟩ := spells_of_lexeme hread
    have hbehind : dropBytes? l.stop source = some (l.rest ++ after) := by
      rw [hcode, List.append_assoc] at hsource
      rw [hstop]
      exact dropBytes?_append hsource
    refine List.forall_mem_cons.2 ⟨fun m digits hint => ?_, ih hts hbehind⟩
    obtain ⟨hdigits, hend⟩ := int_of_lexeme hread hint
    rw [hdigits, List.append_assoc] at hsource
    change sliceBytes? pos l.stop source = _
    rw [hend]
    exact sliceBytes?_of_drop hsource

-- The tokens as a table, with the end of the code as the last entry.
def table (ts : List Placed) (stop : Nat) : List (Option Token × Span) :=
  ts.map (fun t => (some t.token, t.span)) ++ [(none, ⟨stop, stop⟩)]

-- The index behind an entry that is passed, and that of an entry further on. Neither goes beyond
-- the last entry.
def advance (entries : List (Option Token × Span)) (i : Nat) : Nat :=
  if i < entries.length - 1 then i + 1 else i

def ahead (entries : List (Option Token × Span)) (i steps : Nat) : Nat :=
  min (i + steps) (entries.length - 1)

-- What the reader sees at a cursor is what the table has at an index, here and further on, and the
-- index stays in the table.
structure Sees (ts : List Placed) (c : Cursor) (i : Nat) : Prop where
  entry : ∃ token span, (table ts c.stop)[i]? = some (token, span) ∧
    Reader.next?.run c = .ok (token, c) ∧ Reader.here.run c = .ok (span, c)
  ahead : ∀ steps, (table ts c.stop)[ahead (table ts c.stop) i steps]?.map (·.1) =
    some (c.tokens[steps]?.map (·.token))
  skip : Reader.skip.run c = .ok ((), { c with tokens := ts.drop (advance (table ts c.stop) i) })
  inside : advance (table ts c.stop) i ≤ ts.length

section Table

variable {ts : List Placed} {stop i : Nat}

theorem length_table (ts : List Placed) (stop : Nat) :
    (table ts stop).length = ts.length + 1 := by
  simp [table]

theorem getElem?_table (h : i ≤ ts.length) : (table ts stop)[i]? =
    some (ts[i]?.map (·.token), ts[i]?.elim ⟨stop, stop⟩ (·.span)) := by
  by_cases hlt : i < ts.length
  · rw [table, List.getElem?_append_left (by simpa using hlt), List.getElem?_map,
      List.getElem?_eq_getElem hlt]
    rfl
  · obtain rfl : i = ts.length := by omega
    rw [table, List.getElem?_append_right (by simp), List.getElem?_eq_none (Nat.le_refl _)]
    simp

theorem sees_drop (h : i ≤ ts.length) (stop n : Nat) : Sees ts ⟨ts.drop i, stop, n⟩ i where
  entry := by
    refine ⟨_, _, getElem?_table h, ?_, ?_⟩
    · rw [← List.head?_drop]
      rfl
    · rw [← List.head?_drop]
      rfl
  ahead steps := by
    have hin : ahead (table ts stop) i steps ≤ ts.length := by
      rw [ahead, length_table]
      omega
    simp only [getElem?_table hin, Option.map_some, List.getElem?_drop]
    by_cases hlast : i + steps ≤ ts.length
    · rw [ahead, length_table, Nat.add_sub_cancel, Nat.min_eq_left hlast]
    · rw [List.getElem?_eq_none (by rw [ahead, length_table]; omega),
        List.getElem?_eq_none (by omega)]
  skip := by
    have hdrop : ts.drop (advance (table ts stop) i) = (ts.drop i).tail := by
      rw [advance, length_table, Nat.add_sub_cancel, List.tail_drop]
      split
      · rfl
      · rw [List.drop_eq_nil_of_le (by omega), List.drop_eq_nil_of_le (by omega)]
    rw [hdrop]
    rfl
  inside := by
    rw [advance, length_table]
    split <;> omega

end Table

end Stencil.Code.Bytewise
