import Stencil.Proofs.Expr.Tokens

/-!
Where the text literals of some code stand. Code is a row of atoms: whole literals, and the
characters outside of literals. There is one such row at most, and the tokens of the code keep to
it: the literals among the tokens are those of the row.
-/

namespace Stencil.Code

-- What a literal may hold between its quotes. A backslash takes the character behind it along.
inductive Skips (quote : Char) : List Char → Prop where
  | nil : Skips quote []
  | plain {c : Char} {cs : List Char} (hquote : c ≠ quote) (hslash : c ≠ '\\')
      (hrest : Skips quote cs) : Skips quote (c :: cs)
  | escaped (c : Char) {cs : List Char} (hrest : Skips quote cs) : Skips quote ('\\' :: c :: cs)

abbrev IsQuote (c : Char) : Prop := c = '"' ∨ c = '\''

inductive Atom where
  | plain (c : Char)
  | literal (quote : Char) (body : List Char)

namespace Atom

def chars : Atom → List Char
  | plain c => [c]
  | literal quote body => quote :: body ++ [quote]

def Lawful : Atom → Prop
  | plain c => ¬ IsQuote c
  | literal quote body => IsQuote quote ∧ Skips quote body

-- The character, if it is outside of literals.
def outside? : Atom → Option Char
  | plain c => some c
  | literal _ _ => none

end Atom

-- The code that the atoms stand for, and its characters outside of literals.
def spelling (atoms : List Atom) : List Char := atoms.flatMap Atom.chars

def outside (atoms : List Atom) : List Char := atoms.filterMap Atom.outside?

-- The spans of the literals, where the code begins at byte `pos`.
def literalSpans (pos : Nat) : List Atom → List Span
  | [] => []
  | .plain c :: atoms => literalSpans (pos + c.utf8Size) atoms
  | .literal quote body :: atoms =>
    let stop := pos + byteLength (Atom.literal quote body).chars
    ⟨pos, stop⟩ :: literalSpans stop atoms

theorem Skips.quote_ne {quote : Char} (h : IsQuote quote) : quote ≠ '\\' := by
  rcases h with rfl | rfl <;> decide

theorem ascii_of_quote {quote : Char} (h : IsQuote quote) : quote.toNat < 0x80 := by
  rcases h with rfl | rfl <;> decide

theorem utf8Size_quote {quote : Char} (h : IsQuote quote) : quote.utf8Size = 1 := by
  rcases h with rfl | rfl <;> rfl

-- A literal ends at one place only.
theorem Skips.unique {quote : Char} (hslash : quote ≠ '\\') {body body' rest rest' : List Char}
    (h : Skips quote body) (h' : Skips quote body')
    (heq : body ++ quote :: rest = body' ++ quote :: rest') : body = body' ∧ rest = rest' := by
  induction h generalizing body' with
  | nil =>
    cases h' with
    | nil => exact ⟨rfl, (List.cons.inj heq).2⟩
    | plain hquote => exact absurd (List.cons.inj heq).1.symm hquote
    | escaped => exact absurd (List.cons.inj heq).1 hslash
  | plain hquote hback _ ih =>
    cases h' with
    | nil => exact absurd (List.cons.inj heq).1 hquote
    | plain _ _ hrest' =>
      obtain ⟨rfl, hbehind⟩ := List.cons.inj heq
      obtain ⟨rfl, rfl⟩ := ih hrest' hbehind
      exact ⟨rfl, rfl⟩
    | escaped => exact absurd (List.cons.inj heq).1 hback
  | escaped c _ ih =>
    cases h' with
    | nil => exact absurd (List.cons.inj heq).1.symm hslash
    | plain _ hback => exact absurd (List.cons.inj heq).1.symm hback
    | escaped c' hrest' =>
      obtain ⟨-, hescaped⟩ := List.cons.inj heq
      obtain ⟨rfl, hbehind⟩ := List.cons.inj hescaped
      obtain ⟨rfl, rfl⟩ := ih hrest' hbehind
      exact ⟨rfl, rfl⟩

section Rows

variable {atoms atoms' : List Atom} {cs rest : List Char} {c quote : Char}

@[simp] theorem spelling_plain_cons (c : Char) (atoms : List Atom) :
    spelling (.plain c :: atoms) = c :: spelling atoms := rfl

@[simp] theorem spelling_literal_cons (quote : Char) (body : List Char) (atoms : List Atom) :
    spelling (.literal quote body :: atoms) = quote :: (body ++ quote :: spelling atoms) := by
  simp [spelling, Atom.chars]

theorem spelling_plain (cs : List Char) : spelling (cs.map .plain) = cs := by
  induction cs with
  | nil => rfl
  | cons c cs ih => rw [List.map_cons, spelling_plain_cons, ih]

theorem lawful_plain (h : ∀ c ∈ cs, ¬ IsQuote c) : ∀ a ∈ cs.map Atom.plain, a.Lawful := by
  intro a ha
  obtain ⟨c, hc, rfl⟩ := List.mem_map.1 ha
  exact h c hc

theorem literalSpans_plain (pos : Nat) (cs : List Char) (atoms : List Atom) :
    literalSpans pos (cs.map .plain ++ atoms) = literalSpans (pos + byteLength cs) atoms := by
  induction cs generalizing pos with
  | nil => rfl
  | cons c cs ih =>
    rw [List.map_cons, List.cons_append, literalSpans, ih, byteLength_cons, Nat.add_assoc]

theorem eq_nil_of_spelling (h : spelling atoms = []) : atoms = [] := by
  cases atoms with
  | nil => rfl
  | cons a atoms => cases a <;> simp at h

-- The first character tells which atom comes first.
theorem exists_plain (hlawful : ∀ a ∈ atoms, a.Lawful) (h : spelling atoms = c :: cs)
    (hc : ¬ IsQuote c) : ∃ behind, atoms = .plain c :: behind ∧ spelling behind = cs := by
  cases atoms with
  | nil => cases h
  | cons a atoms =>
    cases a with
    | plain d =>
      obtain ⟨rfl, hcs⟩ := List.cons.inj h
      exact ⟨atoms, rfl, hcs⟩
    | literal quote body =>
      obtain ⟨rfl, -⟩ := List.cons.inj h
      exact absurd (hlawful _ List.mem_cons_self).1 hc

theorem exists_literal (hlawful : ∀ a ∈ atoms, a.Lawful) (h : spelling atoms = quote :: cs)
    (hquote : IsQuote quote) : ∃ body behind, atoms = .literal quote body :: behind ∧
      Skips quote body ∧ body ++ quote :: spelling behind = cs := by
  cases atoms with
  | nil => cases h
  | cons a atoms =>
    cases a with
    | plain d =>
      obtain ⟨rfl, -⟩ := List.cons.inj h
      exact absurd hquote (hlawful _ List.mem_cons_self)
    | literal quote' body =>
      rw [spelling_literal_cons] at h
      obtain ⟨rfl, hcs⟩ := List.cons.inj h
      exact ⟨body, atoms, rfl, (hlawful _ List.mem_cons_self).2, hcs⟩

-- Atoms in front of some code are among its own.
theorem exists_behind (hlawful : ∀ a ∈ atoms, a.Lawful) (hlawful' : ∀ a ∈ atoms', a.Lawful)
    (h : spelling atoms = spelling atoms' ++ rest) :
    ∃ behind, atoms = atoms' ++ behind ∧ spelling behind = rest := by
  induction atoms' generalizing atoms with
  | nil => exact ⟨atoms, rfl, h⟩
  | cons a atoms' ih =>
    obtain ⟨ha, hlawful'⟩ := List.forall_mem_cons.1 hlawful'
    have htail {behind : List Atom} (hatoms : atoms = a :: behind)
        (hbehind : spelling behind = spelling atoms' ++ rest) :
        ∃ behind, atoms = a :: atoms' ++ behind ∧ spelling behind = rest := by
      subst hatoms
      obtain ⟨-, hlawful⟩ := List.forall_mem_cons.1 hlawful
      obtain ⟨last, rfl, hlast⟩ := ih hlawful hlawful' hbehind
      exact ⟨last, rfl, hlast⟩
    cases a with
    | plain c =>
      obtain ⟨behind, hatoms, hbehind⟩ := exists_plain hlawful h ha
      exact htail hatoms hbehind
    | literal quote body =>
      obtain ⟨hquote, hbody⟩ := ha
      rw [spelling_literal_cons, List.cons_append, List.append_assoc, List.cons_append] at h
      obtain ⟨body', behind, hatoms, hbody', hcs⟩ := exists_literal hlawful h hquote
      obtain ⟨rfl, hbehind⟩ := hbody'.unique (Skips.quote_ne hquote) hbody hcs
      exact htail hatoms hbehind

end Rows

-- A literal that ends is not found to be open. What may be wrong with it is an escape.
theorem textLiteral_of_skips {quote : Char} (hquote : IsQuote quote) {body : List Char}
    (h : Skips quote body) (head pos : Nat) (rest : List Char) :
    (∃ e at', textLiteral quote head pos (body ++ quote :: rest) = .error ⟨.invalidEscape e, at'⟩) ∨
      ∃ value, textLiteral quote head pos (body ++ quote :: rest) =
        .ok (value, pos + byteLength body + 1, rest) := by
  induction h generalizing pos with
  | nil => exact .inr ⟨[], textLiteral_end head pos rest⟩
  | @plain c cs hc hback _ ih =>
    rw [List.cons_append, textLiteral_plain head pos _ hc hback]
    rcases ih (pos + c.utf8Size) with ⟨e, at', hread⟩ | ⟨value, hread⟩
    · exact .inl ⟨e, at', by rw [hread]; rfl⟩
    · refine .inr ⟨c :: value, ?_⟩
      rw [hread, byteLength_cons, ← Nat.add_assoc]
      rfl
  | @escaped c cs _ ih =>
    rw [List.cons_append, List.cons_append]
    cases hc : unescape? c with
    | none =>
      refine .inl ⟨c, pos, ?_⟩
      rw [textLiteral.eq_def]
      simp [(Skips.quote_ne hquote).symm, hc]
    | some u =>
      rw [textLiteral_escaped head pos _ (Skips.quote_ne hquote) hc]
      rcases ih (pos + 1 + c.utf8Size) with ⟨e, at', hread⟩ | ⟨value, hread⟩
      · exact .inl ⟨e, at', by rw [hread]; rfl⟩
      · refine .inr ⟨u :: value, ?_⟩
        have hsize : '\\'.utf8Size = 1 := rfl
        rw [hread, byteLength_cons, byteLength_cons, hsize, ← Nat.add_assoc, ← Nat.add_assoc]
        rfl

-- The span of a token that is a literal.
def Placed.literal? (t : Placed) : Option Span :=
  match t.token with
  | .text _ => some t.span
  | _ => none

-- Tokens have the given literals. Where there are no tokens, no literal is to blame for being open.
def HasLiterals (spans : List Span) : Except Fault (List Placed) → Prop
  | .ok ts => ts.filterMap Placed.literal? = spans
  | .error fault => fault.defect ≠ .unterminatedString

section Tokens

variable {pos stop : Nat} {c : Char} {cs : List Char} {spans : List Span}
  {r : Except Fault (List Placed)} {token : Token}

theorem HasLiterals.literal {value : String} (h : HasLiterals spans r) :
    HasLiterals (⟨pos, stop⟩ :: spans) (r.map (⟨.text value, pos, stop⟩ :: ·)) := by
  cases r with
  | error fault => exact h
  | ok ts => exact congrArg (⟨pos, stop⟩ :: ·) h

theorem HasLiterals.other (htoken : ∀ value, token ≠ .text value) (h : HasLiterals spans r) :
    HasLiterals spans (r.map (⟨token, pos, stop⟩ :: ·)) := by
  cases r with
  | error fault => exact h
  | ok ts =>
    cases token with
    | text value => exact absurd rfl (htoken value)
    | _ => exact h

-- What is read at a quote is a literal, and nothing else is.
theorem lexeme_of_quote (hc : IsQuote c) : lexeme pos c cs =
    (textLiteral c pos (pos + 1) cs).map
      fun (value, stop, rest) => ⟨.text (String.ofList value), stop, rest⟩ := by
  have hstart : ¬ isIdentStart c := by rcases hc with rfl | rfl <;> decide
  have hdigit : ¬ c.isDigit := by rcases hc with rfl | rfl <;> decide
  rw [lexeme, if_neg hstart, if_neg hdigit, if_pos hc]

theorem defect_of_lexeme {fault : Fault} (hc : ¬ IsQuote c) (h : lexeme pos c cs = .error fault) :
    fault.defect ≠ .unterminatedString := by
  unfold lexeme at h
  split at h
  · cases h
  split at h
  · simp only [numberLiteral] at h
    split at h
    · cases h
      simp
    split at h
    · split at h
      · cases h
      · cases h
        simp
    · cases h
  split at h
  · cases h
  · cases h
    simp

theorem not_text_of_lexeme {l : Lexeme} (hc : ¬ IsQuote c) (h : lexeme pos c cs = .ok l)
    (value : String) : l.token ≠ .text value := by
  obtain ⟨word, hcode, -, hword⟩ := spells_of_lexeme h
  intro htext
  rw [htext] at hword
  cases hword with
  | text hquote =>
    obtain ⟨rfl, -⟩ := List.cons.inj hcode
    exact hc hquote

-- There are no quotes in other words.
theorem Written.unquoted {w : Word} {word : List Char} (h : Written w word)
    (hw : ∀ value, w ≠ .text value) : ∀ c ∈ word, ¬ IsQuote c := by
  have hname {c : Char} (hc : isIdentChar c) : ¬ IsQuote c := by
    rintro (rfl | rfl) <;> exact absurd hc (by decide)
  have hdigit {c : Char} (hc : c.isDigit) : ¬ IsQuote c := hname (isIdentChar_of_digit hc)
  cases h with
  | ident hcs =>
    obtain ⟨hstart, hrest⟩ := hcs
    exact List.forall_mem_cons.2
      ⟨hname (isIdentChar_of_start hstart), fun c hc => hname (hrest c hc)⟩
  | int hds => exact fun c hc => hdigit (hds.2 c hc)
  | float hx =>
    obtain ⟨hwhole, hfraction⟩ := hx
    intro c hc
    rcases List.mem_append.1 hc with hc | hc
    · exact hdigit (hwhole.2 c hc)
    rcases List.mem_cons.1 hc with rfl | hc
    · decide
    · exact hdigit (hfraction.2 c hc)
  | text => exact absurd rfl (hw _)
  | symbol s =>
    have hall : s.text.toList.all (decide <| ¬ IsQuote ·) = true := by cases s <;> rfl
    exact fun c hc => of_decide_eq_true (List.all_eq_true.mp hall c hc)

-- At a quote a literal is read, or an escape in it is refused.
theorem lexeme_of_skips (hc : IsQuote c) {body : List Char} (h : Skips c body) (pos : Nat)
    (rest : List Char) :
    (∃ e at', lexeme pos c (body ++ c :: rest) = .error ⟨.invalidEscape e, at'⟩) ∨
      ∃ value, lexeme pos c (body ++ c :: rest) =
        .ok ⟨.text value, pos + 1 + byteLength body + 1, rest⟩ := by
  rw [lexeme_of_quote hc]
  rcases textLiteral_of_skips hc h pos (pos + 1) rest with ⟨e, at', hescape⟩ | ⟨value, hvalue⟩
  · exact .inl ⟨e, at', by rw [hescape]; rfl⟩
  · exact .inr ⟨String.ofList value, by rw [hvalue]; rfl⟩

-- Anywhere else, what is read is a number of characters outside of literals.
theorem exists_plain_of_lexeme {l : Lexeme} {atoms : List Atom} (hc : ¬ IsQuote c)
    (hread : lexeme pos c cs = .ok l) (hlawful : ∀ a ∈ atoms, a.Lawful)
    (hcs : spelling atoms = c :: cs) :
    ∃ word behind, atoms = word.map Atom.plain ++ behind ∧ spelling behind = l.rest ∧
      l.stop = pos + byteLength word := by
  obtain ⟨word, hcode, hstop, hword⟩ := spells_of_lexeme hread
  have hunquoted : ∀ c ∈ word, ¬ IsQuote c := by
    refine hword.unquoted fun value hvalue => ?_
    cases htoken : l.token with
    | text s => exact not_text_of_lexeme hc hread s htoken
    | _ =>
      rw [htoken] at hvalue
      cases hvalue
  rw [hcode] at hcs
  obtain ⟨behind, hatoms, hbehind⟩ := exists_behind hlawful (lawful_plain hunquoted)
    (by rwa [spelling_plain])
  exact ⟨word, behind, hatoms, hbehind, hstop⟩

end Tokens

-- The tokens of code that is a row of atoms have the literals of the row.
theorem hasLiterals_tokens {pos : Nat} {cs : List Char} {atoms : List Atom}
    (hlawful : ∀ a ∈ atoms, a.Lawful) (hcs : spelling atoms = cs) :
    HasLiterals (literalSpans pos atoms) (tokens pos cs) := by
  fun_induction tokens pos cs generalizing atoms with
  | case1 pos =>
    obtain rfl := eq_nil_of_spelling hcs
    rfl
  | case2 pos c rest hc ih =>
    have hquote : ¬ IsQuote c := by
      rintro (rfl | rfl) <;> exact absurd hc (by decide)
    obtain ⟨behind, rfl, hbehind⟩ := exists_plain hlawful hcs hquote
    have hrest := ih (List.forall_mem_cons.1 hlawful).2 hbehind
    rwa [literalSpans, utf8Size_of_blank hc]
  | case3 pos c rest hc fault hread =>
    by_cases hquote : IsQuote c
    · obtain ⟨body, behind, rfl, hbody, rfl⟩ := exists_literal hlawful hcs hquote
      rcases lexeme_of_skips hquote hbody pos (spelling behind) with
        ⟨e, at', hescape⟩ | ⟨value, hvalue⟩
      · obtain rfl := Except.error.inj (hread.symm.trans hescape)
        intro h
        cases h
      · cases hread.symm.trans hvalue
    · exact defect_of_lexeme hquote hread
  | case4 pos c rest hc l hread _ ih =>
    by_cases hquote : IsQuote c
    · obtain ⟨body, behind, rfl, hbody, rfl⟩ := exists_literal hlawful hcs hquote
      rcases lexeme_of_skips hquote hbody pos (spelling behind) with
        ⟨e, at', hescape⟩ | ⟨value, hvalue⟩
      · cases hread.symm.trans hescape
      · obtain rfl := Except.ok.inj (hread.symm.trans hvalue)
        have hstop : pos + byteLength (Atom.literal c body).chars =
            pos + 1 + byteLength body + 1 := by
          simp [Atom.chars, utf8Size_quote hquote]
          omega
        have hrest := ih (List.forall_mem_cons.1 hlawful).2 rfl
        rw [literalSpans, hstop]
        exact hrest.literal
    · obtain ⟨word, behind, rfl, hbehind, hstop⟩ :=
        exists_plain_of_lexeme hquote hread hlawful hcs
      have hrest := ih (fun a ha => hlawful a (List.mem_append_right _ ha)) hbehind
      rw [literalSpans_plain, ← hstop]
      exact hrest.other (not_text_of_lexeme hquote hread)

end Stencil.Code
