import Mathlib.Data.List.TakeWhile
import Stencil.Proofs.Effects
import Stencil.Proofs.Expr.Words

/-!
The tokens of code are words, and the code is a layout of them: each token is spelled where it
stands, and between tokens are blanks.
-/

namespace Stencil

namespace Code

theorem utf8Size_of_blank {c : Char} (hc : isCodeBlank c) : c.utf8Size = 1 := by
  simp only [isCodeBlank, Bool.or_eq_true, beq_iff_eq] at hc
  rcases hc with (((rfl | rfl) | rfl) | rfl) | rfl <;> rfl

-- A token takes its word off the front of the code.
structure Spells (pos : Nat) (cs : List Char) (l : Lexeme) (word : List Char) : Prop where
  code : cs = word ++ l.rest
  stop : l.stop = pos + byteLength word
  written : Written l.token.word word

theorem Laid.blank {c : Char} (hc : isCodeBlank c) {ws : List Word} {cs : List Char}
    (h : Laid ws cs) : Laid ws (c :: cs) := by
  have hblanks {blanks : List Char} (h : ∀ d ∈ blanks, isCodeBlank d) :
      ∀ d ∈ c :: blanks, isCodeBlank d := fun d hd =>
    (List.mem_cons.1 hd).elim (fun heq => heq ▸ hc) (h d)
  cases h with
  | nil h => exact .nil (hblanks h)
  | cons h hword hrest => exact .cons (hblanks h) hword hrest

-- A word without blanks before it.
theorem Written.laid {w : Word} {ws : List Word} {word cs : List Char} (hword : Written w word)
    (hcs : Laid ws cs) : Laid (w :: ws) (word ++ cs) :=
  @Laid.cons w ws [] word cs (fun _ h => nomatch h) hword hcs

theorem Written.laid_alone {w : Word} {word : List Char} (hword : Written w word) :
    Laid [w] word := by
  have hlaid := hword.laid (.nil (List.forall_mem_nil _))
  rwa [List.append_nil] at hlaid

theorem spells_ident {c : Char} (hc : isIdentStart c) (pos : Nat) (cs : List Char) :
    Spells pos (c :: cs)
      ⟨.ident (String.ofList (c :: cs.takeWhile isIdentChar)),
        pos + byteLength (c :: cs.takeWhile isIdentChar), cs.dropWhile isIdentChar⟩
      (c :: cs.takeWhile isIdentChar) where
  code := by simp
  stop := rfl
  written := .ident (.mk hc fun _ hd => List.mem_takeWhile_imp hd)

theorem numeral_spelling (cs : List Char) : cs = (numeral cs).text ++ (numeral cs).rest ∧
    (∀ d ∈ (numeral cs).whole, d.isDigit) ∧ ∀ d ∈ (numeral cs).fraction, d.isDigit := by
  have hcs := List.takeWhile_append_dropWhile (p := Char.isDigit) (l := cs)
  have hwhole : ∀ d ∈ cs.takeWhile Char.isDigit, d.isDigit := fun d => List.mem_takeWhile_imp
  unfold numeral
  simp only
  split
  · next d tail hpoint =>
    rw [hpoint] at hcs
    split
    · next hd =>
      refine ⟨?_, hwhole, fun c hc => ?_⟩
      · simp only [Numeral.text, List.isEmpty_cons, Bool.false_eq_true, if_false,
          List.append_assoc, List.cons_append, List.takeWhile_append_dropWhile]
        exact hcs.symm
      · rcases List.mem_cons.1 hc with rfl | hc
        · exact hd
        · exact List.mem_takeWhile_imp hc
    · exact ⟨by simp [Numeral.text, hcs], hwhole, by simp⟩
  · exact ⟨by simp [Numeral.text, hcs], hwhole, by simp⟩

theorem numeral_whole (cs : List Char) : (numeral cs).whole = cs.takeWhile Char.isDigit := by
  unfold numeral
  simp only
  split
  · split <;> rfl
  · rfl

theorem spells_number {pos : Nat} {c : Char} {cs : List Char} {l : Lexeme} (hc : c.isDigit)
    (h : numberLiteral pos (c :: cs) = .ok l) :
    Spells pos (c :: cs) l (numeral (c :: cs)).text := by
  obtain ⟨hcode, hwhole, hfraction⟩ := numeral_spelling (c :: cs)
  have hne : (numeral (c :: cs)).whole ≠ [] := by
    simp [numeral_whole, hc]
  simp only [numberLiteral] at h
  split at h
  · cases h
  split at h
  · next hempty =>
    split at h
    · next hfits =>
      obtain rfl := Except.ok.inj h
      refine ⟨hcode, rfl, ?_⟩
      rw [Numeral.text, if_pos hempty]
      exact .int ⟨hne, hwhole⟩ hfits
    · cases h
  · next hempty =>
    obtain rfl := Except.ok.inj h
    refine ⟨hcode, rfl, ?_⟩
    rw [Numeral.text, if_neg hempty]
    exact .float (.mk ⟨hne, hwhole⟩ ⟨by simpa using hempty, hfraction⟩)

theorem quoted_of_textLiteral {quote : Char} {head pos : Nat} {cs value rest : List Char}
    {stop : Nat}
    (h : textLiteral quote head pos cs = .ok (value, stop, rest)) :
    ∃ body, cs = body ++ quote :: rest ∧ Quoted quote value body ∧
      stop = pos + byteLength body + 1 := by
  fun_induction textLiteral quote head pos cs generalizing value with
  | case1 => cases h
  | case2 pos cs =>
    obtain ⟨rfl, rfl, rfl⟩ : [] = value ∧ pos + 1 = stop ∧ cs = rest := by simpa using h
    exact ⟨[], rfl, .nil, rfl⟩
  | case3 => cases h
  | case4 => cases h
  | case5 pos e cs u he _ ih =>
    obtain ⟨⟨value, _, _⟩, hread, heq⟩ := exists_of_map_eq_ok h
    obtain ⟨rfl, rfl, rfl⟩ : u :: value = _ ∧ _ = stop ∧ _ = rest := by simpa using heq
    obtain ⟨body, rfl, hbody, rfl⟩ := ih hread
    refine ⟨'\\' :: e :: body, rfl, .escaped he hbody, ?_⟩
    simp only [byteLength_cons]
    have hsize : '\\'.utf8Size = 1 := rfl
    omega
  | case6 pos c cs hc hslash ih =>
    obtain ⟨⟨value, _, _⟩, hread, heq⟩ := exists_of_map_eq_ok h
    obtain ⟨rfl, rfl, rfl⟩ : c :: value = _ ∧ _ = stop ∧ _ = rest := by simpa using heq
    obtain ⟨body, rfl, hbody, rfl⟩ := ih hread
    exact ⟨c :: body, rfl, .plain hc hslash hbody, by rw [byteLength_cons]; omega⟩

theorem spells_symbol {pos : Nat} {cs rest : List Char} {s : Symbol}
    (h : Symbol.read? cs = some (s, rest)) :
    Spells pos cs ⟨.symbol s, pos + byteLength s.text.toList, rest⟩ s.text.toList where
  code := by
    unfold Symbol.read? at h
    split at h <;> cases h <;> rfl
  stop := rfl
  written := .symbol s

-- Whatever token is read, its word stands at the front of the code.
theorem spells_of_lexeme {pos : Nat} {c : Char} {cs : List Char} {l : Lexeme}
    (h : lexeme pos c cs = .ok l) : ∃ word, Spells pos (c :: cs) l word := by
  unfold lexeme at h
  split at h
  · next hc =>
    obtain rfl := Except.ok.inj h
    exact ⟨_, spells_ident hc pos cs⟩
  split at h
  · next hc => exact ⟨_, spells_number hc h⟩
  split at h
  · next hquote =>
    have hsize : c.utf8Size = 1 := by rcases hquote with rfl | rfl <;> rfl
    obtain ⟨⟨value, stop, rest⟩, hread, rfl⟩ := exists_of_map_eq_ok h
    obtain ⟨body, rfl, hbody, rfl⟩ := quoted_of_textLiteral hread
    refine ⟨c :: body ++ [c], by simp, ?_, .text hquote hbody⟩
    simp [hsize]
    omega
  split at h
  · next hread =>
    obtain rfl := Except.ok.inj h
    exact ⟨_, spells_symbol hread⟩
  · cases h

-- The words of placed tokens, and the code that they were cut from.
theorem laid_of_tokens {pos : Nat} {cs : List Char} {ts : List Placed}
    (h : tokens pos cs = .ok ts) : Laid (words ts) cs := by
  fun_induction tokens pos cs generalizing ts with
  | case1 =>
    obtain rfl := Except.ok.inj h
    exact .nil (by simp)
  | case2 pos c rest hc ih => exact (ih h).blank hc
  | case3 => cases h
  | case4 pos c rest hc l hlexeme _ ih =>
    obtain ⟨ts, hts, rfl⟩ := exists_of_map_eq_ok h
    obtain ⟨word, hcode, -, hword⟩ := spells_of_lexeme hlexeme
    rw [hcode]
    exact hword.laid (ih hts)

theorem exists_written {ws : List Word} {cs : List Char} (h : Laid ws cs) :
    ∀ w ∈ ws, ∃ word, Written w word := by
  induction h with
  | nil => simp
  | cons _ hword _ ih => exact List.forall_mem_cons.2 ⟨⟨_, hword⟩, ih⟩

end Code

end Stencil
