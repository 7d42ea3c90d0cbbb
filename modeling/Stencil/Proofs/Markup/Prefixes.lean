import Stencil.Proofs.Markup.Recognition

/-!
A source, and the same source with more behind it. Where the source ends with the closer of an
interpolation or of a tag, its tokens stay as they are, and what is added is cut as it would be by
itself.
-/

namespace Stencil

-- A word is found at the front in the same way, whatever follows, where some character before that
-- cannot be part of it.
theorem dropWord?_append_right {word cs : List Char} (h : ∃ c ∈ cs, c ∉ word) (more : List Char) :
    dropWord? word (cs ++ more) = (dropWord? word cs).map (· ++ more) := by
  induction word generalizing cs with
  | nil => rfl
  | cons w word ih =>
    obtain ⟨c, hc, hword⟩ := h
    rw [List.mem_cons, not_or] at hword
    cases cs with
    | nil => cases hc
    | cons d cs =>
      by_cases hd : w = d
      · have hrest : c ∈ cs :=
          (List.mem_cons.1 hc).resolve_left fun heq => hword.1 (heq.trans hd.symm)
        simp only [List.cons_append, dropWord?, if_pos hd]
        exact ih ⟨c, hrest, hword.2⟩
      · simp only [List.cons_append, dropWord?, if_neg hd, Option.map_none]

-- The first occurrence of a word stays the first one.
theorem splitAtWord?_append_right {word cs before rest : List Char}
    (h : splitAtWord? word cs = some (before, rest)) (more : List Char) :
    splitAtWord? word (cs ++ more) = some (before, rest ++ more) := by
  induction cs generalizing before with
  | nil => cases h
  | cons c cs ih =>
    rw [List.cons_append]
    unfold splitAtWord? at h ⊢
    cases hdrop : dropWord? word (c :: cs) with
    | some r =>
      rw [hdrop] at h
      obtain ⟨rfl, rfl⟩ := Prod.mk.inj (Option.some.inj h)
      have hmore : dropWord? word (c :: (cs ++ more)) = some (r ++ more) := by
        rw [dropWord?_eq_some_iff, ← List.append_assoc, ← dropWord?_eq_some_iff.1 hdrop]
        rfl
      rw [hmore]
    | none =>
      rw [hdrop] at h
      obtain ⟨⟨b, r⟩, hb, he⟩ := Option.map_eq_some_iff.1 h
      obtain ⟨rfl, rfl⟩ := Prod.mk.inj he
      -- The word stands further on, so what is in front of it is no beginning of the word.
      have hnone : dropWord? word (c :: (cs ++ more)) = none := by
        refine Option.eq_none_iff_forall_ne_some.2 fun r' hr' => ?_
        have hlonger : word.length ≤ (c :: cs).length := by
          have hlength := congrArg List.length (eq_append_of_splitAtWord? hb)
          simp only [List.length_append] at hlength
          simp only [List.length_cons]
          omega
        have hword : word <+: c :: cs ++ more := ⟨r', (dropWord?_eq_some_iff.1 hr').symm⟩
        obtain ⟨ds, hds⟩ := List.prefix_of_prefix_length_le hword (List.prefix_append _ _) hlonger
        cases hdrop.symm.trans (dropWord?_eq_some_iff.2 hds.symm)
      rw [hnone]
      simp only [ih hb, Option.map_some]

-- The same fault, so many bytes further on.
def Fault.moved (k : Nat) (fault : Fault) : Fault := ⟨fault.defect, k + fault.offset⟩

namespace Markup

-- A source that is left where the closer of a token is still to come.
def EndsWithCloser (cs : List Char) : Prop :=
  ∃ front closer, cs = front ++ [closer] ∧ (closer = ')' ∨ closer = '\x7d')

namespace EndsWithCloser

variable {cs m rest : List Char}

theorem of_append (h : EndsWithCloser (m ++ rest)) (hrest : rest ≠ []) : EndsWithCloser rest := by
  obtain ⟨front, closer, heq, hcloser⟩ := h
  rcases List.eq_nil_or_concat rest with rfl | ⟨init, last, rfl⟩
  · exact absurd rfl hrest
  · rw [List.concat_eq_append, ← List.append_assoc] at heq
    obtain ⟨-, hlast⟩ := List.append_inj' heq rfl
    obtain rfl := List.singleton_inj.1 hlast
    exact ⟨init, last, List.concat_eq_append, hcloser⟩

theorem ne_nil (h : EndsWithCloser cs) : cs ≠ [] := by
  obtain ⟨front, closer, rfl, -⟩ := h
  simp

-- No word without closers ends such a source.
theorem exists_notMem (h : EndsWithCloser cs) {word : List Char}
    (hword : ')' ∉ word ∧ '\x7d' ∉ word) : ∃ c ∈ cs, c ∉ word := by
  obtain ⟨front, closer, rfl, rfl | rfl⟩ := h
  · exact ⟨_, List.mem_append_right _ List.mem_cons_self, hword.1⟩
  · exact ⟨_, List.mem_append_right _ List.mem_cons_self, hword.2⟩

theorem ne_nil_of_word (h : EndsWithCloser (m ++ rest)) (hword : ')' ∉ m ∧ '\x7d' ∉ m) :
    rest ≠ [] := by
  rintro rfl
  obtain ⟨c, hc, hnot⟩ := h.exists_notMem hword
  exact hnot (by simpa using hc)

theorem dropWord? (h : EndsWithCloser cs) (word : List Char) (hword : ')' ∉ word ∧ '\x7d' ∉ word)
    (more : List Char) :
    Stencil.dropWord? word (cs ++ more) = (Stencil.dropWord? word cs).map (· ++ more) :=
  dropWord?_append_right (h.exists_notMem hword) more

theorem dropKeyword? (h : EndsWithCloser cs) (word : List Char)
    (hword : ')' ∉ word ∧ '\x7d' ∉ word) (more : List Char) :
    Markup.dropKeyword? word (cs ++ more) = (Markup.dropKeyword? word cs).map (· ++ more) := by
  unfold Markup.dropKeyword?
  rw [h.dropWord? word hword more]
  cases hdrop : Stencil.dropWord? word cs with
  | none => rfl
  | some rest =>
    obtain rfl := dropWord?_eq_some_iff.1 hdrop
    obtain ⟨c, rest, rfl⟩ := List.exists_cons_of_ne_nil (h.ne_nil_of_word hword)
    change (if Option.any isIdentChar (some c) = true then none else some (c :: rest ++ more)) =
      Option.map (· ++ more)
        (if Option.any isIdentChar (some c) = true then none else some (c :: rest))
    by_cases hlonger : Option.any isIdentChar (some c) = true
    · rw [if_pos hlonger, if_pos hlonger]
      rfl
    · rw [if_neg hlonger, if_neg hlonger]
      rfl

end EndsWithCloser

-- The same piece with more behind it.
def Lexeme.followedBy (l : Lexeme) (more : List Char) : Lexeme := { l with rest := l.rest ++ more }

section Readers

variable {head start pos : Nat} {cs more : List Char} {l : Lexeme}

theorem enclosed_append {opener closer : Char} {unclosed : Defect} {state : Quoting} {depth : Nat}
    {inner rest : List Char}
    (h : enclosed opener closer unclosed state depth cs = .ok (inner, rest)) (more : List Char) :
    enclosed opener closer unclosed state depth (cs ++ more) = .ok (inner, rest ++ more) := by
  induction cs generalizing state depth inner with
  | nil => cases state <;> cases h
  | cons c cs ih =>
    have onward {state' : Quoting} {depth' : Nat}
        (h' : ((enclosed opener closer unclosed state' depth' cs).map
          fun p => (c :: p.1, p.2)) = .ok (inner, rest)) :
        ((enclosed opener closer unclosed state' depth' (cs ++ more)).map
          fun p => (c :: p.1, p.2)) = .ok (inner, rest ++ more) := by
      obtain ⟨⟨tail, rest'⟩, htail, heq⟩ := exists_of_map_eq_ok h'
      obtain ⟨rfl, rfl⟩ := Prod.mk.inj heq
      rw [ih htail]
      rfl
    rw [List.cons_append]
    cases state with
    | escaped quote => exact onward h
    | quoted quote => exact onward h
    | code =>
      simp only [enclosed] at h ⊢
      by_cases hquote : c = '"' ∨ c = '\''
      · rw [if_pos hquote] at h ⊢
        exact onward h
      rw [if_neg hquote] at h ⊢
      by_cases hopener : c = opener
      · rw [if_pos hopener] at h ⊢
        exact onward h
      rw [if_neg hopener] at h ⊢
      by_cases hcloser : c = closer
      · rw [if_pos hcloser] at h ⊢
        cases depth with
        | zero =>
          obtain ⟨rfl, rfl⟩ := Prod.mk.inj (Except.ok.inj h)
          rfl
        | succ depth => exact onward h
      · rw [if_neg hcloser] at h ⊢
        exact onward h

theorem enclosedFrom_append {opener closer : Char} {unclosed : Defect} {inner : Slice} {stop : Nat}
    {rest : List Char}
    (h : enclosedFrom opener closer unclosed head start cs = .ok (inner, stop, rest))
    (more : List Char) :
    enclosedFrom opener closer unclosed head start (cs ++ more) =
      .ok (inner, stop, rest ++ more) := by
  unfold enclosedFrom at h ⊢
  split at h
  · cases h
  · next inner' rest' he =>
    rw [enclosed_append he more]
    cases h
    rfl

theorem interpolation_append {raw : Bool} (h : interpolation raw head start cs = .ok l)
    (more : List Char) :
    interpolation raw head start (cs ++ more) = .ok (l.followedBy more) := by
  obtain ⟨⟨inner, stop, rest⟩, hread, rfl⟩ := exists_of_map_eq_ok h
  rw [interpolation, enclosedFrom_append hread more]
  rfl

theorem parenthesised_append {tag : Slice → Tag} (h : parenthesised head start tag cs = .ok l)
    (more : List Char) :
    parenthesised head start tag (cs ++ more) = .ok (l.followedBy more) := by
  obtain ⟨⟨inner, stop, rest⟩, hread, rfl⟩ := exists_of_map_eq_ok h
  rw [parenthesised, enclosedFrom_append hread more]
  rfl

theorem rawBlock_append (h : rawBlock head cs = .ok l) (more : List Char) :
    rawBlock head (cs ++ more) = .ok (l.followedBy more) := by
  unfold rawBlock at h ⊢
  split at h
  · cases h
  · next body rest hsplit =>
    obtain rfl := Except.ok.inj h
    rw [splitAtWord?_append_right hsplit more]
    rfl

-- A line that has its end keeps it.
theorem paramLine_append (hbreak : '\n' ∈ cs) (more : List Char) :
    paramLine head (cs ++ more) = (paramLine head cs).followedBy more := by
  unfold paramLine
  simp only [takeWhile_append_of_mem hbreak, dropWhile_append_of_mem hbreak]
  cases hrest : cs.dropWhile (· != '\n') with
  | nil =>
    have hall := List.dropWhile_eq_nil_iff.1 hrest _ hbreak
    simp at hall
  | cons c rest => rfl

-- One without an end ends the source.
theorem paramLine_of_notMem (head : Nat) (hnone : '\n' ∉ cs) : (paramLine head cs).rest = [] ∧
    ∃ slice span, (paramLine head cs).token = .tag (.param slice) span := by
  have hrest : cs.dropWhile (· != '\n') = [] := by
    refine List.dropWhile_eq_nil_iff.2 fun c hc => ?_
    simpa using fun heq : c = '\n' => hnone (heq ▸ hc)
  unfold paramLine
  rw [hrest]
  exact ⟨rfl, _, _, rfl⟩

theorem inclusion_append (h : inclusion head cs = .ok l) (more : List Char) :
    inclusion head (cs ++ more) = .ok (l.followedBy more) := by
  unfold inclusion at h ⊢
  simp only at h ⊢
  cases hrest : cs.dropWhile fun c => isIdentChar c || c == '.' with
  | nil =>
    rw [hrest] at h
    split at h <;> cases h
  | cons c rest =>
    have hname :
        ((cs.takeWhile fun c => isIdentChar c || c == '.').length = cs.length) = False := by
      have hlength := congrArg List.length
        (List.takeWhile_append_dropWhile (p := fun c => isIdentChar c || c == '.') (l := cs))
      rw [hrest] at hlength
      simp only [List.length_append, List.length_cons] at hlength
      refine eq_false ?_
      omega
    rw [List.takeWhile_append, List.dropWhile_append]
    simp only [hrest, hname, if_false, List.isEmpty_cons, Bool.false_eq_true,
      List.cons_append] at h ⊢
    split at h
    · next hdotted =>
      rw [if_pos hdotted]
      split at h
      · next heq =>
        cases heq
        exact parenthesised_append h more
      · cases h
    · cases h

-- One word is tried, and then what is tried after it.
theorem tried_append {α : Type} {read : Option (List Char)} {yes yes' : List Char → α}
    {no no' a b : α} (h : (if let some rest := read then yes rest else no) = a)
    (hyes : ∀ rest, read = some rest → yes rest = a → yes' (rest ++ more) = b)
    (hno : no = a → no' = b) :
    (if let some rest := read.map (· ++ more) then yes' rest else no') = b := by
  cases read with
  | none => exact hno h
  | some rest => exact hyes rest rfl h

-- Longer words than those that stand there are not made by what is added, as there is a closer
-- before it.
theorem tag?_append (hcs : EndsWithCloser cs) {found : Option Lexeme}
    (h : tag? head cs = .ok found)
    (hfound : ∀ l ∈ found, l.rest = [] → ∀ slice span, l.token ≠ .tag (.param slice) span)
    (more : List Char) : tag? head (cs ++ more) = .ok (found.map (·.followedBy more)) := by
  have tagged {r r' : Except Fault Lexeme} (hr : r.map some = .ok found)
      (hmore : ∀ l, r = .ok l → r' = .ok (l.followedBy more)) :
      r'.map some = .ok (found.map (·.followedBy more)) := by
    obtain ⟨l, hl, rfl⟩ := exists_of_map_eq_ok hr
    rw [hmore l hl]
    rfl
  have bare {tag : Tag} {stop : Nat} {rest : List Char}
      (hr : Except.ok (some (bareTag tag head stop rest)) = (.ok found : Except Fault _)) :
      Except.ok (some (bareTag tag head stop (rest ++ more))) =
        (.ok (found.map (·.followedBy more)) : Except Fault _) := by
    obtain rfl := Except.ok.inj hr
    rfl
  unfold tag? at h ⊢
  rw [hcs.dropWord? "if(".toList (by decide) more]
  refine tried_append h (fun rest _ h => tagged h fun l hl => parenthesised_append hl more)
    fun h => ?_
  rw [hcs.dropWord? "elseif(".toList (by decide) more]
  refine tried_append h (fun rest _ h => tagged h fun l hl => parenthesised_append hl more)
    fun h => ?_
  rw [hcs.dropWord? "for(".toList (by decide) more]
  refine tried_append h (fun rest _ h => tagged h fun l hl => parenthesised_append hl more)
    fun h => ?_
  rw [hcs.dropKeyword? "else".toList (by decide) more]
  refine tried_append h (fun rest _ h => bare h) fun h => ?_
  rw [hcs.dropKeyword? "endif".toList (by decide) more]
  refine tried_append h (fun rest _ h => bare h) fun h => ?_
  rw [hcs.dropKeyword? "endfor".toList (by decide) more]
  refine tried_append h (fun rest _ h => bare h) fun h => ?_
  rw [hcs.dropKeyword? "end".toList (by decide) more]
  refine tried_append h (fun rest _ h => bare h) fun h => ?_
  rw [hcs.dropKeyword? "endraw".toList (by decide) more]
  refine tried_append h (fun rest _ h => nomatch h) fun h => ?_
  rw [hcs.dropKeyword? "raw".toList (by decide) more]
  refine tried_append h (fun rest _ h => tagged h fun l hl => rawBlock_append hl more) fun h => ?_
  rw [hcs.dropWord? "param".toList (by decide) more]
  refine tried_append h (fun rest hdrop hparam => ?_) fun h => ?_
  · clear h
    obtain rfl := dropWord?_eq_some_iff.1 hdrop
    obtain ⟨c, rest, rfl⟩ := List.exists_cons_of_ne_nil (hcs.ne_nil_of_word (by decide))
    have hhead : (c :: rest ++ more).head? = (c :: rest).head? := rfl
    rw [hhead]
    by_cases hblank : ((c :: rest).head?.any fun c => c == ' ' || c == '\t') = true
    · rw [if_pos hblank] at hparam ⊢
      obtain rfl := Except.ok.inj hparam
      have hbreak : '\n' ∈ c :: rest := by
        by_contra hnone
        obtain ⟨hrest, slice, span, htoken⟩ := paramLine_of_notMem head hnone
        exact hfound _ rfl hrest slice span htoken
      rw [paramLine_append hbreak more]
      rfl
    · rw [if_neg hblank] at hparam ⊢
      obtain rfl := Except.ok.inj hparam
      rfl
  · rw [hcs.dropWord? "template.".toList (by decide) more]
    refine tried_append h (fun rest _ h => tagged h fun l hl => inclusion_append hl more)
      fun h => ?_
    obtain rfl := Except.ok.inj h
    rfl

theorem interpolation?_append (hcs : EndsWithCloser cs) {found : Option Lexeme}
    (h : interpolation? head cs = .ok found) (more : List Char) :
    interpolation? head (cs ++ more) = .ok (found.map (·.followedBy more)) := by
  have read {raw : Bool} {start : Nat} {rest : List Char}
      (hr : (interpolation raw head start rest).map some = .ok found) :
      (interpolation raw head start (rest ++ more)).map some =
        .ok (found.map (·.followedBy more)) := by
    obtain ⟨l, hl, rfl⟩ := exists_of_map_eq_ok hr
    rw [interpolation_append hl more]
    rfl
  unfold interpolation? at h ⊢
  rw [hcs.dropWord? "\x7b".toList (by decide) more]
  refine tried_append h (fun rest _ h => read h) fun h => ?_
  rw [hcs.dropWord? "unsafe\x7b".toList (by decide) more]
  refine tried_append h (fun rest _ h => read h) fun h => ?_
  obtain rfl := Except.ok.inj h
  rfl

theorem comment?_append (hcs : EndsWithCloser cs) {found : Option Lexeme}
    (h : comment? head cs = .ok found) (more : List Char) :
    comment? head (cs ++ more) = .ok (found.map (·.followedBy more)) := by
  unfold comment? at h ⊢
  rw [hcs.dropWord? "%--".toList (by decide) more]
  cases hdrop : dropWord? "%--".toList cs with
  | none =>
    rw [hdrop] at h
    obtain rfl := Except.ok.inj h
    rfl
  | some body =>
    rw [hdrop] at h
    simp only [Option.map_some] at h ⊢
    cases hsplit : splitAtWord? "--%>".toList body with
    | none =>
      rw [hsplit] at h
      cases h
    | some found' =>
      obtain ⟨inner, rest⟩ := found'
      rw [hsplit] at h
      obtain rfl := Except.ok.inj h
      rw [splitAtWord?_append_right hsplit more]
      rfl

-- What begins here, or does not, is the same when more follows.
theorem lexeme?_append (hcs : EndsWithCloser cs) {found : Option Lexeme}
    (h : lexeme? pos cs = .ok found)
    (hfound : ∀ l ∈ found, l.rest = [] → ∀ slice span, l.token ≠ .tag (.param slice) span)
    (more : List Char) : lexeme? pos (cs ++ more) = .ok (found.map (·.followedBy more)) := by
  have behind {c : Char} {rest : List Char} (hc : c ≠ ')' ∧ c ≠ '\x7d')
      (hcons : EndsWithCloser (c :: rest)) : EndsWithCloser rest := by
    rw [← List.singleton_append] at hcons
    exact hcons.of_append (hcons.ne_nil_of_word (by simpa [eq_comm] using hc))
  unfold lexeme? at h
  split at h
  · exact interpolation?_append (behind (by decide) hcs) h more
  · exact tag?_append (behind (by decide) hcs) h hfound more
  · exact comment?_append (behind (by decide) hcs) h more
  · next hinterpolation htag hcomment =>
    obtain rfl := Except.ok.inj h
    obtain ⟨c, rest, rfl⟩ := List.exists_cons_of_ne_nil hcs.ne_nil
    rw [List.cons_append, lexeme?]
    · rfl
    · rintro tail ⟨⟩
      exact hinterpolation rest rfl
    · rintro tail ⟨⟩
      exact htag rest rfl
    · rintro tail ⟨⟩
      exact hcomment rest rfl

end Readers

-- What is left behind a piece.
def remains (read : Except Fault (Option Lexeme)) : Except Fault (Option (List Char)) :=
  read.map (·.map Lexeme.rest)

section Places

variable (k head start start' pos : Nat) (cs : List Char)

theorem remains_interpolation (raw raw' : Bool) :
    remains ((interpolation raw (k + head) start cs).map some) =
      (remains ((interpolation raw' head start' cs).map some)).mapError (·.moved k) := by
  unfold interpolation enclosedFrom
  cases enclosed '\x7b' '\x7d' .unterminatedInterpolation .code 0 cs <;> rfl

theorem remains_parenthesised (tag tag' : Slice → Tag) :
    remains ((parenthesised (k + head) start tag cs).map some) =
      (remains ((parenthesised head start' tag' cs).map some)).mapError (·.moved k) := by
  unfold parenthesised enclosedFrom
  cases enclosed '(' ')' .unterminatedTag .code 0 cs <;> rfl

theorem remains_rawBlock : remains ((rawBlock (k + head) cs).map some) =
    (remains ((rawBlock head cs).map some)).mapError (·.moved k) := by
  unfold rawBlock
  cases splitAtWord? "@endraw".toList cs <;> rfl

theorem remains_paramLine : remains (.ok (some (paramLine (k + head) cs))) =
    (remains (.ok (some (paramLine head cs)))).mapError (·.moved k) := by
  unfold paramLine
  cases cs.dropWhile (· != '\n') <;> rfl

theorem remains_inclusion : remains ((inclusion (k + head) cs).map some) =
    (remains ((inclusion head cs).map some)).mapError (·.moved k) := by
  unfold inclusion
  simp only
  split
  · split
    · exact remains_parenthesised _ _ _ _ _ _ _
    · simp only [Slice.stop, Nat.add_assoc]
      rfl
  · rfl

-- One word is tried, and then what is tried after it.
theorem remains_tried {k : Nat} {read : Option (List Char)}
    {yes yes' : List Char → Except Fault (Option Lexeme)}
    {no no' : Except Fault (Option Lexeme)}
    (hyes : ∀ rest, remains (yes rest) = (remains (yes' rest)).mapError (·.moved k))
    (hno : remains no = (remains no').mapError (·.moved k)) :
    remains (if let some rest := read then yes rest else no) =
      (remains (if let some rest := read then yes' rest else no')).mapError (·.moved k) := by
  cases read with
  | none => exact hno
  | some rest => exact hyes rest

theorem remains_tag? :
    remains (tag? (k + head) cs) = (remains (tag? head cs)).mapError (·.moved k) := by
  unfold tag?
  refine remains_tried (fun rest => remains_parenthesised _ _ _ _ rest _ _) ?_
  refine remains_tried (fun rest => remains_parenthesised _ _ _ _ rest _ _) ?_
  refine remains_tried (fun rest => remains_parenthesised _ _ _ _ rest _ _) ?_
  refine remains_tried (fun rest => rfl) ?_
  refine remains_tried (fun rest => rfl) ?_
  refine remains_tried (fun rest => rfl) ?_
  refine remains_tried (fun rest => rfl) ?_
  refine remains_tried (fun rest => rfl) ?_
  refine remains_tried (fun rest => remains_rawBlock _ _ rest) ?_
  refine remains_tried (fun rest => ?_) ?_
  · split
    · exact remains_paramLine _ _ rest
    · rfl
  · exact remains_tried (fun rest => remains_inclusion _ _ rest) rfl

-- A piece takes the same wherever it stands, and a fault moves with it.
theorem remains_lexeme? :
    remains (lexeme? (k + pos) cs) = (remains (lexeme? pos cs)).mapError (·.moved k) := by
  unfold lexeme?
  split
  · unfold interpolation?
    exact remains_tried (fun rest => remains_interpolation _ _ _ _ rest _ _)
      (remains_tried (fun rest => remains_interpolation _ _ _ _ rest _ _) rfl)
  · exact remains_tag? _ _ _
  · unfold comment?
    split
    · rfl
    · split <;> rfl
  · rfl

end Places

-- The tags with code in parentheses, and interpolations.
def Token.isEnclosed : Token → Bool
  | .interpolation _ _ _ => true
  | .tag (.condition _) _ | .tag (.elseCondition _) _ | .tag (.loop _) _
  | .tag (.inclusion _ _) _ => true
  | _ => false

section Tokens

variable {start pos : Nat} {run cs : List Char} {ts : List Token} {t : Token}

theorem lexemes_of_none {c : Char} {rest : List Char} (h : lexeme? pos (c :: rest) = .ok none) :
    lexemes start run pos (c :: rest) = lexemes start (c :: run) (pos + c.utf8Size) rest := by
  rw [lexemes]
  split
  · next hread => cases hread.symm.trans h
  · rfl
  · next hread => cases hread.symm.trans h

theorem lexemes_of_some {l : Lexeme} (h : lexeme? pos cs = .ok (some l)) :
    lexemes start run pos cs = (lexemes l.stop [] l.stop l.rest).map
      fun tokens => textRun start run ++ l.token :: tokens := by
  cases cs with
  | nil => cases h
  | cons c rest =>
    rw [lexemes]
    split
    · next hread => cases hread.symm.trans h
    · next hread => cases hread.symm.trans h
    · next hread =>
      obtain rfl := Option.some.inj (Except.ok.inj (hread.symm.trans h))
      rfl

theorem lexemes_of_error {fault : Fault} (h : lexeme? pos cs = .error fault) :
    lexemes start run pos cs = .error fault := by
  cases cs with
  | nil => cases h
  | cons c rest =>
    rw [lexemes]
    split
    · next hread =>
      obtain rfl := Except.error.inj (hread.symm.trans h)
      rfl
    · next hread => cases hread.symm.trans h
    · next hread => cases hread.symm.trans h

-- A source is cut at every place, or it is refused at every place, with its fault there.
theorem lexemes_moved {k start' : Nat} {run' : List Char} :
    (lexemes start' run' (k + pos) cs).map (fun _ => ()) =
      ((lexemes start run pos cs).map fun _ => ()).mapError (·.moved k) := by
  have dropped {start : Nat} {run : List Char} {l : Lexeme} {read : Except Fault (List Token)} :
      (read.map fun tokens => textRun start run ++ l.token :: tokens).map (fun _ => ()) =
        read.map fun _ => () := by
    cases read <;> rfl
  fun_induction lexemes start run pos cs generalizing start' run' with
  | case1 =>
    rw [lexemes]
    rfl
  | case2 start run pos c rest fault hread =>
    have hmoved := remains_lexeme? k pos (c :: rest)
    rw [hread] at hmoved
    have hread' : lexeme? (k + pos) (c :: rest) = .error (fault.moved k) := eq_error_of_map hmoved
    rw [lexemes_of_error hread']
    rfl
  | case3 start run pos c rest hnone ih =>
    have hmoved := remains_lexeme? k pos (c :: rest)
    rw [hnone] at hmoved
    obtain ⟨found, hread', hfound⟩ := exists_of_map_eq_ok hmoved
    obtain rfl := Option.map_eq_none_iff.1 hfound
    rw [lexemes_of_none hread', Nat.add_assoc]
    exact ih
  | case4 start run pos c rest l hread ih =>
    have hmoved := remains_lexeme? k pos (c :: rest)
    rw [hread] at hmoved
    obtain ⟨found, hread', hfound⟩ := exists_of_map_eq_ok hmoved
    obtain ⟨l', rfl, hrest⟩ := Option.map_eq_some_iff.1 hfound
    -- Both pieces take the same characters, so that they end as far apart as they begin.
    have hstop : l'.stop = k + l.stop := by
      obtain ⟨m, hm, hl, -⟩ := spelled_lexeme? hread
      obtain ⟨m', hm', hl', -⟩ := spelled_lexeme? hread'
      rw [hrest] at hm'
      obtain rfl := List.append_cancel_right (hm.symm.trans hm')
      rw [hl, hl', Nat.add_assoc]
    rw [lexemes_of_some hread', dropped, dropped, hstop, hrest]
    exact ih

-- Only the empty source has no tokens.
theorem eq_nil_of_lexemes (h : lexemes start [] pos cs = .ok []) (hpos : pos = start) :
    cs = [] := by
  have htiles : Tiles start ([].reverse ++ cs) [] := tiles_of_lexemes (by simpa using hpos) h
  generalize hcs : [].reverse ++ cs = ds at htiles
  cases htiles
  simpa using hcs

-- The text run in progress is no token with code.
theorem textRun_ne_append (ht : t.isEnclosed) : textRun start run ≠ ts ++ [t] := by
  intro heq
  have hmem : t ∈ textRun start run := heq ▸ List.mem_append_right _ List.mem_cons_self
  unfold textRun at hmem
  split at hmem
  · cases hmem
  · rw [List.mem_singleton.1 hmem] at ht
    cases ht

-- The induction is that of the lexer. What is in front of it ends with the closer until the last
-- token is cut.
theorem lexemes_append (hcs : EndsWithCloser cs) (ht : t.isEnclosed)
    (h : lexemes start run pos cs = .ok (ts ++ [t])) (more : List Char) :
    lexemes start run pos (cs ++ more) =
      (lexemes (pos + byteLength cs) [] (pos + byteLength cs) more).map ((ts ++ [t]) ++ ·) := by
  fun_induction lexemes start run pos cs generalizing ts with
  | case1 => exact absurd rfl hcs.ne_nil
  | case2 => cases h
  | case3 start run pos c rest hnone ih =>
    have hmore := lexeme?_append hcs hnone (fun _ hl => absurd hl (Option.not_mem_none _)) more
    rw [List.cons_append] at hmore ⊢
    rw [lexemes_of_none hmore]
    by_cases hrest : rest = []
    · subst hrest
      rw [lexemes] at h
      exact absurd (Except.ok.inj h) (textRun_ne_append ht)
    · rw [ih (EndsWithCloser.of_append (m := [c]) hcs hrest) h, byteLength_cons, Nat.add_assoc]
  | case4 start run pos c rest l hread ih =>
    obtain ⟨tokens, htokens, htext⟩ := exists_of_map_eq_ok h
    obtain ⟨m, hm, hstop, -⟩ := spelled_lexeme? hread
    have hlast : l.rest = [] → l.token = t := by
      intro hrest
      rw [hrest, lexemes] at htokens
      obtain rfl : [] = tokens := Except.ok.inj htokens
      exact List.singleton_inj.1 (List.append_inj' htext rfl).2
    have hfound : ∀ l' ∈ some l, l'.rest = [] → ∀ slice span,
        l'.token ≠ .tag (.param slice) span := by
      intro l' hl' hrest slice span htoken
      obtain rfl := Option.some.inj hl'
      rw [← hlast hrest, htoken] at ht
      cases ht
    have hmore := lexeme?_append hcs hread hfound more
    have hend : l.stop + byteLength l.rest = pos + byteLength (c :: rest) := by
      rw [hm, hstop, byteLength_append, Nat.add_assoc]
    rw [lexemes_of_some hmore, ← hend]
    change (lexemes l.stop [] l.stop (l.rest ++ more)).map
      (fun tokens => textRun start run ++ l.token :: tokens) = _
    by_cases hrest : l.rest = []
    · rw [hrest, lexemes] at htokens
      obtain rfl : [] = tokens := Except.ok.inj htokens
      rw [hrest, List.nil_append, byteLength_nil, Nat.add_zero, ← htext]
      simp only [List.append_assoc, List.singleton_append]
    · have hne : tokens ≠ [] := fun hnil => hrest (eq_nil_of_lexemes (hnil ▸ htokens) rfl)
      obtain ⟨init, last, rfl⟩ := (List.eq_nil_or_concat tokens).resolve_left hne
      simp only [List.concat_eq_append] at htokens htext
      rw [← List.cons_append, ← List.append_assoc] at htext
      obtain ⟨rfl, hsame⟩ := List.append_inj' htext rfl
      obtain rfl := List.singleton_inj.1 hsame
      rw [hm] at hcs
      rw [ih (hcs.of_append hrest) htokens]
      cases lexemes (l.stop + byteLength l.rest) [] (l.stop + byteLength l.rest) more <;>
        simp [Except.map]

-- The last token takes what the others leave.
theorem Tiles.exists_last (h : Tiles pos cs (ts ++ [t])) :
    ∃ before m, cs = before ++ m ∧ Tiles pos before ts ∧ Extent (pos + byteLength before) m t := by
  induction ts generalizing pos cs with
  | nil =>
    cases h with
    | @text _ run rest _ hrun hrest =>
      cases hrest
      exact ⟨[], run, by simp, .nil pos, .text hrun⟩
    | @piece _ m rest _ _ hm hrest =>
      cases hrest
      exact ⟨[], m, by simp, .nil pos, .piece hm⟩
    | last hm => exact ⟨[], cs, rfl, .nil pos, .last hm⟩
  | cons token ts ih =>
    generalize hts : token :: ts ++ [t] = us at h
    cases h with
    | nil => cases hts
    | @text _ run rest _ hrun hrest =>
      obtain ⟨rfl, rfl⟩ := List.cons.inj hts
      obtain ⟨before, m, rfl, hbefore, hm⟩ := ih hrest
      rw [Nat.add_assoc, ← byteLength_append] at hm
      exact ⟨run ++ before, m, (List.append_assoc _ _ _).symm, .text hrun hbefore, hm⟩
    | @piece _ m rest _ _ hspells hrest =>
      obtain ⟨rfl, rfl⟩ := List.cons.inj hts
      obtain ⟨before, m', rfl, hbefore, hm⟩ := ih hrest
      rw [Nat.add_assoc, ← byteLength_append] at hm
      exact ⟨m ++ before, m', (List.append_assoc _ _ _).symm, .piece hspells hbefore, hm⟩
    | last hm => simp at hts

-- The code of such a token ends right in front of the closer.
theorem Extent.exists_closer {m : List Char} (h : Extent pos m t) (ht : t.isEnclosed) :
    ∃ opener inner closer span, m = opener ++ inner.chars ++ [closer] ∧
      inner.start = pos + byteLength opener ∧ t.code? = some (inner, span) ∧
      (closer = ')' ∨ closer = '\x7d') := by
  cases h with
  | text => cases ht
  | piece hm =>
    cases hm with
    | raw => cases ht
    | param => cases ht
    | bare hword => cases hword <;> cases ht
    | enclosed hopener inner =>
      exact ⟨_, ⟨_, inner⟩, ')', _, rfl, rfl, congrArg (Option.map _) (hopener.code _), .inl rfl⟩
    | interpolation raw inner => exact ⟨_, ⟨_, inner⟩, '\x7d', _, rfl, rfl, rfl, .inr rfl⟩
  | last hm =>
    cases hm
    cases ht

theorem endsWithCloser_of_tokens (h : tokens cs = .ok (ts ++ [t])) (ht : t.isEnclosed) :
    EndsWithCloser cs := by
  obtain ⟨before, m, rfl, -, hm⟩ := (tiles_of_tokens h).exists_last
  obtain ⟨opener, inner, closer, span, rfl, -, -, hcloser⟩ := hm.exists_closer ht
  exact ⟨before ++ (opener ++ inner.chars), closer, (List.append_assoc _ _ _).symm, hcloser⟩

theorem tokens_append (h : tokens cs = .ok (ts ++ [t])) (ht : t.isEnclosed) (more : List Char) :
    tokens (cs ++ more) =
      (lexemes (byteLength cs) [] (byteLength cs) more).map ((ts ++ [t]) ++ ·) := by
  have happend := lexemes_append (endsWithCloser_of_tokens h ht) ht h more
  rwa [Nat.zero_add] at happend

theorem tokens_moved (k : Nat) (cs : List Char) :
    (lexemes k [] k cs).map (fun _ => ()) =
      ((tokens cs).map fun _ => ()).mapError (·.moved k) :=
  show (lexemes k [] (k + 0) cs).map (fun _ => ()) =
      ((lexemes 0 [] 0 cs).map fun _ => ()).mapError (·.moved k) from
    lexemes_moved

-- What is added to a source is cut apart from it.
theorem tokens_append_of_ok (h : tokens cs = .ok (ts ++ [t])) (ht : t.isEnclosed)
    {more : List Char} {us : List Token} (hmore : tokens more = .ok us) :
    ∃ vs, tokens (cs ++ more) = .ok (ts ++ t :: vs) := by
  have hmoved := tokens_moved (byteLength cs) more
  rw [hmore] at hmoved
  obtain ⟨vs, hvs, -⟩ := exists_of_map_eq_ok hmoved
  refine ⟨vs, ?_⟩
  rw [tokens_append h ht, hvs, Except.map, List.append_assoc, List.singleton_append]

-- It is refused as it would be by itself.
theorem tokens_append_of_error (h : tokens cs = .ok (ts ++ [t])) (ht : t.isEnclosed)
    {more : List Char} {fault : Fault} (hmore : tokens more = .error fault) :
    tokens (cs ++ more) = .error (fault.moved (byteLength cs)) := by
  have hmoved := tokens_moved (byteLength cs) more
  rw [hmore] at hmoved
  rw [tokens_append h ht, eq_error_of_map hmoved]
  rfl

end Tokens

end Markup

end Stencil
