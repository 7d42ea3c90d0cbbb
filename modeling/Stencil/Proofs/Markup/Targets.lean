import Stencil.Proofs.Bytewise.Literals
import Stencil.Proofs.Directory.Components
import Stencil.Proofs.Markup.Recognition

/-!
The names of included templates. An inclusion writes the segments of a name with dots between them,
and its target has slashes there. In text, what begins as an inclusion either names a template in
this way, with balanced parentheses behind the name, or is an error.
-/

namespace Stencil

section Joined

variable {α : Type} {a : α} {parts : List (List α)}

theorem mem_intercalate {x : α} (h : x ∈ [a].intercalate parts) :
    x = a ∨ ∃ part ∈ parts, x ∈ part := by
  induction parts with
  | nil => cases h
  | cons part parts ih =>
    cases parts with
    | nil =>
      rw [List.intercalate_singleton] at h
      exact .inr ⟨part, List.mem_cons_self, h⟩
    | cons next parts =>
      rw [List.intercalate_cons_cons, List.mem_append, List.mem_append, List.mem_singleton] at h
      rcases h with (h | rfl) | h
      · exact .inr ⟨part, List.mem_cons_self, h⟩
      · exact .inl rfl
      · obtain rfl | ⟨other, hother, hx⟩ := ih h
        · exact .inl rfl
        · exact .inr ⟨other, List.mem_cons_of_mem _ hother, hx⟩

theorem map_intercalate {β : Type} (f : α → β) :
    ([a].intercalate parts).map f = [f a].intercalate (parts.map (List.map f)) := by
  induction parts with
  | nil => rfl
  | cons part parts ih =>
    cases parts with
    | nil => simp
    | cons next parts =>
      rw [List.intercalate_cons_cons, List.map_append, List.map_append, ih]
      simp only [List.map_cons, List.map_nil, List.intercalate_cons_cons]

theorem mem_of_mem_splitOn [DecidableEq α] {xs part : List α} (h : part ∈ List.splitOn a xs)
    {x : α} (hx : x ∈ part) : x ≠ a ∧ x ∈ xs := by
  induction xs generalizing part with
  | nil =>
    rw [List.splitOn_nil, List.mem_singleton] at h
    subst h
    cases hx
  | cons y xs ih =>
    rw [List.splitOn_cons_eq_if_modifyHead] at h
    have later {other : List α} (hother : other ∈ List.splitOn a xs) (hx : x ∈ other) :
        x ≠ a ∧ x ∈ y :: xs := (ih hother hx).imp_right (List.mem_cons_of_mem _)
    split at h
    · obtain rfl | h := List.mem_cons.mp h
      · cases hx
      · exact later h hx
    · next hy =>
      obtain ⟨first, others, hsplit⟩ := List.exists_cons_of_ne_nil (List.splitOn_ne_nil a xs)
      rw [hsplit] at later
      rw [hsplit, List.modifyHead_cons] at h
      obtain rfl | h := List.mem_cons.mp h
      · obtain rfl | hx := List.mem_cons.mp hx
        · exact ⟨by simpa using hy, List.mem_cons_self⟩
        · exact later List.mem_cons_self hx
      · exact later (List.mem_cons_of_mem _ h) hx

theorem joinSlash_eq_intercalate (parts : List (List Char)) :
    joinSlash parts = ['/'].intercalate parts := by
  induction parts with
  | nil => rfl
  | cons part parts ih =>
    cases parts with
    | nil => simp [joinSlash]
    | cons next parts =>
      rw [joinSlash, ih, List.intercalate_cons_cons, List.append_assoc, List.singleton_append]
      simp

end Joined

namespace Markup

-- The segments of a name: ASCII letters, digits and underscores, at least one in each segment.
structure IsName (segments : List (List Char)) : Prop where
  intro ::
  ne_nil : segments ≠ []
  filled : ∀ segment ∈ segments, segment ≠ []
  chars : ∀ segment ∈ segments, ∀ c ∈ segment, isIdentChar c

theorem isName_iff {segments : List (List Char)} : IsName segments ↔
    segments ≠ [] ∧ segments.all fun segment => segment ≠ [] && segment.all isIdentChar := by
  simp only [List.all_eq_true, Bool.and_eq_true, decide_eq_true_eq]
  constructor
  · exact fun h => ⟨h.ne_nil, fun s hs => ⟨h.filled s hs, h.chars s hs⟩⟩
  · exact fun ⟨hne, h⟩ => ⟨hne, fun s hs => (h s hs).1, fun s hs => (h s hs).2⟩

instance : DecidablePred IsName := fun _ => decidable_of_iff _ isName_iff.symm

-- How an inclusion writes a name.
def dotted (segments : List (List Char)) : List Char := ['.'].intercalate segments

-- What it is written for.
def target (segments : List (List Char)) : String := String.ofList (joinSlash segments)

section Dots

variable {segment cs : List Char} {boundary : Bool}

theorem isDotted_append (h : '.' ∉ segment) :
    isDotted boundary (segment ++ cs) = isDotted (boundary && segment.isEmpty) cs := by
  induction segment generalizing boundary with
  | nil => simp
  | cons c segment ih =>
    rw [List.mem_cons, not_or] at h
    have hc : (c == '.') = false := beq_false_of_ne (Ne.symm h.1)
    simp [isDotted, hc, ih h.2]

-- A segment up to the end of the name.
theorem isDotted_segment (h : '.' ∉ segment) :
    isDotted boundary segment ↔ (boundary → segment ≠ []) := by
  rw [← List.append_nil segment, isDotted_append h]
  cases boundary <;> simp [isDotted]

-- A segment up to a dot.
theorem isDotted_append_dot (h : '.' ∉ segment) :
    isDotted boundary (segment ++ '.' :: cs) ↔ (boundary → segment ≠ []) ∧ isDotted true cs := by
  rw [isDotted_append h]
  cases boundary <;> simp [isDotted]

theorem isDotted_intercalate {segments : List (List Char)} (hne : segments ≠ [])
    (h : ∀ segment ∈ segments, '.' ∉ segment) :
    isDotted true (['.'].intercalate segments) ↔ ∀ segment ∈ segments, segment ≠ [] := by
  induction segments with
  | nil => exact absurd rfl hne
  | cons segment segments ih =>
    have hsegment := h segment List.mem_cons_self
    cases segments with
    | nil =>
      rw [List.intercalate_singleton, isDotted_segment hsegment, List.forall_mem_singleton]
      simp
    | cons next segments =>
      rw [List.intercalate_cons_cons, List.append_assoc, List.singleton_append,
        isDotted_append_dot hsegment, ih (List.cons_ne_nil _ _)
          fun s hs => h s (List.mem_cons_of_mem _ hs), List.forall_mem_cons]
      simp

end Dots

namespace IsName

variable {segments : List (List Char)}

theorem not_mem (h : IsName segments) {c : Char} (hc : isIdentChar c = false) :
    ∀ segment ∈ segments, c ∉ segment := by
  intro segment hsegment hmem
  exact absurd (h.chars segment hsegment c hmem) (by simp [hc])

theorem isDotted (h : IsName segments) : isDotted true (dotted segments) :=
  (isDotted_intercalate h.ne_nil (h.not_mem rfl)).2 h.filled

theorem chars_dotted (h : IsName segments) :
    ∀ c ∈ dotted segments, (isIdentChar c || c == '.') = true := by
  intro c hc
  obtain rfl | ⟨segment, hsegment, hmem⟩ := mem_intercalate hc
  · rfl
  · rw [h.chars segment hsegment c hmem, Bool.true_or]

-- What the lexer reads as a name is one.
theorem exists_of_isDotted {name : List Char} (hname : Markup.isDotted true name)
    (hchars : ∀ c ∈ name, isIdentChar c || c == '.') :
    ∃ segments, IsName segments ∧ name = dotted segments := by
  have hjoin : ['.'].intercalate (List.splitOn '.' name) = name := List.intercalate_splitOn '.'
  have hdots : ∀ segment ∈ List.splitOn '.' name, '.' ∉ segment :=
    fun segment hsegment hmem => (mem_of_mem_splitOn hsegment hmem).1 rfl
  have hne := List.splitOn_ne_nil '.' name
  refine ⟨List.splitOn '.' name, ⟨hne, ?_, fun segment hsegment c hc => ?_⟩, hjoin.symm⟩
  · rwa [← isDotted_intercalate hne hdots, hjoin]
  · obtain ⟨hdot, hmem⟩ := mem_of_mem_splitOn hsegment hc
    simpa [hdot] using hchars c hmem

-- The target is the name as it is written, with the dots replaced.
theorem target_eq (h : IsName segments) :
    target segments =
      String.ofList ((dotted segments).map fun c => if c == '.' then '/' else c) := by
  have hsame : ∀ segment ∈ segments,
      (segment.map fun c => if c == '.' then '/' else c) = segment := by
    intro segment hsegment
    refine (List.map_congr_left fun c hc => if_neg ?_).trans (List.map_id _)
    rintro hdot
    exact h.not_mem rfl segment hsegment (eq_of_beq hdot ▸ hc)
  have hmap := (List.map_congr_left hsame).trans (List.map_id _)
  rw [target, joinSlash_eq_intercalate, dotted, map_intercalate, hmap]
  rfl

theorem slashParts_target (h : IsName segments) :
    slashParts (target segments).toList = segments := by
  rw [target, String.toList_ofList]
  exact slashParts_joinSlash h.ne_nil (h.not_mem rfl)

end IsName

-- What stands before the code of an inclusion.
def inclusionOpener (segments : List (List Char)) : List Char :=
  "@template.".toList ++ dotted segments ++ ['(']

theorem inclusionOpener_append (segments : List (List Char)) (cs : List Char) :
    inclusionOpener segments ++ cs = "@template.".toList ++ (dotted segments ++ '(' :: cs) := by
  unfold inclusionOpener
  generalize "@template.".toList = word
  simp

theorem byteLength_inclusionOpener (segments : List (List Char)) :
    byteLength (inclusionOpener segments) = 10 + byteLength (dotted segments) + 1 := by
  have hword : byteLength "@template.".toList = 10 := by decide
  have hopen : byteLength ['('] = 1 := by decide
  unfold inclusionOpener
  generalize "@template.".toList = word at hword
  rw [byteLength_append, byteLength_append, hword, hopen]

-- An inclusion at byte `pos`, where `rest` follows it.
def inclusionLexeme (pos : Nat) (segments : List (List Char)) (inner rest : List Char) : Lexeme :=
  let code : Slice := ⟨pos + byteLength (inclusionOpener segments), inner⟩
  ⟨.tag (.inclusion (target segments) code) ⟨pos, code.stop + 1⟩, code.stop + 1, rest⟩

-- Code with as many closing parentheses as opening ones outside of its literals, and never more of
-- them so far.
def Balanced (inner : List Char) : Prop :=
  ∃ atoms, Balances '(' ')' 0 atoms ∧ Code.spelling atoms = inner

theorem closes_iff_balanced {inner rest : List Char} :
    Delimiters.parens.Closes inner rest ↔ Balanced inner := by
  constructor
  · exact fun h => balances_of_enclosed (by decide) h
  · rintro ⟨atoms, hbalances, rfl⟩
    exact hbalances.enclosed_eq (by decide) (by decide) (by decide)

-- Characters that begin an inclusion of the template with the name: its code and what is behind it.
structure Includes (cs : List Char) (segments : List (List Char)) (inner rest : List Char) :
    Prop where
  intro ::
  name : IsName segments
  split : cs = inclusionOpener segments ++ (inner ++ ')' :: rest)
  balanced : Balanced inner

section Reading

variable {pos : Nat} {cs inner rest : List Char} {segments : List (List Char)}

theorem parenthesised_of_closes {start : Nat} {tag : Slice → Tag}
    (h : Delimiters.parens.Closes inner rest) :
    parenthesised pos start tag (inner ++ ')' :: rest) =
      .ok ⟨.tag (tag ⟨start, inner⟩) ⟨pos, Slice.stop ⟨start, inner⟩ + 1⟩,
        Slice.stop ⟨start, inner⟩ + 1, rest⟩ := by
  have hclosed : enclosed '(' ')' .unterminatedTag .code 0 (inner ++ ')' :: rest) =
      .ok (inner, rest) := h
  rw [parenthesised, enclosedFrom, hclosed]
  rfl

theorem exists_of_parenthesised {start : Nat} {tag : Slice → Tag} {l : Lexeme}
    (h : parenthesised pos start tag cs = .ok l) :
    ∃ inner rest, cs = inner ++ ')' :: rest ∧ Delimiters.parens.Closes inner rest := by
  obtain ⟨read, hread, -⟩ := exists_of_map_eq_ok h
  have hcloses := enclosed_of_enclosedFrom hread
  unfold enclosedFrom at hread
  split at hread
  · cases hread
  · next inner rest he =>
    obtain rfl := Except.ok.inj hread
    exact ⟨inner, rest, eq_append_of_enclosed he, hcloses⟩

theorem inclusion_of_includes (h : Includes ("@template.".toList ++ cs) segments inner rest) :
    inclusion pos cs = .ok (inclusionLexeme pos segments inner rest) := by
  obtain ⟨hname, hsplit, hbalanced⟩ := h
  have hcloses : Delimiters.parens.Closes inner rest := closes_iff_balanced.mpr hbalanced
  rw [inclusionOpener_append] at hsplit
  have hcs := List.append_cancel_left hsplit
  have htake : cs.takeWhile (fun c => isIdentChar c || c == '.') = dotted segments := by
    rw [hcs, List.takeWhile_append_of_pos hname.chars_dotted,
      List.takeWhile_cons_of_neg (by decide), List.append_nil]
  have hdrop : cs.dropWhile (fun c => isIdentChar c || c == '.') =
      '(' :: (inner ++ ')' :: rest) := by
    rw [hcs, List.dropWhile_append_of_pos hname.chars_dotted,
      List.dropWhile_cons_of_neg (by decide)]
  unfold inclusion
  dsimp only
  rw [htake, hdrop, if_pos hname.isDotted]
  have hstart : Slice.stop ⟨pos + 10, dotted segments⟩ + 1 =
      pos + byteLength (inclusionOpener segments) := by
    rw [byteLength_inclusionOpener]
    simp only [Slice.stop]
    omega
  change parenthesised pos _ _ (inner ++ ')' :: rest) = _
  rw [parenthesised_of_closes hcloses, ← hname.target_eq, hstart]
  rfl

theorem exists_includes_of_inclusion {l : Lexeme} (h : inclusion pos cs = .ok l) :
    ∃ segments inner rest, Includes ("@template.".toList ++ cs) segments inner rest := by
  unfold inclusion at h
  dsimp only at h
  split at h
  · next hname =>
    have hchars : ∀ c ∈ cs.takeWhile fun c => isIdentChar c || c == '.',
        isIdentChar c || c == '.' := List.all_eq_true.1 List.all_takeWhile
    obtain ⟨segments, hsegments, hdotted⟩ := IsName.exists_of_isDotted hname hchars
    split at h
    · next behind hbehind =>
      obtain ⟨inner, rest, rfl, hcloses⟩ := exists_of_parenthesised h
      refine ⟨segments, inner, rest, hsegments, ?_, closes_iff_balanced.mp hcloses⟩
      have hsplit := List.takeWhile_append_dropWhile
        (p := fun c => isIdentChar c || c == '.') (l := cs)
      rw [inclusionOpener_append, ← hdotted, ← hbehind, hsplit]
    · cases h
  · cases h

theorem lexeme?_inclusion (pos : Nat) (cs : List Char) :
    lexeme? pos ("@template.".toList ++ cs) = (inclusion pos cs).map some := rfl

end Reading

namespace Front

variable {source inner rest : List Char} {f : Front} {segments : List (List Char)}

-- An inclusion becomes a token with its target.
theorem steps_of_includes (h : Includes f.rest segments inner rest) :
    Steps f (f.cut (inclusionLexeme f.pos segments inner rest)) := by
  obtain ⟨cs, hrest⟩ : ∃ cs, f.rest = "@template.".toList ++ cs :=
    ⟨_, h.split.trans (inclusionOpener_append _ _)⟩
  refine .cut ?_
  rw [hrest] at h ⊢
  rw [lexeme?_inclusion, inclusion_of_includes h]
  rfl

-- What begins as an inclusion and is none is an error.
theorem Reached.refused_inclusion (h : Reached source f) (hrest : "@template.".toList <+: f.rest)
    (hnone : ∀ segments inner rest, ¬ Includes f.rest segments inner rest) :
    ∃ fault, lexeme? f.pos f.rest = .error fault ∧ tokens source = .error fault := by
  obtain ⟨cs, hrest⟩ := hrest
  have hread : lexeme? f.pos f.rest = (inclusion f.pos cs).map some := by
    rw [← hrest]
    exact lexeme?_inclusion f.pos cs
  cases hinclusion : inclusion f.pos cs with
  | ok l =>
    obtain ⟨segments, inner, rest, hincludes⟩ := exists_includes_of_inclusion hinclusion
    exact absurd (hrest ▸ hincludes) (hnone segments inner rest)
  | error fault =>
    rw [hinclusion] at hread
    exact ⟨fault, hread, h.finish_eq.trans (finish_of_error hread)⟩

end Front

end Markup

end Stencil
