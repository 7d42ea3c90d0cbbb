import Stencil.Markup.Lexer
import Stencil.Proofs.Effects

/-!
How the pieces of a source are spelled: which characters of the source a token takes that is read
at some place, where in them its code stands, and that the code ends where the search for its closer
does.
-/

namespace Stencil.Markup

-- What stands before the expression of an interpolation.
def interpolationOpener (raw : Bool) : List Char :=
  if raw then "$unsafe\x7b".toList else "$\x7b".toList

-- What stands before the code of a tag, from its `@` to the parenthesis. The name of an included
-- template is written with dots.
inductive Opener : List Char → (Slice → Tag) → Prop where
  | condition : Opener "@if(".toList .condition
  | elseCondition : Opener "@elseif(".toList .elseCondition
  | loop : Opener "@for(".toList .loop
  | inclusion {dotted : List Char} (hname : isDotted true dotted)
      (hchars : ∀ c ∈ dotted, isIdentChar c || c == '.') :
      Opener ("@template.".toList ++ dotted ++ ['('])
        (.inclusion (String.ofList (dotted.map fun c => if c == '.' then '/' else c)))

-- Tags without code.
inductive Bare : List Char → Tag → Prop where
  | otherwise : Bare "@else".toList .otherwise
  | close : Bare "@end".toList .close
  | closeConditional : Bare "@endif".toList .close
  | closeLoop : Bare "@endfor".toList .close
  | comment (inner : List Char) : Bare ("<%--".toList ++ inner ++ "--%>".toList) .comment

-- The characters that a piece at byte `pos` takes in the source, and its token.
inductive Spells (pos : Nat) : List Char → Token → Prop where
  | raw {body : List Char} (hword : ¬ body.head?.any isIdentChar) :
      Spells pos ("@raw".toList ++ body ++ "@endraw".toList) (.text ⟨pos + 4, body⟩)
  | param {line : List Char} (hline : '\n' ∉ line) :
      Spells pos ("@param".toList ++ line ++ ['\n'])
        (.tag (.param ⟨pos + 6, dropReturns line⟩) ⟨pos, pos + 6 + byteLength line⟩)
  | bare {word : List Char} {tag : Tag} (hword : Bare word tag) :
      Spells pos word (.tag tag ⟨pos, pos + byteLength word⟩)
  | enclosed {opener : List Char} {tag : Slice → Tag} (hopener : Opener opener tag)
      (inner : List Char) :
      Spells pos (opener ++ inner ++ [')'])
        (.tag (tag ⟨pos + byteLength opener, inner⟩)
          ⟨pos, pos + byteLength (opener ++ inner ++ [')'])⟩)
  | interpolation (raw : Bool) (inner : List Char) :
      Spells pos (interpolationOpener raw ++ inner ++ ['\x7d'])
        (.interpolation raw ⟨pos + byteLength (interpolationOpener raw), inner⟩
          ⟨pos, pos + byteLength (interpolationOpener raw ++ inner ++ ['\x7d'])⟩)

-- A declaration that ends the source has no line break.
inductive SpellsLast (pos : Nat) : List Char → Token → Prop where
  | param {line : List Char} (hline : '\n' ∉ line) :
      SpellsLast pos ("@param".toList ++ line)
        (.tag (.param ⟨pos + 6, dropReturns line⟩) ⟨pos, pos + 6 + byteLength line⟩)

-- What the lexer read at byte `pos`, where `cs` follows.
structure ReadsSpelled (pos : Nat) (cs : List Char) (l : Lexeme) : Prop where
  intro ::
  piece : ∃ m, cs = m ++ l.rest ∧ l.stop = pos + byteLength m ∧
    (Spells pos m l.token ∨ l.rest = [] ∧ SpellsLast pos m l.token)

section Readers

variable {pos : Nat} {cs : List Char} {l : Lexeme}

-- A piece that ends with the closer of its code.
theorem spelled_enclosed {opener closer : Char} {unclosed : Defect} {start : Nat}
    {front : List Char} {read : Slice × Nat × List Char} (token : Slice → Span → Token)
    (hstart : start = pos + byteLength front)
    (h : enclosedFrom opener closer unclosed pos start cs = .ok read)
    (htoken : ∀ inner, Spells pos (front ++ inner ++ [closer])
      (token ⟨pos + byteLength front, inner⟩
        ⟨pos, pos + byteLength (front ++ inner ++ [closer])⟩)) :
    ReadsSpelled pos (front ++ cs) ⟨token read.1 ⟨pos, read.2.1⟩, read.2.1, read.2.2⟩ := by
  subst hstart
  unfold enclosedFrom at h
  split at h
  · cases h
  · next inner rest he =>
    obtain rfl := Except.ok.inj h
    have hstop : pos + byteLength front + byteLength inner + closer.utf8Size =
        pos + byteLength (front ++ inner ++ [closer]) := by
      simp only [byteLength_append, byteLength_cons, byteLength_nil]
      omega
    refine ⟨front ++ inner ++ [closer], ?_, hstop, .inl ?_⟩
    · simp [eq_append_of_enclosed he]
    · have hspells := htoken inner
      rw [← hstop] at hspells
      exact hspells

theorem spelled_interpolation {raw : Bool} {start : Nat}
    (hstart : start = pos + byteLength (interpolationOpener raw))
    (h : interpolation raw pos start cs = .ok l) :
    ReadsSpelled pos (interpolationOpener raw ++ cs) l := by
  obtain ⟨read, hread, rfl⟩ := exists_of_map_eq_ok h
  exact spelled_enclosed (.interpolation raw) hstart hread (.interpolation raw)

theorem spelled_parenthesised {opener : List Char} {tag : Slice → Tag} {start : Nat}
    (hopener : Opener opener tag) (hstart : start = pos + byteLength opener)
    (h : parenthesised pos start tag cs = .ok l) : ReadsSpelled pos (opener ++ cs) l := by
  obtain ⟨read, hread, rfl⟩ := exists_of_map_eq_ok h
  exact spelled_enclosed (fun inner span => .tag (tag inner) span) hstart hread
    (.enclosed hopener)

theorem spelled_bareTag {tag : Tag} {stop : Nat} {word rest : List Char} (hword : Bare word tag)
    (hstop : stop = pos + byteLength word) :
    ReadsSpelled pos (word ++ rest) (bareTag tag pos stop rest) := by
  refine ⟨word, rfl, hstop, .inl ?_⟩
  rw [bareTag, hstop]
  exact .bare hword

theorem spelled_rawBlock (hword : ¬ cs.head?.any isIdentChar) (h : rawBlock pos cs = .ok l) :
    ReadsSpelled pos ("@raw".toList ++ cs) l := by
  unfold rawBlock at h
  split at h
  · cases h
  · next body rest he =>
    obtain rfl := Except.ok.inj h
    have hcs := eq_append_of_splitAtWord? he
    refine ⟨"@raw".toList ++ body ++ "@endraw".toList, ?_, ?_, .inl (.raw ?_)⟩
    · simp [hcs]
    · have hraw : byteLength "@raw".toList = 4 := by decide
      have hend : byteLength "@endraw".toList = 7 := by decide
      simp only [Slice.stop, byteLength_append, hraw, hend]
      omega
    · intro hbody
      cases body with
      | nil => exact absurd hbody (by simp)
      | cons c body =>
        rw [hcs] at hword
        exact hword hbody

theorem spelled_paramLine : ReadsSpelled pos ("@param".toList ++ cs) (paramLine pos cs) := by
  have hsplit := List.takeWhile_append_dropWhile (p := (· != '\n')) (l := cs)
  have hline : '\n' ∉ cs.takeWhile (· != '\n') := by
    intro hmem
    simpa using List.all_eq_true.1 (List.all_takeWhile (p := (· != '\n')) (l := cs)) '\n' hmem
  have hparam : byteLength "@param".toList = 6 := by decide
  unfold paramLine
  split
  · next he =>
    rw [he, List.append_nil] at hsplit
    refine ⟨"@param".toList ++ cs.takeWhile (· != '\n'), ?_, ?_, .inr ⟨rfl, .param hline⟩⟩
    · rw [hsplit, List.append_nil]
    · simp only [Slice.stop, byteLength_append, hparam]
      omega
  · next c rest he =>
    have hc : c = '\n' := by
      have hp := List.head?_dropWhile_not (· != '\n') cs
      simpa [he] using hp
    refine ⟨"@param".toList ++ cs.takeWhile (· != '\n') ++ ['\n'], ?_, ?_, .inl (.param hline)⟩
    · rw [hc] at he
      rw [he] at hsplit
      simp only [List.append_assoc, List.singleton_append, hsplit]
    · have hbreak : byteLength ['\n'] = 1 := by decide
      simp only [Slice.stop, byteLength_append, hparam, hbreak]
      omega

theorem spelled_inclusion (h : inclusion pos cs = .ok l) :
    ReadsSpelled pos ("@template.".toList ++ cs) l := by
  unfold inclusion at h
  dsimp only at h
  split at h
  · next hname =>
    split at h
    · next rest he =>
      have hsplit := List.takeWhile_append_dropWhile
        (p := fun c => isIdentChar c || c == '.') (l := cs)
      have hchars : ∀ c ∈ cs.takeWhile fun c => isIdentChar c || c == '.',
          isIdentChar c || c == '.' := List.all_eq_true.1 List.all_takeWhile
      rw [he] at hsplit
      generalize (cs.takeWhile fun c => isIdentChar c || c == '.') = name at h hsplit hname hchars
      have hstart : pos + 10 + byteLength name + 1 =
          pos + byteLength ("@template.".toList ++ name ++ ['(']) := by
        have hword : byteLength "@template.".toList = 10 := by decide
        have hopen : byteLength ['('] = 1 := by decide
        simp only [byteLength_append, hword, hopen]
        omega
      have hcs : "@template.".toList ++ cs = "@template.".toList ++ name ++ ['('] ++ rest := by
        rw [← hsplit]
        simp
      rw [hcs]
      exact spelled_parenthesised (.inclusion hname hchars) hstart h
    · cases h
  · cases h

theorem eq_append_of_dropKeyword? {word rest : List Char} (h : dropKeyword? word cs = some rest) :
    cs = word ++ rest ∧ ¬ rest.head?.any isIdentChar := by
  unfold dropKeyword? at h
  split at h
  · next r hr =>
    split at h
    · cases h
    · next hhead =>
      obtain rfl := Option.some.inj h
      exact ⟨dropWord?_eq_some_iff.1 hr, hhead⟩
  · cases h

end Readers

theorem spelled_tag? {pos : Nat} {cs : List Char} {l : Lexeme} (h : tag? pos cs = .ok (some l)) :
    ReadsSpelled pos ('@' :: cs) l := by
  have inner {r : Except Fault Lexeme} (hr : r.map some = .ok (some l))
      (hread : r = .ok l → ReadsSpelled pos ('@' :: cs) l) : ReadsSpelled pos ('@' :: cs) l := by
    obtain ⟨a, ha, hs⟩ := exists_of_map_eq_ok hr
    obtain rfl := Option.some.inj hs
    exact hread ha
  have opened {tag : Slice → Tag} {word rest : List Char} {start : Nat}
      (hword : dropWord? word cs = some rest) (hopener : Opener ('@' :: word) tag)
      (hstart : start = pos + byteLength ('@' :: word))
      (hr : (parenthesised pos start tag rest).map some = .ok (some l)) :
      ReadsSpelled pos ('@' :: cs) l := by
    refine inner hr fun hread => ?_
    rw [dropWord?_eq_some_iff.1 hword]
    exact spelled_parenthesised hopener hstart hread
  have bare {tag : Tag} {word rest : List Char} {stop : Nat}
      (hword : dropKeyword? word cs = some rest) (hbare : Bare ('@' :: word) tag)
      (hstop : stop = pos + byteLength ('@' :: word))
      (hb : Except.ok (some (bareTag tag pos stop rest)) = (.ok (some l) : Except Fault _)) :
      ReadsSpelled pos ('@' :: cs) l := by
    obtain rfl := Option.some.inj (Except.ok.inj hb)
    rw [(eq_append_of_dropKeyword? hword).1]
    exact spelled_bareTag hbare hstop
  unfold tag? at h
  split at h
  · next hw => exact opened hw .condition rfl h
  split at h
  · next hw => exact opened hw .elseCondition rfl h
  split at h
  · next hw => exact opened hw .loop rfl h
  split at h
  · next hw => exact bare hw .otherwise rfl h
  split at h
  · next hw => exact bare hw .closeConditional rfl h
  split at h
  · next hw => exact bare hw .closeLoop rfl h
  split at h
  · next hw => exact bare hw .close rfl h
  split at h
  · cases h
  split at h
  · next hw =>
    obtain ⟨rfl, hhead⟩ := eq_append_of_dropKeyword? hw
    exact inner h (spelled_rawBlock hhead)
  split at h
  · next rest hw =>
    split at h
    · obtain rfl := Option.some.inj (Except.ok.inj h)
      rw [dropWord?_eq_some_iff.1 hw]
      exact spelled_paramLine
    · cases h
  split at h
  · next hw =>
    obtain rfl := dropWord?_eq_some_iff.1 hw
    exact inner h spelled_inclusion
  · cases h

theorem spelled_interpolation? {pos : Nat} {cs : List Char} {l : Lexeme}
    (h : interpolation? pos cs = .ok (some l)) : ReadsSpelled pos ('$' :: cs) l := by
  have opened {raw : Bool} {word rest : List Char} {start : Nat}
      (hword : dropWord? word cs = some rest) (hopener : interpolationOpener raw = '$' :: word)
      (hstart : start = pos + byteLength ('$' :: word))
      (hr : (interpolation raw pos start rest).map some = .ok (some l)) :
      ReadsSpelled pos ('$' :: cs) l := by
    obtain ⟨a, ha, hs⟩ := exists_of_map_eq_ok hr
    obtain rfl := Option.some.inj hs
    have hcs : '$' :: cs = interpolationOpener raw ++ rest := by
      rw [dropWord?_eq_some_iff.1 hword, hopener, List.cons_append]
    rw [hcs]
    exact spelled_interpolation (hopener ▸ hstart) ha
  unfold interpolation? at h
  split at h
  · next hw => exact opened hw rfl rfl h
  split at h
  · next hw => exact opened hw rfl rfl h
  · cases h

theorem spelled_comment? {pos : Nat} {cs : List Char} {l : Lexeme}
    (h : comment? pos cs = .ok (some l)) : ReadsSpelled pos ('<' :: cs) l := by
  unfold comment? at h
  split at h
  · cases h
  · next body hw =>
    split at h
    · cases h
    · next inner rest hs =>
      obtain rfl := Option.some.inj (Except.ok.inj h)
      have hcs : '<' :: cs = "<%--".toList ++ inner ++ "--%>".toList ++ rest := by
        rw [dropWord?_eq_some_iff.1 hw, eq_append_of_splitAtWord? hs]
        simp
      rw [hcs]
      refine spelled_bareTag (.comment inner) ?_
      have hopen : byteLength "<%--".toList = 4 := by decide
      have hclose : byteLength "--%>".toList = 4 := by decide
      simp only [byteLength_append, hopen, hclose]
      omega

theorem spelled_lexeme? {pos : Nat} {cs : List Char} {l : Lexeme}
    (h : lexeme? pos cs = .ok (some l)) : ReadsSpelled pos cs l := by
  unfold lexeme? at h
  split at h
  · exact spelled_interpolation? h
  · exact spelled_tag? h
  · exact spelled_comment? h
  · cases h

-- The characters that code stands between, and what is wrong where the closing one is missing.
structure Delimiters where
  opener : Char
  closer : Char
  unclosed : Defect

def Delimiters.parens : Delimiters := ⟨'(', ')', .unterminatedTag⟩

def Delimiters.braces : Delimiters := ⟨'\x7b', '\x7d', .unterminatedInterpolation⟩

-- The search that begins behind the opener comes to the closer between the two.
def Delimiters.Closes (d : Delimiters) (inner rest : List Char) : Prop :=
  enclosed d.opener d.closer d.unclosed .code 0 (inner ++ d.closer :: rest) = .ok (inner, rest)

-- The code in a token whose end has been searched for.
def Tag.parenthesised? : Tag → Option Slice
  | .condition inner | .elseCondition inner | .loop inner | .inclusion _ inner => some inner
  | _ => none

def Token.delimited? : Token → Option (Delimiters × Slice)
  | .interpolation _ inner _ => some (.braces, inner)
  | .tag t _ => t.parenthesised?.map (.parens, ·)
  | .text _ => none

-- The code of a piece is what the search for its closer has given.
def Lexeme.Searched (l : Lexeme) : Prop :=
  ∀ d inner, l.token.delimited? = some (d, inner) → d.Closes inner.chars l.rest

-- Where a piece ends that has code in it.
section Searches

variable {pos start : Nat} {cs : List Char} {l : Lexeme}

theorem enclosed_of_enclosedFrom {head : Nat} {p : Slice × Nat × List Char}
    (h : enclosedFrom opener closer unclosed head start cs = .ok p) :
    enclosed opener closer unclosed .code 0 (p.1.chars ++ closer :: p.2.2) =
      .ok (p.1.chars, p.2.2) := by
  unfold enclosedFrom at h
  split at h
  · cases h
  · next inner rest he =>
    obtain rfl := Except.ok.inj h
    rwa [eq_append_of_enclosed he] at he

theorem searched_of_none (h : l.token.delimited? = none) : l.Searched := by
  intro d inner hd
  rw [h] at hd
  cases hd

theorem searched_interpolation {raw : Bool} (h : interpolation raw pos start cs = .ok l) :
    l.Searched := by
  obtain ⟨⟨inner, stop, rest⟩, hp, rfl⟩ := exists_of_map_eq_ok h
  intro d inner hd
  cases hd
  exact enclosed_of_enclosedFrom hp

theorem searched_parenthesised {tag : Slice → Tag}
    (htag : ∀ inner, (tag inner).parenthesised? = some inner)
    (h : parenthesised pos start tag cs = .ok l) : l.Searched := by
  obtain ⟨⟨inner, stop, rest⟩, hp, rfl⟩ := exists_of_map_eq_ok h
  intro d inner' hd
  simp only [Token.delimited?, htag, Option.map_some] at hd
  cases hd
  exact enclosed_of_enclosedFrom hp

theorem searched_inclusion (h : inclusion pos cs = .ok l) : l.Searched := by
  unfold inclusion at h
  dsimp only at h
  split at h
  · split at h
    · exact searched_parenthesised (fun _ => rfl) h
    · cases h
  · cases h

theorem searched_rawBlock (h : rawBlock pos cs = .ok l) : l.Searched := by
  unfold rawBlock at h
  split at h
  · cases h
  · obtain rfl := Except.ok.inj h
    exact searched_of_none rfl

theorem searched_paramLine : (paramLine pos cs).Searched := by
  unfold paramLine
  split <;> exact searched_of_none rfl

theorem searched_tag? (h : tag? pos cs = .ok (some l)) : l.Searched := by
  have inner {r : Except Fault Lexeme} (hr : r.map some = .ok (some l))
      (hread : r = .ok l → l.Searched) : l.Searched := by
    obtain ⟨a, ha, hs⟩ := exists_of_map_eq_ok hr
    obtain rfl := Option.some.inj hs
    exact hread ha
  have bare {tag : Tag} {stop : Nat} {rest : List Char} (htag : tag.parenthesised? = none)
      (hb : Except.ok (some (bareTag tag pos stop rest)) = (.ok (some l) : Except Fault _)) :
      l.Searched := by
    obtain rfl := Option.some.inj (Except.ok.inj hb)
    exact searched_of_none (by simp [bareTag, Token.delimited?, htag])
  unfold tag? at h
  split at h
  · exact inner h (searched_parenthesised fun _ => rfl)
  split at h
  · exact inner h (searched_parenthesised fun _ => rfl)
  split at h
  · exact inner h (searched_parenthesised fun _ => rfl)
  split at h
  · exact bare rfl h
  split at h
  · exact bare rfl h
  split at h
  · exact bare rfl h
  split at h
  · exact bare rfl h
  split at h
  · cases h
  split at h
  · exact inner h searched_rawBlock
  split at h
  · split at h
    · obtain rfl := Option.some.inj (Except.ok.inj h)
      exact searched_paramLine
    · cases h
  split at h
  · exact inner h searched_inclusion
  · cases h

theorem searched_lexeme? (h : lexeme? pos cs = .ok (some l)) : l.Searched := by
  unfold lexeme? at h
  split at h
  · unfold interpolation? at h
    split at h
    · obtain ⟨a, ha, hs⟩ := exists_of_map_eq_ok h
      obtain rfl := Option.some.inj hs
      exact searched_interpolation ha
    split at h
    · obtain ⟨a, ha, hs⟩ := exists_of_map_eq_ok h
      obtain rfl := Option.some.inj hs
      exact searched_interpolation ha
    · cases h
  · exact searched_tag? h
  · unfold comment? at h
    split at h
    · cases h
    split at h
    · cases h
    · obtain rfl := Option.some.inj (Except.ok.inj h)
      exact searched_of_none rfl
  · cases h

end Searches

-- The code stands in the piece, with the closer behind it.
theorem Spells.delimited {pos : Nat} {m : List Char} {token : Token} {d : Delimiters}
    {inner : Slice} (h : Spells pos m token) (hd : token.delimited? = some (d, inner)) :
    ∃ front, m = front ++ inner.chars ++ [d.closer] ∧ inner.start = pos + byteLength front := by
  cases h with
  | raw => cases hd
  | param => cases hd
  | bare hword => cases hword <;> cases hd
  | @enclosed opener tag hopener code =>
    refine ⟨opener, ?_⟩
    cases hopener <;> cases hd <;> exact ⟨rfl, rfl⟩
  | interpolation raw code =>
    cases hd
    exact ⟨interpolationOpener raw, rfl, rfl⟩

theorem SpellsLast.delimited {pos : Nat} {m : List Char} {token : Token}
    (h : SpellsLast pos m token) : token.delimited? = none := by
  cases h
  rfl

end Stencil.Markup
