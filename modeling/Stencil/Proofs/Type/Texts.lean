import Mathlib.Data.List.TakeWhile
import Stencil.Proofs.Effects
import Stencil.Proofs.Expr.Words
import Stencil.Type.Parser

/-!
Types and their texts. A type is read from its name, with any blanks around the whole and around
each element, and what is read from a text is named by it.
-/

namespace Stencil

namespace Text

theorem trimChars_padded {before core after : List Char} (hbefore : ∀ c ∈ before, isBlank c)
    (hafter : ∀ c ∈ after, isBlank c) (hhead : ¬ core.head?.any isBlank)
    (hlast : ¬ core.getLast?.any isBlank) : trimChars (before ++ core ++ after) = core := by
  have hreversed : ∀ c ∈ after.reverse, isBlank c := fun c hc => hafter c (List.mem_reverse.1 hc)
  cases core with
  | nil =>
    have hall : ∀ c ∈ before ++ after, isBlank c := List.forall_mem_append.2 ⟨hbefore, hafter⟩
    rw [List.append_nil, trimChars, List.dropWhile_eq_nil_iff.2 hall]
    rfl
  | cons c core =>
    rw [trimChars, List.append_assoc, Code.dropWhile_stretch hbefore (by exact hhead),
      List.reverse_append, Code.dropWhile_stretch hreversed (by rwa [List.head?_reverse]),
      List.reverse_reverse]

theorem exists_padding (cs : List Char) : ∃ before after, cs = before ++ trimChars cs ++ after ∧
    (∀ c ∈ before, isBlank c) ∧ ∀ c ∈ after, isBlank c := by
  let tail := (cs.dropWhile isBlank).reverse
  refine ⟨cs.takeWhile isBlank, (tail.takeWhile isBlank).reverse, ?_,
    fun c hc => List.mem_takeWhile_imp hc,
    fun c hc => List.mem_takeWhile_imp (List.mem_reverse.1 hc)⟩
  have htail : trimChars cs ++ (tail.takeWhile isBlank).reverse = cs.dropWhile isBlank := by
    rw [trimChars, ← List.reverse_append, List.takeWhile_append_dropWhile, List.reverse_reverse]
  rw [List.append_assoc, htail, List.takeWhile_append_dropWhile]

theorem not_isBlank_of_isIdentChar {c : Char} (h : isIdentChar c) : isBlank c = false := by
  have hcode : isIdentStart c ∨ c.isDigit := by
    simp only [isIdentChar, isIdentStart, Char.isAlphanum, Bool.or_eq_true] at h ⊢
    exact or_right_comm.1 h
  rw [Code.isIdentStart_iff, Code.isDigit_iff] at hcode
  simp only [isBlank, blankRanges, List.any_cons, List.any_nil, Bool.or_false, Bool.or_eq_false_iff,
    Bool.and_eq_false_iff, decide_eq_false_iff_not]
  omega

end Text

namespace Ty

open Code

-- Types that can be written down: nothing in them is the type of `null`, and no record has a name
-- that means something else.
def Writable : Ty → Prop
  | null => False
  | list element => element.Writable
  | record name =>
    Identifier name.toList ∧ name ∉ ["bool", "int", "float", "string", "list", "null"]
  | _ => True

-- The spellings of a type: blanks may stand around the whole and around each element.
inductive Spelt : Ty → List Char → Prop where
  | simple {t : Ty} {before after : List Char} (hsimple : ∀ element, t ≠ list element)
      (hbefore : ∀ c ∈ before, Text.isBlank c) (hafter : ∀ c ∈ after, Text.isBlank c) :
      Spelt t (before ++ t.name.toList ++ after)
  | list {element : Ty} {inner before after : List Char} (helement : Spelt element inner)
      (hbefore : ∀ c ∈ before, Text.isBlank c) (hafter : ∀ c ∈ after, Text.isBlank c) :
      Spelt (list element) (before ++ ("list<".toList ++ inner ++ ['>']) ++ after)

theorem name_list (element : Ty) :
    (list element).name.toList = "list<".toList ++ element.name.toList ++ ['>'] := by
  change ("list<" ++ element.name ++ ">").toList = _
  rw [String.toList_append, String.toList_append]
  rfl

theorem spelt_name (t : Ty) : t.Spelt t.name.toList := by
  have hno : ∀ c ∈ ([] : List Char), Text.isBlank c := by simp
  induction t with
  | list element ih => simpa [name_list] using ih.list hno hno
  | _ => simpa using Spelt.simple (fun _ h => by cases h) hno hno

theorem isIdentifier_iff {cs : List Char} : isIdentifier cs ↔ Identifier cs := by
  rw [isIdentifier, Bool.and_eq_true, List.all_eq_true]
  constructor
  · rintro ⟨hstart, hall⟩
    cases cs with
    | nil => cases hstart
    | cons c cs => exact .mk hstart fun d hd => hall d (List.mem_cons_of_mem c hd)
  · rintro ⟨hstart, hrest⟩
    exact ⟨hstart, List.forall_mem_cons.2 ⟨isIdentChar_of_start hstart, hrest⟩⟩

theorem isIdentChar_of_identifier {cs : List Char} (h : Identifier cs) :
    ∀ c ∈ cs, isIdentChar c := by
  have hall := isIdentifier_iff.2 h
  rw [isIdentifier, Bool.and_eq_true, List.all_eq_true] at hall
  exact hall.2

-- The name of a type that is no list is a word by itself.
theorem identifier_name {t : Ty} (ht : t.Writable) (hsimple : ∀ element, t ≠ list element) :
    Identifier t.name.toList := by
  cases t with
  | list element => exact absurd rfl (hsimple element)
  | record name => exact ht.1
  | null => exact ht.elim
  | _ => exact isIdentifier_iff.1 (by rfl)

theorem primitive?_eq_some_iff {name : String} {t : Ty} : primitive? name = some t ↔
    (t = bool ∨ t = int ∨ t = float ∨ t = text) ∧ t.name = name := by
  constructor
  · intro h
    unfold primitive? at h
    split at h <;> cases h <;> simp [Ty.name]
  · rintro ⟨rfl | rfl | rfl | rfl, rfl⟩ <;> rfl

theorem element?_eq_some_iff {cs inner : List Char} :
    element? cs = some inner ↔ cs = "list<".toList ++ inner ++ ['>'] := by
  unfold element?
  constructor
  · intro h
    split at h
    · cases h
    · next rest hrest =>
      split at h
      · next hlast =>
        obtain ⟨rest, rfl⟩ := List.getLast?_eq_some_iff.1 hlast
        obtain rfl : rest = inner := by simpa using h
        rw [dropWord?_eq_some_iff.1 hrest, List.append_assoc]
      · cases h
  · rintro rfl
    rw [List.append_assoc, dropWord?_eq_some_iff.2 rfl]
    simp

theorem element?_of_identifier {cs : List Char} (h : Identifier cs) : element? cs = none := by
  refine Option.eq_none_iff_forall_ne_some.2 fun inner hinner => ?_
  have hmem : '<' ∈ cs := by simp [element?_eq_some_iff.1 hinner]
  exact absurd (isIdentChar_of_identifier h '<' hmem) (by decide)

theorem ofChars_list {cs inner : List Char} (h : element? (Text.trimChars cs) = some inner) :
    ofChars cs = (ofChars inner).map list := by
  rw [ofChars]
  split
  · next inner' h' =>
    obtain rfl := Option.some.inj (h.symm.trans h')
    rfl
  · next h' =>
    rw [h] at h'
    cases h'

theorem ofChars_simple {cs : List Char} (h : element? (Text.trimChars cs) = none) :
    ofChars cs = match primitive? (String.ofList (Text.trimChars cs)) with
      | some t => .ok t
      | none =>
        if isIdentifier (Text.trimChars cs) && !isReserved (String.ofList (Text.trimChars cs)) then
          .ok (record (String.ofList (Text.trimChars cs)))
        else .error ⟨String.ofList cs⟩ := by
  rw [ofChars]
  split
  · next h' =>
    rw [h] at h'
    cases h'
  · rfl

theorem not_keyword_iff {name : String} :
    primitive? name = none ∧ isReserved name = false ↔
      name ∉ ["bool", "int", "float", "string", "list", "null"] := by
  unfold primitive? isReserved
  split <;> simp_all

-- A text that is no list is read as the type of that name.
theorem ofChars_simple_iff {cs : List Char} {t : Ty} (h : element? (Text.trimChars cs) = none) :
    ofChars cs = .ok t ↔
      t.Writable ∧ (∀ element, t ≠ list element) ∧ t.name.toList = Text.trimChars cs := by
  rw [ofChars_simple h]
  generalize Text.trimChars cs = core
  constructor
  · intro hread
    split at hread
    · next t' ht' =>
      obtain rfl := Except.ok.inj hread
      obtain ⟨ht, hname⟩ := primitive?_eq_some_iff.1 ht'
      refine ⟨?_, ?_, by rw [hname, String.toList_ofList]⟩
      · rcases ht with rfl | rfl | rfl | rfl <;> trivial
      · rcases ht with rfl | rfl | rfl | rfl <;> simp
    · next hnone =>
      split at hread
      · next hword =>
        obtain rfl := Except.ok.inj hread
        obtain ⟨hident, hfree⟩ := Bool.and_eq_true_iff.1 hword
        have hkeyword := not_keyword_iff.1 ⟨hnone, by simpa using hfree⟩
        refine ⟨⟨?_, hkeyword⟩, by simp, String.toList_ofList⟩
        rw [String.toList_ofList]
        exact isIdentifier_iff.1 hident
      · cases hread
  · rintro ⟨ht, hsimple, rfl⟩
    rw [String.ofList_toList]
    cases t with
    | null => exact ht.elim
    | list element => exact absurd rfl (hsimple element)
    | record name =>
      obtain ⟨hident, hkeyword⟩ := ht
      obtain ⟨hnone, hfree⟩ := not_keyword_iff.2 hkeyword
      simp [Ty.name, hnone, hfree, isIdentifier_iff.2 hident]
    | _ => rfl

theorem trimChars_of_simple {t : Ty} (ht : t.Writable) (hsimple : ∀ element, t ≠ list element)
    {before after : List Char} (hbefore : ∀ c ∈ before, Text.isBlank c)
    (hafter : ∀ c ∈ after, Text.isBlank c) :
    Text.trimChars (before ++ t.name.toList ++ after) = t.name.toList := by
  have hchars : ∀ c ∈ t.name.toList, ¬ Text.isBlank c := fun c hc => by
    simp [Text.not_isBlank_of_isIdentChar
      (isIdentChar_of_identifier (identifier_name ht hsimple) c hc)]
  refine Text.trimChars_padded hbefore hafter (fun h => ?_) (fun h => ?_)
  · obtain ⟨c, hc, hblank⟩ := (Option.any_eq_true _ _).1 h
    exact hchars c (List.mem_of_head? hc) hblank
  · obtain ⟨c, hc, hblank⟩ := (Option.any_eq_true _ _).1 h
    exact hchars c (List.mem_of_getLast? hc) hblank

theorem trimChars_of_list {inner before after : List Char}
    (hbefore : ∀ c ∈ before, Text.isBlank c) (hafter : ∀ c ∈ after, Text.isBlank c) :
    Text.trimChars (before ++ ("list<".toList ++ inner ++ ['>']) ++ after) =
      "list<".toList ++ inner ++ ['>'] := by
  have hhead : ("list<".toList ++ inner ++ ['>']).head? = some 'l' := rfl
  have hlast : ("list<".toList ++ inner ++ ['>']).getLast? = some '>' := List.getLast?_concat
  refine Text.trimChars_padded hbefore hafter ?_ ?_
  · rw [hhead]
    decide
  · rw [hlast]
    decide

theorem ofChars_eq_list_iff {cs : List Char} {element : Ty} :
    ofChars cs = .ok (list element) ↔
      ∃ inner, element? (Text.trimChars cs) = some inner ∧ ofChars inner = .ok element := by
  constructor
  · intro h
    cases hinner : element? (Text.trimChars cs) with
    | none => exact absurd rfl (((ofChars_simple_iff hinner).1 h).2.1 element)
    | some inner =>
      rw [ofChars_list hinner] at h
      obtain ⟨t, ht, hlist⟩ := exists_of_map_eq_ok h
      obtain rfl := Ty.list.inj hlist
      exact ⟨inner, rfl, ht⟩
  · rintro ⟨inner, hinner, h⟩
    rw [ofChars_list hinner, h]
    rfl

theorem spelt_of_simple {t : Ty} {cs : List Char} (hsimple : ∀ element, t ≠ list element)
    (h : ofChars cs = .ok t) : t.Writable ∧ t.Spelt cs := by
  cases hinner : element? (Text.trimChars cs) with
  | none =>
    obtain ⟨ht, -, hname⟩ := (ofChars_simple_iff hinner).1 h
    obtain ⟨before, after, hcs, hbefore, hafter⟩ := Text.exists_padding cs
    rw [hcs, ← hname]
    exact ⟨ht, .simple hsimple hbefore hafter⟩
  | some inner =>
    rw [ofChars_list hinner] at h
    obtain ⟨element, -, rfl⟩ := exists_of_map_eq_ok h
    exact absurd rfl (hsimple element)

-- A text is read as a type just when it is a spelling of it.
theorem ofChars_eq_ok_iff {t : Ty} {cs : List Char} :
    ofChars cs = .ok t ↔ t.Writable ∧ t.Spelt cs := by
  constructor
  · intro h
    induction t generalizing cs with
    | list element ih =>
      obtain ⟨inner, hinner, helement⟩ := ofChars_eq_list_iff.1 h
      obtain ⟨ht, hspelt⟩ := ih helement
      obtain ⟨before, after, hcs, hbefore, hafter⟩ := Text.exists_padding cs
      rw [hcs, element?_eq_some_iff.1 hinner]
      exact ⟨ht, .list hspelt hbefore hafter⟩
    | _ => exact spelt_of_simple (by simp) h
  · rintro ⟨ht, h⟩
    induction h with
    | simple hsimple hbefore hafter =>
      have hcore := trimChars_of_simple ht hsimple hbefore hafter
      refine (ofChars_simple_iff ?_).2 ⟨ht, hsimple, hcore.symm⟩
      rw [hcore]
      exact element?_of_identifier (identifier_name ht hsimple)
    | @list element inner before after helement hbefore hafter ih =>
      have hcore := @trimChars_of_list inner before after hbefore hafter
      exact ofChars_eq_list_iff.2 ⟨_, element?_eq_some_iff.2 hcore, ih ht⟩

theorem filter_of_blank {cs : List Char} (h : ∀ c ∈ cs, Text.isBlank c) :
    cs.filter (fun c => !Text.isBlank c) = [] :=
  List.filter_eq_nil_iff.2 fun c hc => by simp [h c hc]

-- Blanks are all that a spelling has besides the name.
theorem filter_of_spelt {t : Ty} {cs : List Char} (ht : t.Writable) (h : t.Spelt cs) :
    cs.filter (fun c => !Text.isBlank c) = t.name.toList := by
  induction h with
  | simple hsimple hbefore hafter =>
    have hname := isIdentChar_of_identifier (identifier_name ht hsimple)
    rw [List.filter_append, List.filter_append, filter_of_blank hbefore, filter_of_blank hafter,
      List.nil_append, List.append_nil, List.filter_eq_self]
    exact fun c hc => by simp [Text.not_isBlank_of_isIdentChar (hname c hc)]
  | list helement hbefore hafter ih =>
    have hopen : "list<".toList.filter (fun c => !Text.isBlank c) = "list<".toList := by decide
    have hclose : ['>'].filter (fun c => !Text.isBlank c) = ['>'] := by decide
    rw [List.filter_append, List.filter_append, filter_of_blank hbefore, filter_of_blank hafter,
      List.nil_append, List.append_nil, List.filter_append, List.filter_append, ih ht, hopen,
      hclose, name_list]

end Ty

end Stencil
