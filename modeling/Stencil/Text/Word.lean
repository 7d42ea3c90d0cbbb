/-!
Fixed words at the front of a text, or somewhere in it.
-/

namespace Stencil

-- What follows `word` if the text starts with it.
def dropWord? : List Char → List Char → Option (List Char)
  | [], cs => some cs
  | _ :: _, [] => none
  | w :: word, c :: cs => if w = c then dropWord? word cs else none

theorem dropWord?_eq_some_iff {word cs rest : List Char} :
    dropWord? word cs = some rest ↔ cs = word ++ rest := by
  induction word generalizing cs with
  | nil => simp [dropWord?]
  | cons w word ih =>
    cases cs with
    | nil => simp [dropWord?]
    | cons c cs =>
      simp only [dropWord?, List.cons_append, List.cons.injEq]
      split
      · next h => simp [ih, h]
      · next h => simp [Ne.symm h]

-- Splits at the first occurrence of `word`: the text before it and the text after it.
def splitAtWord? (word : List Char) : List Char → Option (List Char × List Char)
  | [] => none
  | c :: cs =>
    match dropWord? word (c :: cs) with
    | some rest => some ([], rest)
    | none => (splitAtWord? word cs).map fun (before, rest) => (c :: before, rest)

-- Does `word` occur in the text?
def containsWord (word : List Char) : List Char → Bool
  | [] => word.isEmpty
  | c :: cs => (dropWord? word (c :: cs)).isSome || containsWord word cs

theorem eq_append_of_splitAtWord? {word cs before rest : List Char}
    (h : splitAtWord? word cs = some (before, rest)) : cs = before ++ word ++ rest := by
  induction cs generalizing before with
  | nil => simp [splitAtWord?] at h
  | cons c cs ih =>
    unfold splitAtWord? at h
    split at h
    · next r hr =>
      obtain ⟨rfl, rfl⟩ : [] = before ∧ r = rest := by simpa using h
      simpa using dropWord?_eq_some_iff.1 hr
    · obtain ⟨⟨b, r⟩, hb, he⟩ := Option.map_eq_some_iff.1 h
      obtain ⟨rfl, rfl⟩ : c :: b = before ∧ r = rest := by simpa using he
      simp [ih hb]

end Stencil
