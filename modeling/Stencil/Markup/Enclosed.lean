import Stencil.Source.Error

/-!
Finding the delimiter that closes an interpolation or a tag.
-/

namespace Stencil.Markup

-- Where the search stands: in code, in a string literal, or just after a backslash in one.
inductive Quoting where
  | code
  | quoted (quote : Char)
  | escaped (quote : Char)
deriving DecidableEq

-- Splits at the closer that matches an opener already passed: the text before it and the text
-- after it. `depth` counts the openers met since. Delimiters in string literals do not count.
def enclosed (opener closer : Char) (unclosed : Defect) :
    Quoting → Nat → List Char → Except Defect (List Char × List Char)
  | .code, _, [] => .error unclosed
  | .quoted _, _, [] => .error .unterminatedString
  | .escaped _, _, [] => .error .unterminatedString
  | .code, depth, c :: cs =>
    let onward (state : Quoting) (depth : Nat) :=
      (enclosed opener closer unclosed state depth cs).map fun (inner, rest) => (c :: inner, rest)
    if c = '"' ∨ c = '\'' then onward (.quoted c) depth
    else if c = opener then onward .code (depth + 1)
    else if c = closer then
      match depth with
      | 0 => .ok ([], cs)
      | depth + 1 => onward .code depth
    else onward .code depth
  | .quoted quote, depth, c :: cs =>
    let next : Quoting :=
      if c = quote then .code else if c = '\\' then .escaped quote else .quoted quote
    (enclosed opener closer unclosed next depth cs).map fun (inner, rest) => (c :: inner, rest)
  | .escaped quote, depth, c :: cs =>
    (enclosed opener closer unclosed (.quoted quote) depth cs).map
      fun (inner, rest) => (c :: inner, rest)

private theorem map_cons_ok {r : Except Defect (List Char × List Char)} {c : Char}
    {inner rest : List Char}
    (h : (r.map fun p => (c :: p.1, p.2)) = .ok (inner, rest)) :
    ∃ tail, inner = c :: tail ∧ r = .ok (tail, rest) := by
  cases r with
  | error e => simp [Except.map] at h
  | ok p =>
    obtain ⟨rfl, rfl⟩ : c :: p.1 = inner ∧ p.2 = rest := by simpa [Except.map] using h
    exact ⟨p.1, rfl, rfl⟩

-- Nothing but the closer lies between the two parts.
theorem eq_append_of_enclosed {opener closer : Char} {unclosed : Defect} {state : Quoting}
    {depth : Nat} {cs inner rest : List Char}
    (h : enclosed opener closer unclosed state depth cs = .ok (inner, rest)) :
    cs = inner ++ closer :: rest := by
  induction cs generalizing state depth inner with
  | nil => cases state <;> simp [enclosed] at h
  | cons c cs ih =>
    have step {state' : Quoting} {depth' : Nat}
        (h' : ((enclosed opener closer unclosed state' depth' cs).map
          fun p => (c :: p.1, p.2)) = .ok (inner, rest)) : c :: cs = inner ++ closer :: rest := by
      obtain ⟨tail, rfl, ht⟩ := map_cons_ok h'
      simp [ih ht]
    cases state with
    | escaped quote => exact step h
    | quoted quote => exact step h
    | code =>
      simp only [enclosed] at h
      split at h
      · exact step h
      · split at h
        · exact step h
        · split at h
          · next hc =>
            cases depth with
            | zero =>
              obtain ⟨rfl, rfl⟩ : [] = inner ∧ cs = rest := by simpa using h
              simp [hc]
            | succ depth => exact step h
          · exact step h

end Stencil.Markup
