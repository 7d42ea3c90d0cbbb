import Stencil.Markup.Enclosed
import Stencil.Proofs.Text.Units

/-!
The search for a closing delimiter, unit by unit. Units are read in bounds only. A backslash in a
string literal passes over one unit, which may leave the search inside a character.
-/

namespace Stencil.Markup.Bytewise

section Closers

variable (us : List Char)

-- The quote that ends a string literal, sought from unit `i` on, or the end of the units. The unit
-- behind a backslash is passed over, whatever it is part of.
def literalEnd (quote : Char) (i : Nat) : Nat :=
  if h : i < us.length then
    if us[i] = quote then i else literalEnd quote (if us[i] = '\\' then i + 2 else i + 1)
  else i
termination_by us.length - i
decreasing_by split <;> omega

theorem le_literalEnd (quote : Char) (i : Nat) : i ≤ literalEnd us quote i := by
  fun_induction literalEnd us quote i with
  | case1 => exact Nat.le_refl _
  | case2 i h hquote ih =>
    refine Nat.le_trans ?_ ih
    split <;> omega
  | case3 => exact Nat.le_refl _

-- The closer that matches an opener before unit `i`. `depth` counts the openers met since.
def closerFrom (opener closer : Char) (unclosed : Defect) (depth i : Nat) : Except Defect Nat :=
  if h : i < us.length then
    if us[i] = '"' ∨ us[i] = '\'' then
      let stop := literalEnd us us[i] (i + 1)
      if stop < us.length then closerFrom opener closer unclosed depth (stop + 1)
      else .error .unterminatedString
    else if us[i] = opener then closerFrom opener closer unclosed (depth + 1) (i + 1)
    else if us[i] = closer then
      match depth with
      | 0 => .ok i
      | depth + 1 => closerFrom opener closer unclosed depth (i + 1)
    else closerFrom opener closer unclosed depth (i + 1)
  else .error unclosed
termination_by us.length - i
decreasing_by
  · have hle := le_literalEnd us us[i] (i + 1)
    omega
  all_goals omega

-- The search for a closer from unit `i` on, begun in code, in a string literal or behind a
-- backslash in one.
def searchFrom (opener closer : Char) (unclosed : Defect) (state : Quoting) (depth i : Nat) :
    Except Defect Nat :=
  let behindLiteral (quote : Char) (i : Nat) :=
    let stop := literalEnd us quote i
    if stop < us.length then closerFrom us opener closer unclosed depth (stop + 1)
    else .error .unterminatedString
  match state with
  | .code => closerFrom us opener closer unclosed depth i
  | .quoted quote => behindLiteral quote i
  | .escaped quote => behindLiteral quote (i + 1)

end Closers

section Search

variable {us : List Char} {opener closer : Char} {unclosed : Defect} {depth i : Nat}

-- One step of the search in each state.
theorem searchFrom_code {u : Char} (h : us[i]? = some u) :
    searchFrom us opener closer unclosed .code depth i =
      if u = '"' ∨ u = '\'' then searchFrom us opener closer unclosed (.quoted u) depth (i + 1)
      else if u = opener then searchFrom us opener closer unclosed .code (depth + 1) (i + 1)
      else if u = closer then
        match depth with
        | 0 => .ok i
        | depth + 1 => searchFrom us opener closer unclosed .code depth (i + 1)
      else searchFrom us opener closer unclosed .code depth (i + 1) := by
  obtain ⟨hlt, rfl⟩ := List.getElem?_eq_some_iff.1 h
  simp only [searchFrom]
  rw [closerFrom.eq_def, dif_pos hlt]

theorem searchFrom_quoted {quote u : Char} (h : us[i]? = some u) :
    searchFrom us opener closer unclosed (.quoted quote) depth i =
      searchFrom us opener closer unclosed
        (if u = quote then .code else if u = '\\' then .escaped quote else .quoted quote) depth
        (i + 1) := by
  obtain ⟨hlt, rfl⟩ := List.getElem?_eq_some_iff.1 h
  simp only [searchFrom]
  rw [literalEnd, dif_pos hlt]
  by_cases hquote : us[i] = quote
  · rw [if_pos hquote, if_pos hquote, if_pos hlt]
  · rw [if_neg hquote, if_neg hquote]
    by_cases hback : us[i] = '\\'
    · rw [if_pos hback, if_pos hback]
    · rw [if_neg hback, if_neg hback]

theorem searchFrom_of_le (h : us.length ≤ i) (state : Quoting) :
    searchFrom us opener closer unclosed state depth i =
      .error (if state = .code then unclosed else .unterminatedString) := by
  have hstop (quote : Char) {j : Nat} (hj : us.length ≤ j) :
      ¬ literalEnd us quote j < us.length :=
    Nat.not_lt.2 (Nat.le_trans hj (le_literalEnd us quote j))
  cases state with
  | code =>
    simp only [searchFrom]
    rw [closerFrom.eq_def, dif_neg (Nat.not_lt.2 h)]
    rfl
  | quoted quote => exact if_neg (hstop quote h)
  | escaped quote => exact if_neg (hstop quote (Nat.le_succ_of_le h))

end Search

-- All that the search looks for are ASCII characters, so it goes by characters as by units.
section Characters

variable {source rest : List Char} {i : Nat} {c : Char} {opener closer : Char} {unclosed : Defect}
  {depth : Nat}

theorem searchFrom_code_char (h : dropBytes? i source = some (c :: rest))
    (hopener : opener.toNat < 0x80) (hcloser : closer.toNat < 0x80) :
    let onward (state : Quoting) (depth : Nat) :=
      searchFrom (units source) opener closer unclosed state depth (i + c.utf8Size)
    searchFrom (units source) opener closer unclosed .code depth i =
      if c = '"' ∨ c = '\'' then onward (.quoted c) depth
      else if c = opener then onward .code (depth + 1)
      else if c = closer then
        match depth with
        | 0 => .ok i
        | depth + 1 => onward .code depth
      else onward .code depth := by
  by_cases hc : c.toNat < 0x80
  · rw [searchFrom_code (unit_of_ascii h hc), utf8Size_of_ascii hc]
  · have hnot {u : Char} (hu : 0x80 ≤ u.toNat) :
        ¬ (u = '"' ∨ u = '\'') ∧ u ≠ opener ∧ u ≠ closer :=
      ⟨not_or.2 ⟨ne_of_wide hu (by decide), ne_of_wide hu (by decide)⟩, ne_of_wide hu hopener,
        ne_of_wide hu hcloser⟩
    have hwide := Nat.le_of_not_lt hc
    obtain ⟨hquote, hopen, hclose⟩ := hnot hwide
    simp only [if_neg hquote, if_neg hopen, if_neg hclose]
    refine eq_of_passing (fun j u hu huwide => ?_) h hwide (Nat.zero_le _)
    obtain ⟨hquote, hopen, hclose⟩ := hnot huwide
    rw [searchFrom_code hu, if_neg hquote, if_neg hopen, if_neg hclose]

variable {quote : Char}

theorem searchFrom_quoted_wide {k : Nat} (h : dropBytes? i source = some (c :: rest))
    (hquote : quote.toNat < 0x80) (hc : 0x80 ≤ c.toNat) (hk : k ≤ c.utf8Size) :
    searchFrom (units source) opener closer unclosed (.quoted quote) depth (i + k) =
      searchFrom (units source) opener closer unclosed (.quoted quote) depth (i + c.utf8Size) := by
  refine eq_of_passing (fun j u hu huwide => ?_) h hc hk
  rw [searchFrom_quoted hu, if_neg (ne_of_wide huwide hquote),
    if_neg (ne_of_wide huwide (by decide))]

theorem searchFrom_quoted_char (h : dropBytes? i source = some (c :: rest))
    (hquote : quote.toNat < 0x80) :
    searchFrom (units source) opener closer unclosed (.quoted quote) depth i =
      searchFrom (units source) opener closer unclosed
        (if c = quote then .code else if c = '\\' then .escaped quote else .quoted quote) depth
        (i + c.utf8Size) := by
  by_cases hc : c.toNat < 0x80
  · rw [searchFrom_quoted (unit_of_ascii h hc), utf8Size_of_ascii hc]
  · have hwide := Nat.le_of_not_lt hc
    rw [if_neg (ne_of_wide hwide hquote), if_neg (ne_of_wide hwide (by decide))]
    exact searchFrom_quoted_wide h hquote hwide (Nat.zero_le _)

-- Behind a backslash one unit is passed over, and the others of the character are no quotes.
theorem searchFrom_escaped_char (h : dropBytes? i source = some (c :: rest))
    (hquote : quote.toNat < 0x80) :
    searchFrom (units source) opener closer unclosed (.escaped quote) depth i =
      searchFrom (units source) opener closer unclosed (.quoted quote) depth (i + c.utf8Size) := by
  by_cases hc : c.toNat < 0x80
  · rw [utf8Size_of_ascii hc]
    rfl
  · exact searchFrom_quoted_wide h hquote (Nat.le_of_not_lt hc) c.utf8Size_pos

end Characters

-- The quote of a state is an ASCII character.
def Plain : Quoting → Prop
  | .code => True
  | .quoted quote | .escaped quote => quote.toNat < 0x80

theorem searchFrom_units {source cs : List Char} {opener closer : Char} {unclosed : Defect}
    {state : Quoting} {depth i : Nat} (h : dropBytes? i source = some cs)
    (hopener : opener.toNat < 0x80) (hcloser : closer.toNat < 0x80) (hstate : Plain state) :
    searchFrom (units source) opener closer unclosed state depth i =
      (Markup.enclosed opener closer unclosed state depth cs).map
        fun (inner, _) => i + byteLength inner := by
  induction cs generalizing state depth i with
  | nil =>
    have hend : (units source).length ≤ i := Nat.le_of_eq (length_units_of_drop h)
    rw [searchFrom_of_le hend]
    cases state <;> rfl
  | cons c cs ih =>
    have honward {state' : Quoting} {depth' : Nat} (hstate' : Plain state') :
        searchFrom (units source) opener closer unclosed state' depth' (i + c.utf8Size) =
          ((Markup.enclosed opener closer unclosed state' depth' cs).map
            fun (inner, rest) => (c :: inner, rest)).map
              fun (inner, _) => i + byteLength inner := by
      rw [ih (dropBytes?_cons h) hstate']
      cases Markup.enclosed opener closer unclosed state' depth' cs with
      | error defect => rfl
      | ok p => exact congrArg Except.ok (Nat.add_assoc ..)
    cases state with
    | code =>
      rw [searchFrom_code_char h hopener hcloser, Markup.enclosed.eq_def]
      dsimp only
      split
      · next hquote =>
        refine honward ?_
        rcases hquote with rfl | rfl
        · exact show '"'.toNat < 0x80 by decide
        · exact show '\''.toNat < 0x80 by decide
      split
      · exact honward trivial
      split
      · cases depth with
        | zero => rfl
        | succ depth => exact honward trivial
      · exact honward trivial
    | quoted quote =>
      rw [searchFrom_quoted_char h hstate, Markup.enclosed]
      refine honward ?_
      split
      · trivial
      · split <;> exact hstate
    | escaped quote =>
      rw [searchFrom_escaped_char h hstate, Markup.enclosed]
      exact honward hstate

end Stencil.Markup.Bytewise
