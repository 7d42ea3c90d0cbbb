import Stencil.Directory.Path

/-!
The components of a path: what its parts come to, and what joining and extending paths does to them.
-/

namespace Stencil

section Parts

theorem slashParts_ne_nil (cs : List Char) : slashParts cs ≠ [] := by
  cases cs with
  | nil => simp [slashParts]
  | cons c cs =>
      rw [slashParts]
      split
      · simp
      · split <;> simp

theorem slashParts_slash (cs : List Char) : slashParts ('/' :: cs) = [] :: slashParts cs := by
  simp [slashParts]

theorem slashParts_cons {c : Char} (hc : c ≠ '/') (cs : List Char) :
    ∃ part parts, slashParts cs = part :: parts ∧ slashParts (c :: cs) = (c :: part) :: parts := by
  cases hparts : slashParts cs with
  | nil => exact absurd hparts (slashParts_ne_nil cs)
  | cons part parts => exact ⟨part, parts, rfl, by simp [slashParts, hc, hparts]⟩

theorem slashParts_append_slash (as bs : List Char) :
    slashParts (as ++ '/' :: bs) = slashParts as ++ slashParts bs := by
  induction as with
  | nil => simp [slashParts]
  | cons a as ih =>
      by_cases ha : a = '/'
      · subst ha
        rw [List.cons_append, slashParts_slash, slashParts_slash, ih, List.cons_append]
      · obtain ⟨part, parts, hparts, hcons⟩ := slashParts_cons ha as
        obtain ⟨part', parts', hparts', hcons'⟩ := slashParts_cons ha (as ++ '/' :: bs)
        rw [ih, hparts, List.cons_append] at hparts'
        obtain ⟨rfl, rfl⟩ := List.cons.inj hparts'
        rw [List.cons_append, hcons', hcons, List.cons_append]

theorem slashParts_of_not_mem {cs : List Char} (h : '/' ∉ cs) : slashParts cs = [cs] := by
  induction cs with
  | nil => rfl
  | cons c cs ih =>
      rw [List.mem_cons, not_or] at h
      obtain ⟨part, parts, hparts, hcons⟩ := slashParts_cons (Ne.symm h.1) cs
      rw [ih h.2] at hparts
      obtain ⟨rfl, rfl⟩ := List.cons.inj hparts
      exact hcons

theorem not_mem_of_mem_slashParts {cs part : List Char} (h : part ∈ slashParts cs) :
    '/' ∉ part := by
  induction cs generalizing part with
  | nil =>
      rw [slashParts, List.mem_singleton] at h
      simp [h]
  | cons c cs ih =>
      by_cases hc : c = '/'
      · subst hc
        rw [slashParts_slash, List.mem_cons] at h
        obtain rfl | h := h
        · simp
        · exact ih h
      · obtain ⟨first, parts, hparts, hcons⟩ := slashParts_cons hc cs
        rw [hcons, List.mem_cons] at h
        rw [hparts] at ih
        obtain rfl | h := h
        · rw [List.mem_cons, not_or]
          exact ⟨Ne.symm hc, ih List.mem_cons_self⟩
        · exact ih (List.mem_cons_of_mem _ h)

theorem slashParts_joinSlash {parts : List (List Char)} (hne : parts ≠ [])
    (h : ∀ part ∈ parts, '/' ∉ part) : slashParts (joinSlash parts) = parts := by
  induction parts with
  | nil => exact absurd rfl hne
  | cons part parts ih =>
      have hpart := slashParts_of_not_mem (h part List.mem_cons_self)
      cases parts with
      | nil => exact hpart
      | cons next parts =>
          rw [joinSlash, slashParts_append_slash, hpart,
            ih (by simp) fun p hp => h p (List.mem_cons_of_mem _ hp), List.singleton_append]
          simp

end Parts

-- What a part of a path comes to.
inductive Component where
  | root
  | current
  | parent
  | name (chars : List Char)
deriving DecidableEq

def Component.ofPart (part : List Char) : Component :=
  if part = ['.', '.'] then .parent else .name part

namespace Path

-- Where parts start. An empty part in front of others stands for the root. A part that stays where
-- it is counts in front only.
def start : List (List Char) → List Component
  | [] => []
  | [] :: _ :: _ => [.root]
  | part :: _ => if part = ['.'] then [.current] else []

-- The parts that lead somewhere.
def counted (parts : List (List Char)) : List Component :=
  (parts.filter (!isIdle ·)).map .ofPart

def components (p : Path) : List Component := start p.parts ++ counted p.parts

variable {p : Path} {part : List Char}

theorem isIdle_eq_false_iff : isIdle part = false ↔ part ≠ [] ∧ part ≠ ['.'] := by
  simp [isIdle]

theorem counted_append (parts parts' : List (List Char)) :
    counted (parts ++ parts') = counted parts ++ counted parts' := by
  simp [counted]

theorem counted_singleton (h : isIdle part = false) : counted [part] = [.ofPart part] := by
  simp [counted, h]

theorem start_singleton (h : isIdle part = false) : start [part] = [] := by
  match part with
  | [] => rfl
  | c :: cs =>
      have hdot : ¬(c = '.' ∧ cs = []) := by simpa [isIdle] using h
      simp [start, hdot]

-- More parts do not change the start.
theorem start_append {parts : List (List Char)} (hne : parts ≠ []) (hempty : parts ≠ [[]])
    (more : List (List Char)) : start (parts ++ more) = start parts := by
  match parts with
  | [] => exact absurd rfl hne
  | [[]] => exact absurd rfl hempty
  | [] :: _ :: _ => rfl
  | (_ :: _) :: _ => rfl

theorem name_not_mem_start (parts : List (List Char)) (name : List Char) :
    .name name ∉ start parts := by
  unfold start
  split
  · simp
  · simp
  · split <;> simp

theorem parts_of_nil (h : p.chars = []) : p.parts = [[]] := by
  rw [parts, h]
  rfl

theorem parts_ne_empty (h : p.chars ≠ []) : p.parts ≠ [[]] := by
  rw [parts]
  cases hchars : p.chars with
  | nil => exact absurd hchars h
  | cons c cs =>
      by_cases hc : c = '/'
      · subst hc
        rw [slashParts_slash]
        simp [slashParts_ne_nil]
      · obtain ⟨first, rest, -, hcons⟩ := slashParts_cons hc cs
        simp [hcons]

-- A part is joined with a slash, unless one is there already.
theorem push_cases (hp : p.chars ≠ []) (part : List Char) :
    ∃ before, p.push part = ⟨before ++ '/' :: part⟩ ∧
      (p.chars = before ++ ['/'] ∨ p.chars = before) := by
  have hempty : p.chars.isEmpty = false := by simpa using hp
  by_cases hslash : p.chars.getLast? = some '/'
  · obtain ⟨before, hbefore⟩ := List.getLast?_eq_some_iff.mp hslash
    exact ⟨before, by simp [push, hbefore], .inl hbefore⟩
  · exact ⟨p.chars, by simp [push, hempty, hslash], .inr rfl⟩

-- It comes behind all others,
theorem components_push (hp : p.chars ≠ []) (hpart : '/' ∉ part) :
    (p.push part).components = p.components ++ counted [part] := by
  obtain ⟨before, hpush, hbefore | hbefore⟩ := push_cases hp part
  · have hparts : p.parts = slashParts before ++ [[]] := by
      rw [parts, hbefore, slashParts_append_slash]
      rfl
    have hstart : start (slashParts before ++ [part]) = start (slashParts before ++ [[]]) := by
      by_cases hnil : before = []
      · subst hnil
        rfl
      · have hne : slashParts before ≠ [[]] := parts_ne_empty (p := ⟨before⟩) hnil
        rw [start_append (slashParts_ne_nil _) hne, start_append (slashParts_ne_nil _) hne]
    have hcounted : counted [[]] = [] := rfl
    rw [hpush, components, components, hparts, parts, slashParts_append_slash,
      slashParts_of_not_mem hpart, hstart, counted_append, counted_append, hcounted,
      List.append_nil, List.append_assoc]
  · have hne : slashParts before ≠ [[]] := hbefore ▸ parts_ne_empty hp
    rw [hpush, components, components, parts, parts, hbefore, slashParts_append_slash,
      slashParts_of_not_mem hpart, start_append (slashParts_ne_nil _) hne, counted_append,
      List.append_assoc]

-- or stands alone.
theorem components_push_nil (hp : p.chars = []) (hpart : '/' ∉ part) :
    (p.push part).components = start [part] ++ counted [part] := by
  have hpush : p.push part = ⟨part⟩ := by simp [push, hp]
  rw [hpush, components, parts, slashParts_of_not_mem hpart]

theorem push_ne_nil (p : Path) (hpart : part ≠ []) : (p.push part).chars ≠ [] := by
  unfold push
  split
  · simp [hpart]
  · simp

theorem pushAll_ne_nil {parts : List (List Char)} (h : ∀ part ∈ parts, part ≠ [] ∧ '/' ∉ part)
    (hne : parts ≠ []) (p : Path) : (parts.foldl push p).chars ≠ [] := by
  rw [← List.dropLast_concat_getLast hne, List.foldl_append]
  exact push_ne_nil _ (h _ (List.getLast_mem hne)).1

-- So do several parts.
theorem components_pushAll {parts : List (List Char)}
    (h : ∀ part ∈ parts, part ≠ [] ∧ '/' ∉ part) (hp : p.chars ≠ []) :
    (parts.foldl push p).components = p.components ++ counted parts := by
  induction parts generalizing p with
  | nil => simp [counted]
  | cons part parts ih =>
      obtain ⟨hne, hslash⟩ := h part List.mem_cons_self
      rw [List.foldl_cons, ih (fun q hq => h q (List.mem_cons_of_mem _ hq)) (push_ne_nil p hne),
        components_push hp hslash, List.append_assoc, ← counted_append, List.singleton_append]

theorem components_pushAll_nil {parts : List (List Char)}
    (h : ∀ part ∈ parts, part ≠ [] ∧ '/' ∉ part) (hne : parts ≠ []) (hp : p.chars = []) :
    (parts.foldl push p).components = start parts ++ counted parts := by
  cases parts with
  | nil => exact absurd rfl hne
  | cons part parts =>
      obtain ⟨hpart, hslash⟩ := h part List.mem_cons_self
      have hempty : [part] ≠ [[]] := by simpa using hpart
      have hstart := start_append (List.cons_ne_nil part []) hempty parts
      rw [List.foldl_cons, components_pushAll (fun q hq => h q (List.mem_cons_of_mem _ hq))
        (push_ne_nil p hpart), components_push_nil hp hslash, List.append_assoc, ← counted_append,
        ← hstart, List.singleton_append]

theorem components_anchor (p : Path) : components ⟨p.anchor⟩ = start p.parts := by
  unfold anchor parts
  cases hchars : p.chars with
  | nil => rfl
  | cons c cs =>
      by_cases hc : c = '/'
      · subst hc
        rw [slashParts_slash]
        cases hparts : slashParts cs with
        | nil => exact absurd hparts (slashParts_ne_nil cs)
        | cons part parts => rfl
      · obtain ⟨first, rest, -, hcons⟩ := slashParts_cons hc cs
        rw [hcons]
        by_cases hdot : c = '.' ∧ first = []
        · simp [hdot, start, components, parts, slashParts, counted, isIdle]
        · simp [hc, hdot, start, components, parts, slashParts, counted, isIdle]

-- A part that can be a name stays one with more characters behind it.
theorem proper_append (hidle : isIdle part = false) (hup : part ≠ ['.', '.']) (more : List Char) :
    isIdle (part ++ more) = false ∧ part ++ more ≠ ['.', '.'] := by
  match part with
  | [] => cases hidle
  | [c] =>
      have hc : c ≠ '.' := by simpa [isIdle] using hidle
      simp [isIdle, hc]
  | [c, d] =>
      refine ⟨by simp [isIdle], ?_⟩
      simp only [ne_eq, List.cons.injEq, and_true, not_and] at hup
      simp only [List.cons_append, List.nil_append, ne_eq, List.cons.injEq, not_and]
      exact fun hc hd => absurd hd (hup hc)
  | c :: d :: b :: part => simp [isIdle]

theorem counted_name (hidle : isIdle part = false) (hup : part ≠ ['.', '.']) :
    counted [part] = [.name part] := by
  rw [counted_singleton hidle, Component.ofPart, if_neg hup]

-- The parts from the last one that counts back to the first.
theorem dropIdle_cases (back : List (List Char)) :
    (back.dropWhile isIdle = [] ∧ counted back.reverse = []) ∨
    ∃ idle last before, back = idle ++ last :: before ∧ back.dropWhile isIdle = last :: before ∧
      isIdle last = false ∧ counted back.reverse = counted before.reverse ++ [.ofPart last] := by
  induction back with
  | nil => exact .inl ⟨rfl, rfl⟩
  | cons part back ih =>
      rw [List.reverse_cons, counted_append]
      cases hidle : isIdle part with
      | true =>
          have hnone : counted [part] = [] := by simp [counted, hidle]
          rw [List.dropWhile_cons_of_pos hidle, hnone, List.append_nil]
          obtain hnone | ⟨idle, last, before, rfl, hsome⟩ := ih
          · exact .inl hnone
          · exact .inr ⟨part :: idle, last, before, rfl, hsome⟩
      | false =>
          rw [List.dropWhile_cons_of_neg (by simp [hidle]), counted_singleton hidle]
          exact .inr ⟨[], part, back, rfl, rfl, hidle, rfl⟩

-- Either the last component is a name, and the others are those of the path up to it, or it is not.
theorem splitName?_cases (p : Path) :
    (∃ above name, p.splitName? = some (above, name) ∧
      p.components = above.components ++ [.name name] ∧ isIdle name = false ∧
      name ≠ ['.', '.'] ∧ '/' ∉ name) ∨
    (p.splitName? = none ∧ ∀ above name, p.components ≠ above ++ [.name name]) := by
  have hslash : ∀ part ∈ p.parts, '/' ∉ part := fun _ => not_mem_of_mem_slashParts
  obtain ⟨hdrop, hcounted⟩ | ⟨idle, name, before, hback, hdrop, hidle, hcounted⟩ :=
    dropIdle_cases p.parts.reverse
  · rw [List.reverse_reverse] at hcounted
    refine .inr ⟨by rw [splitName?, hdrop], fun above name h => ?_⟩
    rw [components, hcounted, List.append_nil] at h
    exact name_not_mem_start p.parts name (by rw [h]; simp)
  · rw [List.reverse_reverse] at hcounted
    have hparts : p.parts = before.reverse ++ [name] ++ idle.reverse := by
      rw [← List.reverse_reverse p.parts, hback]
      simp
    by_cases hup : name = ['.', '.']
    · subst hup
      refine .inr ⟨by rw [splitName?, hdrop]; rfl, fun above name h => ?_⟩
      rw [components, hcounted, ← List.append_assoc] at h
      cases (List.append_inj' h rfl).2
    · have hname : '/' ∉ name := hslash name (by rw [hparts]; simp)
      have hlast : Component.ofPart name = .name name := if_neg hup
      obtain ⟨hdrop', hcounted'⟩ | ⟨idle', last, above, hback', hdrop', hidle', hcounted'⟩ :=
        dropIdle_cases before
      · refine .inl ⟨⟨p.anchor⟩, name, ?_, ?_, hidle, hup, hname⟩
        · simp [splitName?, hdrop, hup, hdrop']
        · rw [components, components_anchor, hcounted, hcounted', hlast, List.nil_append]
      · refine .inl ⟨⟨joinSlash (last :: above).reverse⟩, name, ?_, ?_, hidle, hup, hname⟩
        · simp [splitName?, hdrop, hup, hdrop']
        · have hparts' : p.parts = (last :: above).reverse ++ (idle'.reverse ++ [name] ++
              idle.reverse) := by
            rw [hparts, hback']
            simp
          have hjoined : parts ⟨joinSlash (last :: above).reverse⟩ = (last :: above).reverse := by
            refine slashParts_joinSlash (by simp) fun part hpart => hslash part ?_
            rw [hparts']
            exact List.mem_append_left _ hpart
          have hempty : (last :: above).reverse ≠ [[]] := by
            intro h
            obtain ⟨rfl, -⟩ : last = [] ∧ above = [] := by simpa using congrArg List.reverse h
            cases hidle'
          have hstart : start p.parts = start (last :: above).reverse := by
            rw [hparts', start_append (by simp) hempty]
          rw [components, components, hjoined, hstart, hcounted, hcounted', hlast,
            List.reverse_cons, counted_append, counted_singleton hidle']
          simp only [List.append_assoc]

-- An extension is added to the name that the path ends in. A path that ends otherwise goes on with
-- the extension as a part of its own.
theorem components_extend {extension : List Char} (hslash : '/' ∉ extension) (hp : p.chars ≠ []) :
    (∀ above name, p.components = above ++ [.name name] →
      (p.extend extension).components = above ++ [.name (name ++ extension)]) ∧
    ((∀ above name, p.components ≠ above ++ [.name name]) →
      (p.extend extension).components = p.components ++ counted [extension]) := by
  obtain ⟨above, name, hsplit, hcomponents, hidle, hup, hname⟩ | ⟨hsplit, hnone⟩ :=
    splitName?_cases p
  · refine ⟨fun above' name' h => ?_, fun h => absurd hcomponents (h _ _)⟩
    obtain ⟨rfl, hlast⟩ := List.append_inj' (hcomponents.symm.trans h) rfl
    obtain rfl : name = name' := by simpa using hlast
    obtain ⟨hidle', hup'⟩ := proper_append hidle hup extension
    have hslash' : '/' ∉ name ++ extension := by simp [hname, hslash]
    rw [extend, hsplit]
    dsimp only
    by_cases habove : above.chars = []
    · have hnone : above.components = [] := by rw [components, parts_of_nil habove]; rfl
      rw [components_push_nil habove hslash', start_singleton hidle', counted_name hidle' hup',
        hnone]
    · rw [components_push habove hslash', counted_name hidle' hup']
  · refine ⟨fun above name h => absurd h (hnone above name), fun _ => ?_⟩
    rw [extend, hsplit]
    exact components_push hp hslash

end Path

end Stencil
