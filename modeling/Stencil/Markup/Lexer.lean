import Stencil.Markup.Enclosed
import Stencil.Markup.Token
import Stencil.Text.Classes
import Stencil.Text.Word

/-!
Cutting a source into tokens. What forms no tag is text, so a lone `@` or `$` splits nothing.
-/

namespace Stencil.Markup

-- A token with the place where its extent ends and the source that follows.
structure Lexeme where
  token : Token
  stop : Nat
  rest : List Char

-- What follows `word`, unless the word runs on into a longer identifier.
def dropKeyword? (word cs : List Char) : Option (List Char) :=
  match dropWord? word cs with
  | some rest => if rest.head?.any isIdentChar then none else some rest
  | none => none

-- The text up to the closer of an opener that ends at `start`, the offset past the closer, and
-- the source that follows. Faults are reported at the head of the tag.
def enclosedFrom (opener closer : Char) (unclosed : Defect) (head start : Nat)
    (cs : List Char) : Except Fault (Slice × Nat × List Char) :=
  match enclosed opener closer unclosed .code 0 cs with
  | .error defect => .error ⟨defect, head⟩
  | .ok (inner, rest) =>
    let slice : Slice := ⟨start, inner⟩
    .ok (slice, slice.stop + closer.utf8Size, rest)

def interpolation (raw : Bool) (head start : Nat) (cs : List Char) : Except Fault Lexeme :=
  (enclosedFrom '\x7b' '\x7d' .unterminatedInterpolation head start cs).map
    fun (inner, stop, rest) => ⟨.interpolation raw inner ⟨head, stop⟩, stop, rest⟩

def parenthesised (head start : Nat) (tag : Slice → Tag) (cs : List Char) :
    Except Fault Lexeme :=
  (enclosedFrom '(' ')' .unterminatedTag head start cs).map
    fun (inner, stop, rest) => ⟨.tag (tag inner) ⟨head, stop⟩, stop, rest⟩

def bareTag (tag : Tag) (head stop : Nat) (rest : List Char) : Lexeme :=
  ⟨.tag tag ⟨head, stop⟩, stop, rest⟩

-- A block of raw text reaches to the first `@endraw`.
def rawBlock (head : Nat) (cs : List Char) : Except Fault Lexeme :=
  match splitAtWord? "@endraw".toList cs with
  | none => .error ⟨.unterminatedRaw, head⟩
  | some (body, rest) =>
    let slice : Slice := ⟨head + 4, body⟩
    .ok ⟨.text slice, slice.stop + 7, rest⟩

-- Drops the carriage returns at the end.
def dropReturns (cs : List Char) : List Char := (cs.reverse.dropWhile (· == '\r')).reverse

-- A declaration takes the rest of its line, and the line break with it.
def paramLine (head : Nat) (cs : List Char) : Lexeme :=
  let line : Slice := ⟨head + 6, cs.takeWhile (· != '\n')⟩
  let tag := Tag.param ⟨line.start, dropReturns line.chars⟩
  match cs.dropWhile (· != '\n') with
  | [] => ⟨.tag tag ⟨head, line.stop⟩, line.stop, []⟩
  | _ :: rest => ⟨.tag tag ⟨head, line.stop⟩, line.stop + 1, rest⟩

-- Is this the rest of a name whose segments are joined by single dots, none of them empty?
-- `boundary` says that a segment starts here.
def isDotted (boundary : Bool) : List Char → Bool
  | [] => !boundary
  | c :: cs => if c == '.' then !boundary && isDotted true cs else isDotted false cs

def nextCharText : List Char → String
  | [] => "end of input"
  | c :: _ => s!"'{c}'"

def inclusion (head : Nat) (cs : List Char) : Except Fault Lexeme :=
  let name : Slice := ⟨head + 10, cs.takeWhile fun c => isIdentChar c || c == '.'⟩
  if isDotted true name.chars then
    match cs.dropWhile fun c => isIdentChar c || c == '.' with
    | '(' :: rest =>
      let target := String.ofList (name.chars.map fun c => if c == '.' then '/' else c)
      parenthesised head (name.stop + 1) (.inclusion target) rest
    | rest => .error ⟨.unexpectedToken "'(' after template name" (nextCharText rest), name.stop⟩
  else .error ⟨.invalidTemplateName, name.start⟩

-- Reads what follows an `@` at `head`.
def tag? (head : Nat) (cs : List Char) : Except Fault (Option Lexeme) :=
  if let some rest := dropWord? "if(".toList cs then
    (parenthesised head (head + 4) .condition rest).map some
  else if let some rest := dropWord? "elseif(".toList cs then
    (parenthesised head (head + 8) .elseCondition rest).map some
  else if let some rest := dropWord? "for(".toList cs then
    (parenthesised head (head + 5) .loop rest).map some
  else if let some rest := dropKeyword? "else".toList cs then
    .ok (some (bareTag .otherwise head (head + 5) rest))
  else if let some rest := dropKeyword? "endif".toList cs then
    .ok (some (bareTag .close head (head + 6) rest))
  else if let some rest := dropKeyword? "endfor".toList cs then
    .ok (some (bareTag .close head (head + 7) rest))
  else if let some rest := dropKeyword? "end".toList cs then
    .ok (some (bareTag .close head (head + 4) rest))
  else if let some _ := dropKeyword? "endraw".toList cs then
    .error ⟨.unexpectedTag .endRaw, head⟩
  else if let some rest := dropKeyword? "raw".toList cs then
    (rawBlock head rest).map some
  else if let some rest := dropWord? "param".toList cs then
    if rest.head?.any fun c => c == ' ' || c == '\t' then .ok (some (paramLine head rest))
    else .ok none
  else if let some rest := dropWord? "template.".toList cs then
    (inclusion head rest).map some
  else .ok none

-- Reads what follows a `$` at `head`.
def interpolation? (head : Nat) (cs : List Char) : Except Fault (Option Lexeme) :=
  if let some rest := dropWord? "\x7b".toList cs then
    (interpolation false head (head + 2) rest).map some
  else if let some rest := dropWord? "unsafe\x7b".toList cs then
    (interpolation true head (head + 8) rest).map some
  else .ok none

-- Reads what follows a `<` at `head`.
def comment? (head : Nat) (cs : List Char) : Except Fault (Option Lexeme) :=
  match dropWord? "%--".toList cs with
  | none => .ok none
  | some body =>
    match splitAtWord? "--%>".toList body with
    | none => .error ⟨.unterminatedComment, head⟩
    | some (inner, rest) => .ok (some (bareTag .comment head (head + 8 + byteLength inner) rest))

-- The interpolation, tag or raw block that starts here, if one does.
def lexeme? (pos : Nat) : List Char → Except Fault (Option Lexeme)
  | '$' :: cs => interpolation? pos cs
  | '@' :: cs => tag? pos cs
  | '<' :: cs => comment? pos cs
  | _ => .ok none

-- Each reader leaves a proper part of what it was given.

private theorem enclosedFrom_length {opener closer : Char} {unclosed : Defect} {head start : Nat}
    {cs : List Char} {p : Slice × Nat × List Char}
    (h : enclosedFrom opener closer unclosed head start cs = .ok p) :
    p.2.2.length < cs.length := by
  unfold enclosedFrom at h
  split at h
  · cases h
  · next inner rest he =>
    obtain rfl : _ = p := by simpa using h
    simp only [eq_append_of_enclosed he, List.length_append, List.length_cons]
    omega

private theorem interpolation_length {raw : Bool} {head start : Nat} {cs : List Char} {l : Lexeme}
    (h : interpolation raw head start cs = .ok l) : l.rest.length < cs.length := by
  obtain ⟨p, hp, rfl⟩ := exists_of_map_eq_ok h
  exact enclosedFrom_length hp

private theorem parenthesised_length {head start : Nat} {tag : Slice → Tag} {cs : List Char}
    {l : Lexeme} (h : parenthesised head start tag cs = .ok l) : l.rest.length < cs.length := by
  obtain ⟨p, hp, rfl⟩ := exists_of_map_eq_ok h
  exact enclosedFrom_length hp

private theorem splitAtWord?_length {word cs before rest : List Char}
    (h : splitAtWord? word cs = some (before, rest)) : rest.length ≤ cs.length := by
  rw [eq_append_of_splitAtWord? h]
  simp only [List.length_append]
  omega

private theorem rawBlock_length {head : Nat} {cs : List Char} {l : Lexeme}
    (h : rawBlock head cs = .ok l) : l.rest.length ≤ cs.length := by
  unfold rawBlock at h
  split at h
  · cases h
  · next body rest he =>
    obtain rfl : _ = l := by simpa using h
    exact splitAtWord?_length he

private theorem paramLine_length (head : Nat) (cs : List Char) :
    (paramLine head cs).rest.length ≤ cs.length := by
  have h : (cs.dropWhile (· != '\n')).length ≤ cs.length := (List.dropWhile_sublist _).length_le
  unfold paramLine
  split
  · simp
  · next he =>
    rw [he, List.length_cons] at h
    simp only
    omega

private theorem inclusion_length {head : Nat} {cs : List Char} {l : Lexeme}
    (h : inclusion head cs = .ok l) : l.rest.length ≤ cs.length := by
  have hd : (cs.dropWhile fun c => isIdentChar c || c == '.').length ≤ cs.length :=
    (List.dropWhile_sublist _).length_le
  unfold inclusion at h
  simp only at h
  split at h
  · split at h
    · next he =>
      have := parenthesised_length h
      rw [he, List.length_cons] at hd
      omega
    · cases h
  · cases h

private theorem dropWord?_length {word cs rest : List Char} (h : dropWord? word cs = some rest) :
    rest.length ≤ cs.length := by
  rw [dropWord?_eq_some_iff.1 h, List.length_append]
  omega

private theorem dropKeyword?_length {word cs rest : List Char}
    (h : dropKeyword? word cs = some rest) : rest.length ≤ cs.length := by
  unfold dropKeyword? at h
  split at h
  · next r hr =>
    split at h
    · cases h
    · obtain rfl : r = rest := by simpa using h
      exact dropWord?_length hr
  · cases h

private theorem tag?_length {head : Nat} {cs : List Char} {l : Lexeme}
    (h : tag? head cs = .ok (some l)) : l.rest.length ≤ cs.length := by
  have inner {r : Except Fault Lexeme} {rest : List Char} (hr : r.map some = .ok (some l))
      (hl : rest.length ≤ cs.length) (hi : r = .ok l → l.rest.length ≤ rest.length) :
      l.rest.length ≤ cs.length := by
    obtain ⟨a, ha, hs⟩ := exists_of_map_eq_ok hr
    obtain rfl : a = l := by simpa using hs
    exact Nat.le_trans (hi ha) hl
  have bare {tag : Tag} {stop : Nat} {rest : List Char}
      (hb : Except.ok (some (bareTag tag head stop rest)) = (.ok (some l) : Except Fault _))
      (hl : rest.length ≤ cs.length) : l.rest.length ≤ cs.length := by
    obtain rfl : _ = l := by simpa using hb
    exact hl
  unfold tag? at h
  split at h
  · next hw => exact inner h (dropWord?_length hw) fun hp => Nat.le_of_lt (parenthesised_length hp)
  split at h
  · next hw => exact inner h (dropWord?_length hw) fun hp => Nat.le_of_lt (parenthesised_length hp)
  split at h
  · next hw => exact inner h (dropWord?_length hw) fun hp => Nat.le_of_lt (parenthesised_length hp)
  split at h
  · next hw => exact bare h (dropKeyword?_length hw)
  split at h
  · next hw => exact bare h (dropKeyword?_length hw)
  split at h
  · next hw => exact bare h (dropKeyword?_length hw)
  split at h
  · next hw => exact bare h (dropKeyword?_length hw)
  split at h
  · cases h
  split at h
  · next hw => exact inner h (dropKeyword?_length hw) rawBlock_length
  split at h
  · next rest hw =>
    split at h
    · obtain rfl : _ = l := by simpa using h
      exact Nat.le_trans (paramLine_length head rest) (dropWord?_length hw)
    · cases h
  split at h
  · next hw => exact inner h (dropWord?_length hw) inclusion_length
  · cases h

private theorem interpolation?_length {head : Nat} {cs : List Char} {l : Lexeme}
    (h : interpolation? head cs = .ok (some l)) : l.rest.length ≤ cs.length := by
  have inner {raw : Bool} {start : Nat} {rest : List Char}
      (hr : (interpolation raw head start rest).map some = .ok (some l))
      (hl : rest.length ≤ cs.length) : l.rest.length ≤ cs.length := by
    obtain ⟨a, ha, hs⟩ := exists_of_map_eq_ok hr
    obtain rfl : a = l := by simpa using hs
    exact Nat.le_trans (Nat.le_of_lt (interpolation_length ha)) hl
  unfold interpolation? at h
  split at h
  · next hw => exact inner h (dropWord?_length hw)
  split at h
  · next hw => exact inner h (dropWord?_length hw)
  · cases h

private theorem comment?_length {head : Nat} {cs : List Char} {l : Lexeme}
    (h : comment? head cs = .ok (some l)) : l.rest.length ≤ cs.length := by
  unfold comment? at h
  split at h
  · cases h
  · next hw =>
    split at h
    · cases h
    · next hs =>
      obtain rfl : _ = l := by simpa using h
      exact Nat.le_trans (splitAtWord?_length hs) (dropWord?_length hw)

theorem lexeme?_rest_length {pos : Nat} {cs : List Char} {l : Lexeme}
    (h : lexeme? pos cs = .ok (some l)) : l.rest.length < cs.length := by
  unfold lexeme? at h
  split at h
  · exact Nat.lt_succ_of_le (interpolation?_length h)
  · exact Nat.lt_succ_of_le (tag?_length h)
  · exact Nat.lt_succ_of_le (comment?_length h)
  · cases h

-- The text run met so far, as a token unless it is empty. `run` holds its characters, last first.
def textRun (start : Nat) (run : List Char) : List Token :=
  if run.isEmpty then [] else [.text ⟨start, run.reverse⟩]

-- Cuts `cs`, which begins at byte `pos`; the text run in progress began at byte `start`.
def lexemes (start : Nat) (run : List Char) (pos : Nat) (cs : List Char) :
    Except Fault (List Token) :=
  match cs with
  | [] => .ok (textRun start run)
  | c :: rest =>
    match _h : lexeme? pos (c :: rest) with
    | .error fault => .error fault
    | .ok none => lexemes start (c :: run) (pos + c.utf8Size) rest
    | .ok (some l) =>
      (lexemes l.stop [] l.stop l.rest).map fun tokens => textRun start run ++ l.token :: tokens
termination_by cs.length
decreasing_by
  · exact Nat.lt_succ_self _
  · exact lexeme?_rest_length ‹_›

-- All tokens of a source, in order.
def tokens (source : List Char) : Except Fault (List Token) := lexemes 0 [] 0 source

end Stencil.Markup
