import Stencil.Markup.Lexer
import Stencil.Proofs.Bytewise.Closers
import Stencil.Proofs.Markup.Spelling

/-!
Cutting a source by byte offsets. Here every slice of the source may fail, where an offset is out
of bounds or inside a character, and units are read at offsets that are known to be in bounds. None
of the slices does fail, and the tokens are the same.
-/

namespace Stencil.Markup.Bytewise

open Checked

def startsWith (word cs : List Char) : Bool := (dropWord? word cs).isSome

-- How many bytes stand before the first line break, and before the first occurrence of a word.
def findBreak? (cs : List Char) : Option Nat :=
  match cs.dropWhile (· != '\n') with
  | [] => none
  | _ :: _ => some (byteLength (cs.takeWhile (· != '\n')))

def findWord? (word cs : List Char) : Option Nat :=
  (splitAtWord? word cs).map fun (before, _) => byteLength before

section Readers

variable (source : List Char)

-- The slice up to the closer of an opener that ends at `start`, and the offset past the closer.
def enclosed (opener closer : Char) (unclosed : Defect) (head start : Nat) :
    Checked (Slice × Nat) := do
  let close ← ofExcept
    ((closerFrom (units source) opener closer unclosed 0 start).mapError (⟨·, head⟩))
  let inner ← sliceBytes? start close source
  return (⟨start, inner⟩, close + 1)

-- `length` counts the bytes up to the brace, with the brace.
def interpolated (raw : Bool) (pos length : Nat) : Checked (Token × Nat) := do
  let (inner, stop) ← enclosed source '\x7b' '\x7d' .unterminatedInterpolation pos (pos + length)
  return (.interpolation raw inner ⟨pos, stop⟩, stop)

def interpolation (pos : Nat) : Checked (Option (Token × Nat)) := do
  let rest ← dropBytes? pos source
  if startsWith "$\x7b".toList rest then some <$> interpolated source false pos 2
  else if startsWith "$unsafe\x7b".toList rest then some <$> interpolated source true pos 8
  else return none

-- Does a word follow the character at `pos`, without running on into a longer identifier?
def keywordAt (pos : Nat) (word : List Char) : Option Bool := do
  let rest ← dropBytes? (pos + 1) source
  return startsWith word rest && !(units rest)[byteLength word]?.any isIdentChar

-- `length` counts the bytes of the word and its parenthesis.
def parenTag (pos length : Nat) (tag : Slice → Tag) : Checked (Token × Nat) := do
  let (inner, stop) ← enclosed source '(' ')' .unterminatedTag pos (pos + 1 + length)
  return (.tag (tag inner) ⟨pos, stop⟩, stop)

def bareTag (tag : Tag) (pos length : Nat) : Token × Nat :=
  (.tag tag ⟨pos, pos + length⟩, pos + length)

def param (pos : Nat) : Checked (Token × Nat) := do
  let start := pos + 6
  let behind ← dropBytes? start source
  let stop := ((findBreak? behind).map (start + ·)).getD (units source).length
  let line ← sliceBytes? start stop source
  return (.tag (.param ⟨start, dropReturns line⟩) ⟨pos, stop⟩,
    if stop < (units source).length then stop + 1 else stop)

def inclusion (pos : Nat) (behind : List Char) : Checked (Token × Nat) := do
  let length := ((units behind).takeWhile fun c => isIdentChar c || c == '.').length
  let dotted ← takeBytes? length behind
  if isDotted true dotted then
    let rest ← dropBytes? length behind
    if startsWith ['('] rest then
      let target := String.ofList (dotted.map fun c => if c == '.' then '/' else c)
      parenTag source pos (9 + length + 1) (.inclusion target)
    else
      throw ⟨.unexpectedToken "'(' after template name" (nextCharText rest), pos + 10 + length⟩
  else throw ⟨.invalidTemplateName, pos + 10⟩

def rawBlock (pos : Nat) : Checked (Token × Nat) := do
  let start := pos + 4
  let behind ← dropBytes? start source
  match findWord? "@endraw".toList behind with
  | none => throw ⟨.unterminatedRaw, pos⟩
  | some length =>
    let body ← sliceBytes? start (start + length) source
    return (.text ⟨start, body⟩, start + length + 7)

def comment (pos : Nat) : Checked (Token × Nat) := do
  let start := pos + 4
  let behind ← dropBytes? start source
  match findWord? "--%>".toList behind with
  | none => throw ⟨.unterminatedComment, pos⟩
  | some length => return (.tag .comment ⟨pos, start + length + 4⟩, start + length + 4)

-- Does a declaration begin here? There has to be a blank behind its word.
def declares (rest : List Char) : Option Bool :=
  if startsWith "param".toList rest then
    (dropBytes? 5 rest).map fun behind => behind.head?.any fun c => c == ' ' || c == '\t'
  else some false

def tag (pos : Nat) : Checked (Option (Token × Nat)) := do
  let rest ← dropBytes? (pos + 1) source
  if startsWith "if(".toList rest then some <$> parenTag source pos 3 .condition
  else if startsWith "elseif(".toList rest then some <$> parenTag source pos 7 .elseCondition
  else if startsWith "for(".toList rest then some <$> parenTag source pos 4 .loop
  else if ← keywordAt source pos "else".toList then return some (bareTag .otherwise pos 5)
  else if ← keywordAt source pos "endif".toList then return some (bareTag .close pos 6)
  else if ← keywordAt source pos "endfor".toList then return some (bareTag .close pos 7)
  else if ← keywordAt source pos "end".toList then return some (bareTag .close pos 4)
  else if ← keywordAt source pos "endraw".toList then throw ⟨.unexpectedTag .endRaw, pos⟩
  else if ← keywordAt source pos "raw".toList then some <$> rawBlock source pos
  else
    if ← declares rest then some <$> param source pos
    else
      match dropWord? "template.".toList rest with
      | some behind => some <$> inclusion source pos behind
      | none => return none

-- The token that begins at unit `pos`, if one does, and the offset behind it.
def next (pos : Nat) (h : pos < (units source).length) : Checked (Option (Token × Nat)) :=
  if (units source)[pos] = '$' then interpolation source pos
  else if (units source)[pos] = '@' then tag source pos
  else if (units source)[pos] = '<' then do
    let rest ← dropBytes? pos source
    if startsWith "<%--".toList rest then some <$> comment source pos else return none
  else return none

-- The text between two offsets, as a token unless it is empty.
def textRun (start stop : Nat) : Checked (List Token) := do
  if start < stop then
    let text ← sliceBytes? start stop source
    return [.text ⟨start, text⟩]
  else return []

-- Cuts the source from unit `pos` on, where the text run in progress began at byte `start`. A token
-- that ends where it begins would be read again and again, and counts as a failure.
def scan (start pos : Nat) : Checked (List Token) := do
  if h : pos < (units source).length then
    match ← next source pos h with
    | none => scan start (pos + 1)
    | some (token, stop) =>
      let text ← textRun source start pos
      if _hstop : pos < stop then
        let tokens ← scan stop stop
        return text ++ token :: tokens
      else ExceptT.mk none
  else textRun source start (units source).length
termination_by (units source).length - pos

def tokens : Checked (List Token) := scan source 0 0

end Readers

-- What a reading gives of a token.
def found (l : Lexeme) : Token × Nat := (l.token, l.stop)

section Equal

variable {source cs : List Char} {pos : Nat}

theorem enclosed_eq {opener closer : Char} {unclosed : Defect} {head start : Nat}
    (hopener : opener.toNat < 0x80) (hcloser : closer.toNat < 0x80)
    (h : dropBytes? start source = some cs) :
    enclosed source opener closer unclosed head start =
      some ((enclosedFrom opener closer unclosed head start cs).map
        fun (inner, stop, _) => (inner, stop)) := by
  have hclose : closerFrom (units source) opener closer unclosed 0 start =
      (Markup.enclosed opener closer unclosed .code 0 cs).map
        fun (inner, _) => start + byteLength inner :=
    searchFrom_units h hopener hcloser (show Plain .code from trivial)
  unfold enclosed enclosedFrom
  rw [hclose]
  cases henclosed : Markup.enclosed opener closer unclosed .code 0 cs with
  | error defect => rfl
  | ok p =>
    obtain ⟨inner, rest⟩ := p
    rw [eq_append_of_enclosed henclosed] at h
    have hslice := sliceBytes?_of_drop h
    delta Except.mapError
    simp only [Except.map, bind_ofExcept, hslice, bind_lift, Slice.stop,
      utf8Size_of_ascii hcloser]
    rfl

theorem map_some_found (r : Except Fault Lexeme) :
    (some <$> (ExceptT.mk (some (r.map found)) : Checked (Token × Nat))) =
      ExceptT.mk (some ((r.map some).map (Option.map found))) := by
  cases r <;> rfl

variable {rest : List Char} {length : Nat}

theorem interpolated_eq {raw : Bool} (h : dropBytes? (pos + length) source = some rest) :
    interpolated source raw pos length =
      some ((Markup.interpolation raw pos (pos + length) rest).map found) := by
  unfold interpolated Markup.interpolation
  rw [enclosed_eq (by decide) (by decide) h]
  cases enclosedFrom '\x7b' '\x7d' .unterminatedInterpolation pos (pos + length) rest <;> rfl

theorem parenTag_eq {tag : Slice → Tag} (h : dropBytes? (pos + 1 + length) source = some rest) :
    parenTag source pos length tag =
      some ((parenthesised pos (pos + 1 + length) tag rest).map found) := by
  unfold parenTag parenthesised
  rw [enclosed_eq (by decide) (by decide) h]
  cases enclosedFrom '(' ')' .unterminatedTag pos (pos + 1 + length) rest <;> rfl

theorem startsWith_of_some {word : List Char} (h : dropWord? word cs = some rest) :
    startsWith word cs = true := by
  rw [startsWith, h]
  rfl

theorem startsWith_of_none {word : List Char} (h : dropWord? word cs = none) :
    ¬ startsWith word cs = true := by
  rw [startsWith, h]
  exact Bool.false_ne_true

theorem interpolation_eq (h : dropBytes? pos source = some ('$' :: cs)) :
    interpolation source pos = some ((interpolation? pos cs).map (Option.map found)) := by
  unfold interpolation interpolation?
  simp only [h, bind_lift]
  cases hplain : dropWord? "\x7b".toList cs with
  | some rest =>
    have hword : dropWord? "$\x7b".toList ('$' :: cs) = some rest := hplain
    have hinner : dropBytes? (pos + 2) source = some rest := dropBytes?_word h hword
    rw [if_pos (startsWith_of_some hword), interpolated_eq hinner]
    exact map_some_found _
  | none =>
    have hword : dropWord? "$\x7b".toList ('$' :: cs) = none := hplain
    rw [if_neg (startsWith_of_none hword)]
    cases hraw : dropWord? "unsafe\x7b".toList cs with
    | some rest =>
      have hword : dropWord? "$unsafe\x7b".toList ('$' :: cs) = some rest := hraw
      have hinner : dropBytes? (pos + 8) source = some rest := dropBytes?_word h hword
      rw [if_pos (startsWith_of_some hword), interpolated_eq hinner]
      exact map_some_found _
    | none =>
      have hword : dropWord? "$unsafe\x7b".toList ('$' :: cs) = none := hraw
      rw [if_neg (startsWith_of_none hword)]
      rfl

theorem keywordAt_eq {word : List Char} (h : dropBytes? (pos + 1) source = some cs) :
    keywordAt source pos word = some (dropKeyword? word cs).isSome := by
  unfold keywordAt dropKeyword?
  simp only [h, Option.bind_eq_bind, Option.bind_some]
  cases hword : dropWord? word cs with
  | none =>
    rw [Bool.eq_false_iff.2 (startsWith_of_none hword)]
    rfl
  | some rest =>
    have hbehind : dropBytes? (byteLength word) cs = some rest := by
      rw [dropWord?_eq_some_iff.1 hword, dropBytes?_byteLength]
    rw [startsWith_of_some hword, any_unit ascii_of_isIdentChar hbehind]
    cases hrun : rest.head?.any isIdentChar <;> simp [hrun]

theorem param_eq (h : dropBytes? (pos + 6) source = some cs) :
    param source pos = some (.ok (found (paramLine pos cs))) := by
  unfold param paramLine findBreak?
  simp only [h, bind_lift]
  have hsplit : cs.takeWhile (· != '\n') ++ cs.dropWhile (· != '\n') = cs :=
    List.takeWhile_append_dropWhile
  rw [← hsplit] at h
  generalize cs.takeWhile (· != '\n') = line at h ⊢
  generalize cs.dropWhile (· != '\n') = tail at h ⊢
  have hslice := sliceBytes?_of_drop h
  have hlength := length_units_of_drop h
  rw [byteLength_append] at hlength
  cases tail with
  | nil =>
    have hstop : (units source).length = pos + 6 + byteLength line := hlength
    simp only [Option.map_none, Option.getD_none, hstop, hslice, bind_lift, Nat.lt_irrefl, if_false]
    rfl
  | cons c rest =>
    have hpos := c.utf8Size_pos
    have hlt : pos + 6 + byteLength line < (units source).length := by
      rw [hlength, byteLength_cons]
      omega
    simp only [Option.map_some, Option.getD_some, hslice, bind_lift, if_pos hlt]
    rfl

theorem rawBlock_eq (h : dropBytes? (pos + 4) source = some cs) :
    rawBlock source pos = some ((Markup.rawBlock pos cs).map found) := by
  unfold rawBlock Markup.rawBlock findWord?
  simp only [h, bind_lift]
  cases hsplit : splitAtWord? "@endraw".toList cs with
  | none => rfl
  | some parts =>
    obtain ⟨body, rest⟩ := parts
    rw [eq_append_of_splitAtWord? hsplit, List.append_assoc] at h
    have hslice := sliceBytes?_of_drop h
    simp only [Option.map_some, hslice, bind_lift]
    rfl

theorem comment_eq (h : dropBytes? pos source = some ('<' :: cs))
    (hword : dropWord? "%--".toList cs = some rest) :
    (some <$> comment source pos : Checked _) =
      some ((comment? pos cs).map (Option.map found)) := by
  have hbody : dropBytes? (pos + 4) source = some rest :=
    dropBytes?_word h (show dropWord? "<%--".toList ('<' :: cs) = some rest from hword)
  unfold comment comment? findWord?
  simp only [hbody, bind_lift, hword]
  cases splitAtWord? "--%>".toList rest with
  | none => rfl
  | some parts =>
    obtain ⟨inner, behind⟩ := parts
    have hstop : pos + 4 + byteLength inner + 4 = pos + 8 + byteLength inner := by omega
    simp only [Option.map_some]
    rw [hstop]
    rfl

theorem inclusion_eq (h : dropBytes? (pos + 10) source = some cs) :
    inclusion source pos cs = some ((Markup.inclusion pos cs).map found) := by
  have hname (c : Char) (hc : isIdentChar c || c == '.') : c.toNat < 0x80 := by
    rcases Bool.or_eq_true_iff.1 hc with hc | hc
    · exact ascii_of_isIdentChar c hc
    · rw [beq_iff_eq.1 hc]
      decide
  -- so a name is as long in bytes as it is in units
  have hlength : ((units cs).takeWhile fun c => isIdentChar c || c == '.').length =
      byteLength (cs.takeWhile fun c => isIdentChar c || c == '.') := by
    rw [takeWhile_units hname, byteLength_of_ascii]
    exact fun c hc => hname c (List.all_eq_true.1 List.all_takeWhile c hc)
  have hsplit : cs.takeWhile (fun c => isIdentChar c || c == '.') ++
      cs.dropWhile (fun c => isIdentChar c || c == '.') = cs :=
    List.takeWhile_append_dropWhile
  unfold inclusion Markup.inclusion
  simp only [hlength]
  generalize cs.takeWhile (fun c => isIdentChar c || c == '.') = name at hsplit ⊢
  generalize cs.dropWhile (fun c => isIdentChar c || c == '.') = tail at hsplit ⊢
  subst hsplit
  simp only [takeBytes?_byteLength, dropBytes?_byteLength, bind_lift]
  by_cases hdotted : isDotted true name
  · simp only [if_pos hdotted]
    cases hparen : dropWord? ['('] tail with
    | some rest =>
      have hstart : pos + 1 + (9 + byteLength name + 1) = pos + 10 + byteLength name + 1 := by omega
      have hinner : dropBytes? (pos + 1 + (9 + byteLength name + 1)) source = some rest := by
        rw [hstart]
        exact dropBytes?_word (dropBytes?_append h) hparen
      rw [if_pos (startsWith_of_some hparen), parenTag_eq hinner, dropWord?_eq_some_iff.1 hparen,
        hstart]
      rfl
    | none =>
      rw [if_neg (startsWith_of_none hparen)]
      split
      · cases hparen
      · rfl
  · simp only [if_neg hdotted]
    rfl

theorem declares_eq (h : dropWord? "param".toList cs = some rest) :
    declares cs = some (rest.head?.any fun c => c == ' ' || c == '\t') := by
  have hbehind : dropBytes? 5 cs = some rest := by
    rw [dropWord?_eq_some_iff.1 h]
    exact dropBytes?_byteLength "param".toList rest
  rw [declares, if_pos (startsWith_of_some h), hbehind, Option.map_some]

theorem map_some_settled {r : Except Fault Lexeme} {x : Checked (Token × Nat)}
    (h : x = some (r.map found)) :
    some <$> x = ExceptT.mk (some ((r.map some).map (Option.map found))) := by
  rw [h]
  exact map_some_found r

-- Two readings that look for the same word agree if they do where it is found, and where it is not.
theorem eq_of_found {word : Option (List Char)} {yes no : Checked (Option (Token × Nat))}
    {onYes : List Char → Except Fault (Option Lexeme)} {onNo : Except Fault (Option Lexeme)}
    (hyes : ∀ rest, word = some rest → yes = some ((onYes rest).map (Option.map found)))
    (hno : no = some (onNo.map (Option.map found))) :
    (if word.isSome then yes else no) =
      some ((if let some rest := word then onYes rest else onNo).map (Option.map found)) := by
  cases word with
  | some rest => exact hyes rest rfl
  | none => exact hno

theorem tag_eq (h : dropBytes? pos source = some ('@' :: cs)) :
    tag source pos = some ((tag? pos cs).map (Option.map found)) := by
  have hbehind : dropBytes? (pos + 1) source = some cs := dropBytes?_cons h
  have hkeyword {word : List Char} : keywordAt source pos word = _ := keywordAt_eq hbehind
  unfold tag tag?
  simp only [startsWith, hbehind, bind_lift, hkeyword]
  refine eq_of_found (fun rest hword => map_some_settled (parenTag_eq ?_)) ?_
  · exact dropBytes?_word hbehind hword
  refine eq_of_found (fun rest hword => map_some_settled (parenTag_eq ?_)) ?_
  · exact dropBytes?_word hbehind hword
  refine eq_of_found (fun rest hword => map_some_settled (parenTag_eq ?_)) ?_
  · exact dropBytes?_word hbehind hword
  refine eq_of_found (fun _ _ => rfl) ?_
  refine eq_of_found (fun _ _ => rfl) ?_
  refine eq_of_found (fun _ _ => rfl) ?_
  refine eq_of_found (fun _ _ => rfl) ?_
  refine eq_of_found (fun _ _ => rfl) ?_
  refine eq_of_found (fun rest hword => map_some_settled (rawBlock_eq ?_)) ?_
  · have hraw : '@' :: cs = "@raw".toList ++ rest :=
      congrArg ('@' :: ·) (eq_append_of_dropKeyword? hword).1
    rw [hraw] at h
    exact dropBytes?_append h
  cases hparam : dropWord? "param".toList cs with
  | some rest =>
    have hline : dropBytes? (pos + 6) source = some rest :=
      dropBytes?_word h (show dropWord? "@param".toList ('@' :: cs) = some rest from hparam)
    have hother : dropWord? "template.".toList cs = none := by
      rw [dropWord?_eq_some_iff.1 hparam]
      rfl
    rw [declares_eq hparam, hother, param_eq hline]
    simp only [bind_lift]
    split <;> rfl
  | none =>
    rw [declares, if_neg (startsWith_of_none hparam)]
    simp only [bind_lift, Bool.false_eq_true, if_false]
    cases hname : dropWord? "template.".toList cs with
    | none => rfl
    | some rest =>
      have hinclusion : dropBytes? (pos + 10) source = some rest :=
        dropBytes?_word h (show dropWord? "@template.".toList ('@' :: cs) = some rest from hname)
      exact map_some_settled (inclusion_eq hinclusion)

-- Pieces begin with one of three characters.
theorem lexeme?_of_ne {c : Char} (hdollar : c ≠ '$') (hat : c ≠ '@') (hless : c ≠ '<') :
    lexeme? pos (c :: cs) = .ok none := by
  unfold lexeme?
  split
  · next heq => exact absurd (List.cons.inj heq).1 hdollar
  · next heq => exact absurd (List.cons.inj heq).1 hat
  · next heq => exact absurd (List.cons.inj heq).1 hless
  · rfl

theorem next_of_ne {hpos : pos < (units source).length} (hdollar : (units source)[pos] ≠ '$')
    (hat : (units source)[pos] ≠ '@') (hless : (units source)[pos] ≠ '<') :
    next source pos hpos = some (.ok none) := by
  rw [next, if_neg hdollar, if_neg hat, if_neg hless]
  rfl

theorem next_of_ascii {c : Char} {hpos : pos < (units source).length}
    (h : dropBytes? pos source = some (c :: cs)) (hc : c.toNat < 0x80) :
    next source pos hpos = some ((lexeme? pos (c :: cs)).map (Option.map found)) := by
  obtain ⟨_, hunit⟩ := List.getElem?_eq_some_iff.1 (unit_of_ascii h hc)
  by_cases hdollar : c = '$'
  · subst hdollar
    rw [next, if_pos hunit]
    exact interpolation_eq h
  by_cases hat : c = '@'
  · subst hat
    rw [next, if_neg (hunit ▸ hdollar), if_pos hunit]
    exact tag_eq h
  by_cases hless : c = '<'
  · subst hless
    rw [next, if_neg (hunit ▸ hdollar), if_neg (hunit ▸ hat), if_pos hunit]
    simp only [h, bind_lift]
    cases hword : dropWord? "%--".toList cs with
    | some rest =>
      have hcomment : dropWord? "<%--".toList ('<' :: cs) = some rest := hword
      rw [if_pos (startsWith_of_some hcomment)]
      exact comment_eq h hword
    | none =>
      have hcomment : dropWord? "<%--".toList ('<' :: cs) = none := hword
      rw [if_neg (startsWith_of_none hcomment), lexeme?, comment?, hword]
      rfl
  · rw [next_of_ne (hunit ▸ hdollar) (hunit ▸ hat) (hunit ▸ hless),
      lexeme?_of_ne hdollar hat hless]
    rfl

theorem textRun_eq {start : Nat} {run : List Char}
    (h : dropBytes? start source = some (run.reverse ++ cs)) :
    textRun source start (start + byteLength run.reverse) =
      some (.ok (Markup.textRun start run)) := by
  unfold textRun Markup.textRun
  cases run with
  | nil =>
    exact if_neg (Nat.lt_irrefl start)
  | cons c run =>
    have hpos := c.utf8Size_pos
    have hlt : start < start + byteLength (c :: run).reverse := by
      rw [List.reverse_cons, byteLength_append, byteLength_cons]
      omega
    rw [if_pos hlt, sliceBytes?_of_drop h]
    rfl

section Scan

variable {start : Nat} (h : pos < (units source).length)

-- One step of the scan.
theorem scan_of_error {fault : Fault} (hnext : next source pos h = some (.error fault)) :
    scan source start pos = some (.error fault) := by
  rw [scan, dif_pos h, hnext]
  rfl

theorem scan_of_none (hnext : next source pos h = some (.ok none)) :
    scan source start pos = scan source start (pos + 1) := by
  rw [scan, dif_pos h, bind_of_ok hnext]

theorem scan_of_some {token : Token} {stop : Nat} {text : List Token}
    (hnext : next source pos h = some (.ok (some (token, stop))))
    (htext : textRun source start pos = some (.ok text)) (hstop : pos < stop) :
    scan source start pos = (text ++ token :: ·) <$> scan source stop stop := by
  rw [scan, dif_pos h, bind_of_ok hnext]
  dsimp only
  rw [bind_of_ok htext, dif_pos hstop]
  rfl

end Scan

-- The scan passes over the units of a character that begins no piece one by one.
theorem scan_of_plain {start : Nat} {c : Char} (h : dropBytes? pos source = some (c :: cs))
    (hplain : lexeme? pos (c :: cs) = .ok none) :
    scan source start pos = scan source start (pos + c.utf8Size) := by
  by_cases hc : c.toNat < 0x80
  · rw [utf8Size_of_ascii hc]
    refine scan_of_none (lt_length_units h) ?_
    rw [next_of_ascii h hc, hplain]
    rfl
  · refine eq_of_passing (fun j u hu huwide => ?_) h (Nat.le_of_not_lt hc) (Nat.zero_le _)
    obtain ⟨hj, hunit⟩ := List.getElem?_eq_some_iff.1 hu
    refine scan_of_none hj (next_of_ne ?_ ?_ ?_)
    all_goals
      rw [hunit]
      exact ne_of_wide huwide (by decide)

theorem ascii_of_lexeme? {c : Char} (h : lexeme? pos (c :: cs) ≠ .ok none) : c.toNat < 0x80 := by
  refine Nat.lt_of_not_le fun hc => h (lexeme?_of_ne ?_ ?_ ?_)
  all_goals exact ne_of_wide hc (by decide)

theorem scan_eq {start : Nat} {run : List Char} (hstart : dropBytes? start source =
    some (run.reverse ++ cs)) (hpos : pos = start + byteLength run.reverse) :
    scan source start pos = some (lexemes start run pos cs) := by
  have hhere : dropBytes? pos source = some cs := hpos ▸ dropBytes?_append hstart
  fun_induction lexemes start run pos cs with
  | case1 start run pos =>
    have hend : (units source).length = start + byteLength run.reverse := by
      rw [← hpos]
      exact length_units_of_drop hhere
    rw [scan, dif_neg (by omega), hend, textRun_eq hstart]
  | case2 start run pos c rest fault hread =>
    have hc := ascii_of_lexeme? (by rw [hread]; simp)
    refine scan_of_error (lt_length_units hhere) ?_
    rw [next_of_ascii hhere hc, hread]
    rfl
  | case3 start run pos c rest hread ih =>
    rw [scan_of_plain hhere hread]
    refine ih ?_ ?_ (dropBytes?_cons hhere)
    · rwa [List.reverse_cons, List.append_assoc]
    · simp [hpos, Nat.add_assoc]
  | case4 start run pos c rest l hread ih =>
    have hc := ascii_of_lexeme? (by rw [hread]; simp)
    obtain ⟨m, hcs, hstop, -⟩ := spelled_lexeme? hread
    have hbehind : dropBytes? l.stop source = some l.rest := by
      rw [hcs] at hhere
      rw [hstop]
      exact dropBytes?_append hhere
    have hlt : pos < l.stop := by
      have hm := byteLength_pos_of_lt hcs (lexeme?_rest_length hread)
      omega
    have hnext : next source pos (lt_length_units hhere) = some (.ok (some (l.token, l.stop))) := by
      rw [next_of_ascii hhere hc, hread]
      rfl
    have htext : textRun source start pos = some (.ok (Markup.textRun start run)) := by
      rw [hpos]
      exact textRun_eq hstart
    rw [scan_of_some (lt_length_units hhere) hnext htext hlt, ih hbehind rfl hbehind]
    cases lexemes l.stop [] l.stop l.rest <;> rfl

-- No slice of the source fails, and cutting it by byte offsets gives the same tokens.
theorem tokens_eq (source : List Char) : tokens source = some (Markup.tokens source) := by
  have hstart : dropBytes? 0 source = some ([].reverse ++ source) := by
    cases source <;> rfl
  exact scan_eq hstart rfl

end Equal

end Stencil.Markup.Bytewise
