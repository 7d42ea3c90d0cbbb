import Stencil.Proofs.Bytewise.Lexer
import Stencil.Proofs.Markup.TrimmedText

/-!
Trimming by indices into the token list and byte offsets into its texts, with tables of flags that
say which texts to cut. No index and no slice fails, and the tokens left are the same.
-/

namespace Stencil.Markup.Bytewise

-- How many bytes stand before the last line break.
def findLastBreak? (cs : List Char) : Option Nat :=
  match cs.reverse.dropWhile (· != '\n') with
  | [] => none
  | _ :: before => some (byteLength before.reverse)

section Lines

variable (tokens : List Token) (i : Nat)

-- Is there nothing but blanks between the last line break before token `i` and the token?
def startsLine (h : i < tokens.length) : Option Bool :=
  if i = 0 then some true
  else
    have hbefore : i - 1 < tokens.length := Nat.lt_of_le_of_lt (Nat.sub_le i 1) h
    match tokens[i - 1] with
    | .text s =>
      match findLastBreak? s.chars with
      | some n => (dropBytes? (n + 1) s.chars).map (·.all isLineBlank)
      | none => some (i - 1 = 0 && s.chars.all isLineBlank)
    | _ => some false

-- Is there nothing but blanks between token `i` and the next line break?
def endsLine (h : i < tokens.length) : Option Bool :=
  if hlast : i = tokens.length - 1 then some true
  else
    match tokens[i + 1] with
    | .text s =>
      match findBreak? s.chars with
      | some n => (takeBytes? n s.chars).map (·.all isLineBlank)
      | none => some (i + 1 = tokens.length - 1 && s.chars.all isLineBlank)
    | _ => some false

end Lines

-- Which texts are to lose the line that they begin with, and which the line that they end in.
structure Cuts where
  head : List Bool
  tail : List Bool

-- Raises flag `i` if there is to be one.
def raiseIf? (p : Prop) [Decidable p] (i : Nat) (flags : List Bool) : Option (List Bool) :=
  if p then
    if i < flags.length then some (flags.set i true) else none
  else some flags

-- Raises the flags of the tokens next to token `i`.
def Cuts.around (cuts : Cuts) (i last : Nat) : Option Cuts := do
  let tail ← raiseIf? (0 < i) (i - 1) cuts.tail
  let head ← raiseIf? (i < last) (i + 1) cuts.head
  return ⟨head, tail⟩

-- Judges the tokens from number `i` on.
def cutsFrom (tokens : List Token) (i : Nat) (cuts : Cuts) : Option Cuts := do
  if h : i < tokens.length then
    if tokens[i].isControl then
      let starts ← startsLine tokens i h
      let ends ← endsLine tokens i h
      if starts && ends then cutsFrom tokens (i + 1) (← cuts.around i (tokens.length - 1))
      else cutsFrom tokens (i + 1) cuts
    else cutsFrom tokens (i + 1) cuts
  else return cuts
termination_by tokens.length - i

def cutText (s : Slice) (head tail : Bool) : Option Slice := do
  let start := if head then ((findBreak? s.chars).map (· + 1)).getD (byteLength s.chars) else 0
  let stop := if tail then ((findLastBreak? s.chars).map (· + 1)).getD 0 else byteLength s.chars
  let chars ← sliceBytes? start (max stop start) s.chars
  return ⟨s.start + start, chars⟩

-- Cuts the texts of a token list, of which the first token has number `i`.
def cutAll (cuts : Cuts) (i : Nat) : List Token → Option (List Token)
  | [] => some []
  | .text s :: rest => do
    let s ← cutText s (← cuts.head[i]?) (← cuts.tail[i]?)
    return .text s :: (← cutAll cuts (i + 1) rest)
  | token :: rest => do return token :: (← cutAll cuts (i + 1) rest)

def trim (tokens : List Token) : Option (List Token) := do
  let none := List.replicate tokens.length false
  let cuts ← cutsFrom tokens 0 ⟨none, none⟩
  return (← cutAll cuts 0 tokens).filter (!isEmptyText ·)

theorem eq_break_of_dropWhile {cs rest : List Char} {c : Char}
    (h : cs.dropWhile (· != '\n') = c :: rest) : c = '\n' := by
  have hhead := List.head?_dropWhile_not (· != '\n') cs
  rw [h] at hhead
  simpa using hhead

theorem notMem_of_dropWhile {cs : List Char} (h : cs.dropWhile (· != '\n') = []) : '\n' ∉ cs :=
  fun hmem => by simpa using List.dropWhile_eq_nil_iff.1 h '\n' hmem

-- Where the first line break stands, and where the last one.
theorem findBreak?_cases (cs : List Char) :
    findBreak? cs = none ∧ '\n' ∉ cs ∨
      ∃ rest, findBreak? cs = some (byteLength (firstLine cs)) ∧
        cs.dropWhile (· != '\n') = '\n' :: rest ∧ cs = firstLine cs ++ '\n' :: rest := by
  have hsplit : firstLine cs ++ cs.dropWhile (· != '\n') = cs := List.takeWhile_append_dropWhile
  unfold findBreak?
  cases hdrop : cs.dropWhile (· != '\n') with
  | nil => exact .inl ⟨rfl, notMem_of_dropWhile hdrop⟩
  | cons c rest =>
    obtain rfl := eq_break_of_dropWhile hdrop
    rw [hdrop] at hsplit
    exact .inr ⟨rest, rfl, rfl, hsplit.symm⟩

theorem findLastBreak?_cases (cs : List Char) :
    findLastBreak? cs = none ∧ '\n' ∉ cs ∨
      ∃ before, findLastBreak? cs = some (byteLength before) ∧
        cs = before ++ '\n' :: lastLine cs := by
  have hsplit : cs.reverse.takeWhile (· != '\n') ++ cs.reverse.dropWhile (· != '\n') =
      cs.reverse := List.takeWhile_append_dropWhile
  unfold findLastBreak?
  cases hdrop : cs.reverse.dropWhile (· != '\n') with
  | nil => exact .inl ⟨rfl, fun hmem => notMem_of_dropWhile hdrop (List.mem_reverse.2 hmem)⟩
  | cons c before =>
    obtain rfl := eq_break_of_dropWhile hdrop
    refine .inr ⟨before.reverse, rfl, ?_⟩
    rw [hdrop] at hsplit
    have hcs := congrArg List.reverse hsplit
    rw [List.reverse_reverse, List.reverse_append, List.reverse_cons, List.append_assoc] at hcs
    exact hcs.symm

theorem dropBytes?_lastBreak (cs : List Char) :
    dropBytes? (((findLastBreak? cs).map (· + 1)).getD 0) cs = some (lastLine cs) := by
  rcases findLastBreak?_cases cs with ⟨hnone, hbreak⟩ | ⟨before, hsome, hcs⟩
  · rw [hnone, lastLine_of_notMem hbreak]
    cases cs <;> rfl
  · have hline := dropBytes?_byteLength before ('\n' :: lastLine cs)
    rw [← hcs] at hline
    rw [hsome]
    exact dropBytes?_cons hline

section Judging

variable {tokens : List Token} {i : Nat} (h : i < tokens.length)

theorem reverse_take_succ :
    (tokens.take (i + 1)).reverse = tokens[i] :: (tokens.take i).reverse := by
  rw [List.take_succ_eq_append_getElem h, List.reverse_append]
  rfl

theorem startsLine_eq :
    startsLine tokens i h = some (Markup.startsLine (tokens.take i).reverse) := by
  cases i with
  | zero => rfl
  | succ i =>
    have hlt := Nat.lt_of_succ_lt h
    have hfirst : (tokens.take i).reverse.isEmpty = decide (i = 0) := by
      have hne : tokens ≠ [] := List.ne_nil_of_length_pos (Nat.zero_lt_of_lt h)
      rw [Bool.eq_iff_iff, List.isEmpty_reverse, List.isEmpty_iff, List.take_eq_nil_iff]
      simp [hne]
    rw [reverse_take_succ hlt]
    unfold startsLine
    rw [if_neg (Nat.succ_ne_zero i)]
    simp only [Nat.add_sub_cancel]
    cases tokens[i] with
    | interpolation | tag => rfl
    | text s =>
      dsimp only
      rw [startsLine_text, hfirst]
      rcases findLastBreak?_cases s.chars with ⟨hnone, hbreak⟩ | ⟨before, hsome, hchars⟩
      · rw [hnone, lastLine_of_notMem hbreak]
        simp [hbreak, Bool.and_comm]
      · have hdrop := dropBytes?_lastBreak s.chars
        rw [hsome, Option.map_some, Option.getD_some] at hdrop
        have hmem : '\n' ∈ s.chars := by
          rw [hchars]
          simp
        simp only [hsome, hdrop, Option.map_some]
        simp [hmem]

theorem endsLine_eq :
    endsLine tokens i h = some (Markup.endsLine (tokens.drop (i + 1))) := by
  unfold endsLine
  by_cases hlast : i = tokens.length - 1
  · rw [dif_pos hlast, List.drop_eq_nil_of_le (by omega)]
    rfl
  · have hlt : i + 1 < tokens.length := by omega
    have hend : (tokens.drop (i + 1 + 1)).isEmpty = decide (i + 1 = tokens.length - 1) := by
      rw [Bool.eq_iff_iff, List.isEmpty_iff, List.drop_eq_nil_iff, decide_eq_true_eq]
      omega
    rw [dif_neg hlast, List.drop_eq_getElem_cons hlt]
    cases tokens[i + 1] with
    | interpolation | tag => rfl
    | text s =>
      dsimp only
      rw [endsLine_text, hend]
      rcases findBreak?_cases s.chars with ⟨hnone, hbreak⟩ | ⟨rest, hsome, -, hchars⟩
      · rw [hnone, firstLine, takeWhile_of_notMem hbreak]
        simp [hbreak, Bool.and_comm]
      · have htake : takeBytes? (byteLength (firstLine s.chars)) s.chars =
            some (firstLine s.chars) := by
          have hline := takeBytes?_byteLength (firstLine s.chars) ('\n' :: rest)
          rwa [← hchars] at hline
        have hmem : '\n' ∈ s.chars := by
          rw [hchars]
          simp
        simp only [hsome, htake, Option.map_some]
        simp [hmem]

end Judging

section Flags

variable (tokens : List Token)

-- Is there a control tag alone on its line at place `i`?
def aloneAt (i : Nat) : Bool := precedesAlone (tokens.take i).reverse (tokens.drop i)

-- The flags once the first `i` tokens have been judged.
def cutsUpTo (i : Nat) : Cuts where
  head := (List.range tokens.length).map fun j =>
    decide (0 < j ∧ j ≤ i) && aloneAt tokens (j - 1)
  tail := (List.range tokens.length).map fun j => decide (j + 1 < i) && aloneAt tokens (j + 1)

end Flags

section Marking

variable {tokens : List Token} {i : Nat}

theorem raiseIf?_map {n k : Nat} {p : Prop} [Decidable p] (f : Nat → Bool) (hk : p → k < n) :
    raiseIf? p k ((List.range n).map f) =
      some ((List.range n).map fun j => decide (p ∧ j = k) || f j) := by
  by_cases hp : p
  · have hlt : k < ((List.range n).map f).length := by simpa using hk hp
    rw [raiseIf?, if_pos hp, if_pos hlt]
    refine congrArg some (List.ext_getElem (by simp) fun j hj hj' => ?_)
    rw [List.getElem_set]
    by_cases hkj : k = j
    · simp [hp, hkj]
    · simp [hkj, Ne.symm hkj]
  · simp [raiseIf?, hp]

theorem aloneAt_eq (h : i < tokens.length) :
    aloneAt tokens i =
      standsAlone (tokens.take i).reverse tokens[i] (tokens.drop (i + 1)) := by
  rw [aloneAt, List.drop_eq_getElem_cons h]
  rfl

theorem cutsUpTo_of_not (h : aloneAt tokens i = false) :
    cutsUpTo tokens (i + 1) = cutsUpTo tokens i := by
  have hhead (j : Nat) : (decide (0 < j ∧ j ≤ i + 1) && aloneAt tokens (j - 1)) =
      (decide (0 < j ∧ j ≤ i) && aloneAt tokens (j - 1)) := by
    by_cases hj : j = i + 1
    · simp [hj, h]
    · rw [decide_eq_decide.2 (by omega : 0 < j ∧ j ≤ i + 1 ↔ 0 < j ∧ j ≤ i)]
  have htail (j : Nat) : (decide (j + 1 < i + 1) && aloneAt tokens (j + 1)) =
      (decide (j + 1 < i) && aloneAt tokens (j + 1)) := by
    by_cases hj : j + 1 = i
    · simp [hj, h]
    · rw [decide_eq_decide.2 (by omega : j + 1 < i + 1 ↔ j + 1 < i)]
  unfold cutsUpTo
  simp only [hhead, htail]

theorem around_cutsUpTo (hi : i < tokens.length) (h : aloneAt tokens i = true) :
    (cutsUpTo tokens i).around i (tokens.length - 1) = some (cutsUpTo tokens (i + 1)) := by
  have htail : raiseIf? (0 < i) (i - 1) (cutsUpTo tokens i).tail =
      some (cutsUpTo tokens (i + 1)).tail := by
    refine (raiseIf?_map _ fun _ => by omega).trans ?_
    refine congrArg some (List.map_congr_left fun j _ => ?_)
    by_cases hj : j + 1 = i
    · simp [← hj, hj ▸ h]
    · simp [show ¬ (0 < i ∧ j = i - 1) by omega, show j + 1 < i + 1 ↔ j + 1 < i by omega]
  have hhead : raiseIf? (i < tokens.length - 1) (i + 1) (cutsUpTo tokens i).head =
      some (cutsUpTo tokens (i + 1)).head := by
    refine (raiseIf?_map _ fun _ => by omega).trans ?_
    refine congrArg some (List.map_congr_left fun j hj => ?_)
    have hlt := List.mem_range.1 hj
    by_cases hnext : j = i + 1
    · simp [hnext, h, show i < tokens.length - 1 by omega]
    · simp [hnext, show j ≤ i + 1 ↔ j ≤ i by omega]
  unfold Cuts.around
  rw [htail, hhead]
  rfl

theorem cutsFrom_cutsUpTo (tokens : List Token) {i : Nat} (h : i ≤ tokens.length) :
    cutsFrom tokens i (cutsUpTo tokens i) = some (cutsUpTo tokens tokens.length) := by
  by_cases hlt : i < tokens.length
  · have ih := cutsFrom_cutsUpTo tokens (Nat.succ_le_of_lt hlt)
    have hsame (halone : aloneAt tokens i = false) :
        cutsFrom tokens (i + 1) (cutsUpTo tokens i) = some (cutsUpTo tokens tokens.length) := by
      rw [← cutsUpTo_of_not halone]
      exact ih
    have halone := aloneAt_eq hlt
    unfold standsAlone at halone
    rw [cutsFrom, dif_pos hlt, startsLine_eq hlt, endsLine_eq hlt]
    simp only [Option.bind_eq_bind, Option.bind_some]
    cases hcontrol : tokens[i].isControl with
    | false =>
      rw [hcontrol, Bool.false_and, Bool.false_and] at halone
      exact hsame halone
    | true =>
      rw [hcontrol, Bool.true_and] at halone
      rw [if_pos rfl, ← halone]
      cases hflag : aloneAt tokens i with
      | false => exact hsame hflag
      | true =>
        rw [if_pos rfl, around_cutsUpTo hlt hflag]
        exact ih
  · rw [cutsFrom, dif_neg hlt, show i = tokens.length by omega]
    rfl
termination_by tokens.length - i

end Marking

section Cutting

variable {cuts : Cuts} {tokens : List Token}

theorem byteLength_throughBreak (cs : List Char) :
    ((findBreak? cs).map (· + 1)).getD (byteLength cs) = byteLength (throughBreak cs) := by
  rcases findBreak?_cases cs with ⟨hnone, hbreak⟩ | ⟨rest, hsome, hdrop, -⟩
  · rw [hnone, throughBreak, firstLine, takeWhile_of_notMem hbreak, dropWhile_of_notMem hbreak,
      List.take_nil, List.append_nil]
    rfl
  · rw [hsome, throughBreak, hdrop, byteLength_append]
    rfl

theorem lastBreak_add (cs : List Char) :
    ((findLastBreak? cs).map (· + 1)).getD 0 + byteLength (lastLine cs) = byteLength cs := by
  rcases findLastBreak?_cases cs with ⟨hnone, hbreak⟩ | ⟨before, hsome, hcs⟩
  · rw [hnone, lastLine_of_notMem hbreak]
    exact Nat.zero_add _
  · have hlength := congrArg byteLength hcs
    have hone : '\n'.utf8Size = 1 := rfl
    rw [byteLength_append, byteLength_cons, hone] at hlength
    rw [hsome, Option.map_some, Option.getD_some]
    omega

-- Behind what is cut off in front, the last line break is sought in what is left.
theorem max_lastBreak (front : List Char) (s : Slice) :
    max (((findLastBreak? (front ++ s.chars)).map (· + 1)).getD 0) (byteLength front) =
      byteLength front + byteLength (dropIndent s).chars := by
  have hadd := lastBreak_add (front ++ s.chars)
  have hspec := congrArg byteLength (dropIndent_spec s).1
  rw [byteLength_append] at hadd hspec
  by_cases hbreak : '\n' ∈ s.chars
  · rw [lastLine_append_of_mem hbreak] at hadd
    omega
  · rw [lastLine_append_of_notMem hbreak, byteLength_append] at hadd
    rw [lastLine_of_notMem hbreak] at hspec
    omega

theorem cutText_eq (s : Slice) (head tail : Bool) :
    cutText s head tail =
      some (if tail then dropIndent (if head then dropLine s else s)
        else if head then dropLine s else s) := by
  obtain ⟨front, hchars, hstart, hlength⟩ : ∃ front,
      s.chars = front ++ (if head then dropLine s else s).chars ∧
      (if head then dropLine s else s).start = s.start + byteLength front ∧
      (if head then ((findBreak? s.chars).map (· + 1)).getD (byteLength s.chars) else 0) =
        byteLength front := by
    cases head with
    | true =>
      obtain ⟨hchars, hstart⟩ := dropLine_spec s
      exact ⟨_, hchars, hstart, byteLength_throughBreak s.chars⟩
    | false => exact ⟨[], rfl, rfl, rfl⟩
  generalize (if head then dropLine s else s) = rest at hchars hstart ⊢
  unfold cutText
  simp only [hlength]
  cases tail with
  | true =>
    have hslice : sliceBytes? (byteLength front)
        (byteLength front + byteLength (dropIndent rest).chars) s.chars =
          some (dropIndent rest).chars := by
      refine sliceBytes?_eq_some_iff.2 ⟨front, lastLine rest.chars, ?_, rfl, rfl⟩
      rw [hchars, List.append_assoc, ← (dropIndent_spec rest).1]
    have hmax := max_lastBreak front rest
    rw [← hchars] at hmax
    rw [if_pos rfl, if_pos rfl, hmax, hslice, ← hstart]
    rfl
  | false =>
    have hslice : sliceBytes? (byteLength front) (byteLength s.chars) s.chars =
        some rest.chars := by
      refine sliceBytes?_eq_some_iff.2 ⟨front, [], ?_, rfl, ?_⟩
      · rw [hchars, List.append_nil]
      · rw [hchars, byteLength_append]
    have hmax : max (byteLength s.chars) (byteLength front) = byteLength s.chars := by
      rw [hchars, byteLength_append]
      omega
    rw [if_neg Bool.false_ne_true, if_neg Bool.false_ne_true, hmax, hslice, ← hstart]
    rfl

theorem cutAll_eq (earlier later : List Token)
    (hhead : ∀ i < (earlier.reverse ++ later).length, cuts.head[i]? = some (followsAlone
      ((earlier.reverse ++ later).take i).reverse ((earlier.reverse ++ later).drop i)))
    (htail : ∀ i < (earlier.reverse ++ later).length, cuts.tail[i]? =
      some (aloneAt (earlier.reverse ++ later) (i + 1))) :
    cutAll cuts earlier.length later = some (trimmedAfter earlier later) := by
  induction later generalizing earlier with
  | nil => rfl
  | cons token later ih =>
    have hmoved : (token :: earlier).reverse ++ later = earlier.reverse ++ token :: later := by
      simp
    have hrest := ih (token :: earlier) (by rwa [hmoved]) (by rwa [hmoved])
    rw [List.length_cons] at hrest
    have hlt : earlier.length < (earlier.reverse ++ token :: later).length := by simp
    have hbefore : (earlier.reverse ++ token :: later).take earlier.length = earlier.reverse :=
      List.take_left' List.length_reverse
    have hbehind : (earlier.reverse ++ token :: later).drop earlier.length = token :: later :=
      List.drop_left' List.length_reverse
    have hheadFlag := hhead earlier.length hlt
    have htailFlag := htail earlier.length hlt
    rw [hbefore, hbehind, List.reverse_reverse] at hheadFlag
    have hnext : aloneAt (earlier.reverse ++ token :: later) (earlier.length + 1) =
        precedesAlone (token :: earlier) later := by
      rw [← hmoved, ← List.length_cons (a := token), aloneAt, List.take_left' List.length_reverse,
        List.drop_left' List.length_reverse, List.reverse_reverse]
    rw [hnext] at htailFlag
    cases token with
    | interpolation | tag =>
      simp only [cutAll, hrest]
      rfl
    | text s =>
      simp only [cutAll, hheadFlag, htailFlag, hrest, Option.bind_eq_bind, Option.bind_some,
        cutText_eq]
      rfl

-- The flags once all tokens have been judged.
theorem head_cutsUpTo {i : Nat} (h : i < tokens.length) :
    (cutsUpTo tokens tokens.length).head[i]? =
      some (followsAlone (tokens.take i).reverse (tokens.drop i)) := by
  simp only [cutsUpTo, List.getElem?_map, List.getElem?_range h, Option.map_some]
  cases i with
  | zero => rfl
  | succ i =>
    have hlt := Nat.lt_of_succ_lt h
    rw [Nat.add_sub_cancel, aloneAt_eq hlt, reverse_take_succ hlt]
    simp [Nat.le_of_lt h, followsAlone]

theorem tail_cutsUpTo {i : Nat} (h : i < tokens.length) :
    (cutsUpTo tokens tokens.length).tail[i]? = some (aloneAt tokens (i + 1)) := by
  simp only [cutsUpTo, List.getElem?_map, List.getElem?_range h, Option.map_some]
  by_cases hlast : i + 1 < tokens.length
  · rw [decide_eq_true hlast, Bool.true_and]
  · rw [aloneAt, List.drop_eq_nil_of_le (Nat.le_of_not_lt hlast)]
    simp [precedesAlone]

theorem cutsUpTo_zero (tokens : List Token) : cutsUpTo tokens 0 =
    ⟨List.replicate tokens.length false, List.replicate tokens.length false⟩ := by
  have hlowered (f : Nat → Bool) (hf : ∀ j, f j = false) :
      (List.range tokens.length).map f = List.replicate tokens.length false := by
    rw [List.eq_replicate_iff]
    simp [hf]
  have hhead (j : Nat) : (decide (0 < j ∧ j ≤ 0) && aloneAt tokens (j - 1)) = false := by
    rw [decide_eq_false (by omega : ¬ (0 < j ∧ j ≤ 0)), Bool.false_and]
  have htail (j : Nat) : (decide (j + 1 < 0) && aloneAt tokens (j + 1)) = false := rfl
  rw [cutsUpTo, hlowered _ hhead, hlowered _ htail]

-- No index and no slice fails, and trimming by them leaves the same tokens.
theorem trim_eq (tokens : List Token) : trim tokens = some (Markup.trim tokens) := by
  have hcuts := cutsFrom_cutsUpTo tokens (Nat.zero_le _)
  have hcut : cutAll (cutsUpTo tokens tokens.length) 0 tokens = some (trimmedAfter [] tokens) :=
    cutAll_eq [] tokens (fun _ => head_cutsUpTo) fun _ => tail_cutsUpTo
  rw [cutsUpTo_zero] at hcuts
  unfold trim
  simp only [hcuts, hcut, Option.bind_eq_bind, Option.bind_some, Markup.trim_eq]
  rfl

end Cutting

end Stencil.Markup.Bytewise
