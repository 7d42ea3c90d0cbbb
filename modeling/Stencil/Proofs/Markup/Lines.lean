import Mathlib.Data.List.TakeWhile
import Stencil.Markup.Trim
import Stencil.Proofs.Markup.Layout
import Stencil.Source.Span

/-!
Source lines, and how far the tokens beside a tag tell them. They do not where a declaration took
the line break before the tag's line, nor where the text beside the tag is a raw block.
-/

namespace Stencil.Markup

-- The line that a text ends in, the line that it begins with, and that line with its line break.
def lastLine (cs : List Char) : List Char := (cs.reverse.takeWhile (· != '\n')).reverse

def firstLine (cs : List Char) : List Char := cs.takeWhile (· != '\n')

def throughBreak (cs : List Char) : List Char :=
  firstLine cs ++ (cs.dropWhile (· != '\n')).take 1

theorem takeWhile_of_notMem {cs : List Char} (h : '\n' ∉ cs) : cs.takeWhile (· != '\n') = cs := by
  rw [List.takeWhile_eq_self_iff]
  intro c hc
  have hne : c ≠ '\n' := fun he => h (he ▸ hc)
  simpa using hne

theorem dropWhile_of_notMem {cs : List Char} (h : '\n' ∉ cs) : cs.dropWhile (· != '\n') = [] := by
  have hsplit := List.takeWhile_append_dropWhile (p := (· != '\n')) (l := cs)
  rw [takeWhile_of_notMem h] at hsplit
  simpa using hsplit

theorem takeWhile_append_of_mem {cs : List Char} (h : '\n' ∈ cs) (ds : List Char) :
    (cs ++ ds).takeWhile (· != '\n') = cs.takeWhile (· != '\n') := by
  rw [List.takeWhile_append, if_neg]
  intro hlength
  have hall := List.takeWhile_eq_self_iff.1
    ((List.takeWhile_prefix (· != '\n')).eq_of_length hlength)
  simpa using hall '\n' h

theorem dropWhile_append_of_mem {cs : List Char} (h : '\n' ∈ cs) (ds : List Char) :
    (cs ++ ds).dropWhile (· != '\n') = cs.dropWhile (· != '\n') ++ ds := by
  have hsplit := List.takeWhile_append_dropWhile (p := (· != '\n')) (l := cs)
  have happ := List.takeWhile_append_dropWhile (p := (· != '\n')) (l := cs ++ ds)
  rw [takeWhile_append_of_mem h] at happ
  have hboth : cs.takeWhile (· != '\n') ++ (cs ++ ds).dropWhile (· != '\n') =
      cs.takeWhile (· != '\n') ++ (cs.dropWhile (· != '\n') ++ ds) := by
    rw [happ, ← List.append_assoc, hsplit]
  exact List.append_cancel_left hboth

theorem takeWhile_append_of_notMem {cs : List Char} (h : '\n' ∉ cs) (ds : List Char) :
    (cs ++ ds).takeWhile (· != '\n') = cs ++ ds.takeWhile (· != '\n') := by
  rw [List.takeWhile_append, takeWhile_of_notMem h, if_pos rfl]

theorem firstLine_append_of_mem {cs : List Char} (h : '\n' ∈ cs) (ds : List Char) :
    firstLine (cs ++ ds) = firstLine cs := takeWhile_append_of_mem h ds

theorem firstLine_append_of_notMem {cs : List Char} (h : '\n' ∉ cs) (ds : List Char) :
    firstLine (cs ++ ds) = cs ++ firstLine ds := takeWhile_append_of_notMem h ds

theorem throughBreak_append_of_mem {cs : List Char} (h : '\n' ∈ cs) (ds : List Char) :
    throughBreak (cs ++ ds) = throughBreak cs := by
  have hne : cs.dropWhile (· != '\n') ≠ [] := by
    intro hnil
    have hall := List.dropWhile_eq_nil_iff.1 hnil
    simpa using hall '\n' h
  unfold throughBreak
  rw [firstLine_append_of_mem h, dropWhile_append_of_mem h, List.take_append_of_le_length]
  exact List.length_pos_iff.2 hne

theorem throughBreak_append_of_notMem {cs : List Char} (h : '\n' ∉ cs) (ds : List Char) :
    throughBreak (cs ++ ds) = cs ++ throughBreak ds := by
  have hdrop : (cs ++ ds).dropWhile (· != '\n') = ds.dropWhile (· != '\n') := by
    rw [List.dropWhile_append, dropWhile_of_notMem h]
    rfl
  unfold throughBreak
  rw [firstLine_append_of_notMem h, hdrop, List.append_assoc]

theorem lastLine_append_of_mem {ds : List Char} (h : '\n' ∈ ds) (cs : List Char) :
    lastLine (cs ++ ds) = lastLine ds := by
  unfold lastLine
  rw [List.reverse_append, takeWhile_append_of_mem (List.mem_reverse.2 h)]

theorem lastLine_append_of_notMem {ds : List Char} (h : '\n' ∉ ds) (cs : List Char) :
    lastLine (cs ++ ds) = lastLine cs ++ ds := by
  unfold lastLine
  rw [List.reverse_append, takeWhile_append_of_notMem (fun hm => h (List.mem_reverse.1 hm)),
    List.reverse_append, List.reverse_reverse]

theorem lastLine_of_notMem {cs : List Char} (h : '\n' ∉ cs) : lastLine cs = cs := by
  rw [← List.nil_append cs, lastLine_append_of_notMem h]
  rfl

theorem notMem_lastLine (cs : List Char) : '\n' ∉ lastLine cs := by
  intro hmem
  have hall := List.all_takeWhile (p := (· != '\n')) (l := cs.reverse)
  simpa using List.all_eq_true.1 hall '\n' (List.mem_reverse.1 hmem)

-- A mark on a line shows that the line is not blank.
theorem not_blank_of_mark {cs : List Char} {c : Char} (hc : c ∈ cs) (hmark : isMark c) :
    cs.all isLineBlank = false := by
  rw [List.all_eq_false]
  refine ⟨c, hc, ?_⟩
  simp only [isMark, Bool.and_eq_true, Bool.not_eq_true'] at hmark
  simp [hmark.2]

theorem ne_break_of_mark {c : Char} (hmark : isMark c) : c ≠ '\n' := by
  intro he
  rw [he] at hmark
  revert hmark
  decide

theorem firstLine_of_mark {c : Char} (hmark : isMark c) (cs : List Char) :
    (firstLine (c :: cs)).all isLineBlank = false := by
  refine not_blank_of_mark (c := c) ?_ hmark
  have hne := ne_break_of_mark hmark
  simp [firstLine, hne]

theorem lastLine_of_mark {c : Char} (hmark : isMark c) (cs : List Char) :
    (lastLine (cs ++ [c])).all isLineBlank = false := by
  refine not_blank_of_mark (c := c) ?_ hmark
  have hne := ne_break_of_mark hmark
  rw [lastLine_append_of_notMem (by simpa using hne.symm)]
  simp

-- A piece begins with a mark, and ends with one or with the line break of a declaration.
theorem Occupies.first {pos : Nat} {m : List Char} {token : Token} (h : Occupies pos m token) :
    ∃ c cs, m = c :: cs ∧ isMark c := by
  have marked {m : List Char} (hm : Marked m) : ∃ c cs, m = c :: cs ∧ isMark c := by
    cases m with
    | nil => exact absurd hm.first (by simp)
    | cons c cs => exact ⟨c, cs, rfl, by simpa using hm.first⟩
  cases h with
  | raw => exact ⟨'@', _, rfl, by decide⟩
  | param => exact ⟨'@', _, rfl, by decide⟩
  | tag _ hm => exact marked hm
  | interpolation _ _ hm => exact marked hm

theorem LastParam.first {pos : Nat} {m : List Char} {token : Token} (h : LastParam pos m token) :
    ∃ c cs, m = c :: cs ∧ isMark c := by
  cases h
  exact ⟨'@', _, rfl, by decide⟩

theorem Marked.exists_last {m : List Char} (h : Marked m) :
    ∃ cs c, m = cs ++ [c] ∧ isMark c := by
  rcases List.eq_nil_or_concat m with rfl | ⟨cs, c, rfl⟩
  · exact absurd h.last (by simp)
  · exact ⟨cs, c, List.concat_eq_append, by simpa using h.last⟩

-- The line just before a tag that begins at byte `n`, and what follows a tag that ends there.
def lineBefore (source : List Char) (n : Nat) : List Char := lastLine (charsBefore n source)

def restAfter (source : List Char) (n : Nat) : List Char :=
  source.drop (charsBefore n source).length

theorem charsBefore_append (before rest : List Char) :
    charsBefore (byteLength before) (before ++ rest) = before := by
  induction before with
  | nil =>
    cases rest with
    | nil => rfl
    | cons c rest =>
      have hpos := c.utf8Size_pos
      simp only [List.nil_append, byteLength_nil, charsBefore]
      rw [if_neg (by omega)]
  | cons c before ih =>
    simp only [List.cons_append, byteLength_cons, charsBefore]
    rw [if_pos (Nat.le_add_right _ _), Nat.add_sub_cancel_left, ih]

theorem TagAt.lineBefore_eq {source before inside after : List Char} {earlier later : List Token}
    {span : Span} (h : TagAt source before inside after earlier span later) :
    lineBefore source span.start = lastLine before := by
  rw [lineBefore, h.start_eq, h.source_eq, List.append_assoc, charsBefore_append]

theorem TagAt.restAfter_eq {source before inside after : List Char} {earlier later : List Token}
    {span : Span} (h : TagAt source before inside after earlier span later) :
    restAfter source span.stop = after := by
  rw [restAfter, h.stop_eq, h.source_eq, ← byteLength_append, charsBefore_append,
    List.drop_left]

theorem byteLength_lastLine_le (cs : List Char) : byteLength (lastLine cs) ≤ byteLength cs := by
  have hsplit := List.takeWhile_append_dropWhile (p := (· != '\n')) (l := cs.reverse)
  have hcs : (cs.reverse.dropWhile (· != '\n')).reverse ++ lastLine cs = cs := by
    rw [lastLine, ← List.reverse_append, hsplit, List.reverse_reverse]
  have hlength := congrArg byteLength hcs
  rw [byteLength_append] at hlength
  omega

theorem byteLength_lastLine_lt {cs : List Char} (h : '\n' ∈ cs) :
    byteLength (lastLine cs) < byteLength cs := by
  obtain ⟨front, back, rfl⟩ := List.append_of_mem h
  have hline : lastLine (front ++ '\n' :: back) = lastLine back := by
    by_cases hback : '\n' ∈ back
    · rw [List.append_cons, lastLine_append_of_mem hback]
    · rw [List.append_cons, lastLine_append_of_notMem hback, lastLine_of_notMem hback]
      have hnone : lastLine (front ++ ['\n']) = [] := by
        simp [lastLine]
      rw [hnone, List.nil_append]
  have hle := byteLength_lastLine_le back
  have hbreak : '\n'.utf8Size = 1 := by decide
  rw [hline, byteLength_append, byteLength_cons, hbreak]
  omega

-- The text before a tag in which the tag's line begins, and the tokens before that text.
inductive Opens (before : List Char) : List Token → Prop where
  | nothing (hbefore : before = []) : Opens before []
  | text {start : Nat} {run : List Char} {rest : List Token}
      (hline : lastLine before = lastLine run)
      (hlength : byteLength before = start + byteLength run)
      (hrest : ∀ token ∈ rest, token.reach + byteLength (lastLine run) < start + byteLength run) :
      Opens before (.text ⟨start, run⟩ :: rest)

-- The text before a tag in a line that begins behind a declaration.
structure BehindParam (before : List Char) (earlier : List Token) : Prop where
  intro ::
  exists_run : ∃ start run declaration span rest,
    earlier = plain start run ++ .tag (.param declaration) span :: rest ∧ span.stop + 1 = start ∧
      byteLength before = start + byteLength run ∧ lastLine before = run

-- What stands before a tag: a raw block, the rest of a declaration's line, or text whose last line
-- is judged rightly.
inductive LeftOf (before : List Char) (earlier : List Token) : Prop where
  | raw (rest : List Char) (h : before = rest ++ "@endraw".toList)
  | behindParam (h : BehindParam before earlier)
  | judged (h : startsLine earlier = (lastLine before).all isLineBlank)
      (hopens : startsLine earlier → Opens before earlier)

theorem startsLine_text (s : Slice) (earlier : List Token) :
    startsLine (.text s :: earlier) =
      ((lastLine s.chars).all isLineBlank && (s.chars.contains '\n' || earlier.isEmpty)) := by
  rw [lastLine, List.all_reverse]
  rfl

-- A tag that shares its line with what stands before it.
theorem leftOf_of_shared {before : List Char} {earlier : List Token}
    (hstarts : startsLine earlier = false) (hline : (lastLine before).all isLineBlank = false) :
    LeftOf before earlier :=
  .judged (hstarts.trans hline.symm) fun h => absurd (hstarts.symm.trans h) Bool.false_ne_true

theorem leftOf_run (run : List Char) : LeftOf run (plain 0 run) := by
  by_cases hrun : run = []
  · rw [hrun]
    exact .judged rfl fun _ => .nothing rfl
  · rw [plain_of_ne hrun]
    refine .judged ?_ fun _ => .text rfl (by simp) (by simp)
    rw [startsLine_text]
    simp

-- Text with a line break in it, behind a piece.
theorem leftOf_break {before run : List Char} {rest : List Token} {start : Nat}
    (hrun : '\n' ∈ run) (hstart : start = byteLength before)
    (hreach : ∀ token ∈ rest, token.reach ≤ start) :
    LeftOf (before ++ run) (plain start run ++ rest) := by
  have hline := lastLine_append_of_mem hrun before
  rw [plain_of_ne (List.ne_nil_of_mem hrun), List.singleton_append]
  refine .judged ?_ fun _ => .text hline (by rw [byteLength_append, hstart]) ?_
  · rw [startsLine_text, hline]
    simp [hrun]
  · intro token hmem
    have := hreach token hmem
    have := byteLength_lastLine_lt hrun
    omega

-- Text behind a piece that ends with a mark.
theorem leftOf_text {before run : List Char} {rest : List Token} {start : Nat} {c : Char}
    (hrun : run ≠ []) (hmark : isMark c) (hstart : start = byteLength (before ++ [c]))
    (hreach : ∀ token ∈ rest, token.reach ≤ start) (hrest : rest ≠ []) :
    LeftOf (before ++ [c] ++ run) (plain start run ++ rest) := by
  by_cases hbreak : '\n' ∈ run
  · exact leftOf_break hbreak hstart hreach
  · have hstarts : startsLine (plain start run ++ rest) = false := by
      rw [plain_of_ne hrun, List.singleton_append, startsLine_text]
      simp [hbreak, hrest]
    refine leftOf_of_shared hstarts ?_
    rw [lastLine_append_of_notMem hbreak, List.all_append, lastLine_of_mark hmark,
      Bool.false_and]

-- A tag that is no declaration, or an interpolation, and what stands behind it.
theorem leftOf_marked {before m run : List Char} {token : Token} {earlier : List Token}
    (hm : Marked m) (htoken : ∀ s, token ≠ .text s)
    (hreach : ∀ t ∈ token :: earlier, t.reach ≤ byteLength before + byteLength m) :
    LeftOf (before ++ m ++ run)
      (plain (byteLength before + byteLength m) run ++ token :: earlier) := by
  obtain ⟨front, c, rfl, hmark⟩ := hm.exists_last
  rw [← byteLength_append] at hreach ⊢
  rw [← List.append_assoc] at hreach ⊢
  by_cases hrun : run = []
  · have hstarts : startsLine (token :: earlier) = false := by
      cases token with
      | text s => exact absurd rfl (htoken s)
      | _ => rfl
    rw [hrun, plain_nil, List.nil_append, List.append_nil]
    exact leftOf_of_shared hstarts (lastLine_of_mark hmark _)
  · exact leftOf_text hrun hmark rfl hreach (by simp)

theorem CutTo.leftOf {before : List Char} {earlier : List Token} (h : CutTo before earlier) :
    LeftOf before earlier := by
  cases h with
  | run => exact leftOf_run before
  | @piece before m token earlier hbefore hm run =>
    have hreach : ∀ t ∈ token :: earlier, t.reach ≤ byteLength before + byteLength m := by
      intro t ht
      rcases List.mem_cons.1 ht with rfl | ht
      · exact hm.reach
      · have := hbefore.reach t ht
        omega
    cases hm with
    | tag htag hm => exact leftOf_marked hm (by simp) hreach
    | interpolation _ _ hm => exact leftOf_marked hm (by simp) hreach
    | @param declaration line hline =>
      by_cases hrun : '\n' ∈ run
      · exact leftOf_break hrun (byteLength_append _ _).symm hreach
      · refine .behindParam ⟨_, run, declaration, _, earlier, rfl, ?_, ?_, ?_⟩
        · have hparam : byteLength "@param".toList = 6 := by decide
          have hbreak : byteLength ['\n'] = 1 := by decide
          simp only [byteLength_append, hparam, hbreak]
          omega
        · simp only [byteLength_append]
        · rw [lastLine_append_of_notMem hrun, lastLine_append_of_mem (by simp)]
          have hnone : lastLine ("@param".toList ++ line ++ ['\n']) = [] := by
            simp [lastLine]
          rw [hnone, List.nil_append]
    | @raw body hword =>
      by_cases hrun : run = []
      · exact .raw (before ++ ("@raw".toList ++ body)) (by simp [hrun])
      · have hm : "@raw".toList ++ body ++ "@endraw".toList =
            "@raw".toList ++ body ++ "@endra".toList ++ ['w'] := by simp
        rw [← byteLength_append] at hreach ⊢
        rw [hm, ← List.append_assoc] at hreach ⊢
        exact leftOf_text hrun (by decide) rfl hreach (by simp)

-- The text behind a tag in which the tag's line ends, and the tokens behind that text.
inductive Closes (stop : Nat) (after : List Char) : List Token → Prop where
  | nothing (hafter : after = []) : Closes stop after []
  | text {run : List Char} {rest : List Token} (hrun : run ≠ [])
      (hline : throughBreak after = throughBreak run)
      (hrest : ∀ token ∈ rest, stop + byteLength run ≤ token.start) :
      Closes stop after (.text ⟨stop, run⟩ :: rest)

-- What stands behind a tag: a raw block, or text whose first line is judged rightly.
inductive RightOf (stop : Nat) (after : List Char) (later : List Token) : Prop where
  | raw (h : (dropKeyword? "@raw".toList after).isSome)
  | judged (h : endsLine later = (firstLine after).all isLineBlank)
      (hcloses : endsLine later → Closes stop after later)

theorem endsLine_text (s : Slice) (later : List Token) :
    endsLine (.text s :: later) =
      ((firstLine s.chars).all isLineBlank && (s.chars.contains '\n' || later.isEmpty)) := rfl

-- A tag that shares its line with what stands behind it.
theorem rightOf_of_shared {stop : Nat} {after : List Char} {later : List Token}
    (hends : endsLine later = false) (hline : (firstLine after).all isLineBlank = false) :
    RightOf stop after later :=
  .judged (hends.trans hline.symm) fun h => absurd (hends.symm.trans h) Bool.false_ne_true

-- Text before a piece.
theorem rightOf_text {stop : Nat} {run m : List Char} {later : List Token} {c : Char}
    (hrun : run ≠ []) (hmark : isMark c) (hlater : later ≠ [])
    (hstart : ∀ token ∈ later, stop + byteLength run ≤ token.start) :
    RightOf stop (run ++ c :: m) (plain stop run ++ later) := by
  rw [plain_of_ne hrun, List.singleton_append]
  by_cases hbreak : '\n' ∈ run
  · refine .judged ?_ fun _ => .text hrun (throughBreak_append_of_mem hbreak _) hstart
    rw [endsLine_text, firstLine_append_of_mem hbreak]
    simp [hbreak]
  · have hends : endsLine (.text ⟨stop, run⟩ :: later) = false := by
      rw [endsLine_text]
      simp [hbreak, hlater]
    refine rightOf_of_shared hends ?_
    rw [firstLine_append_of_notMem hbreak, List.all_append, firstLine_of_mark hmark,
      Bool.and_false]

theorem dropKeyword?_append {word rest : List Char} (h : ¬ rest.head?.any isIdentChar) :
    dropKeyword? word (word ++ rest) = some rest := by
  have hdrop : dropWord? word (word ++ rest) = some rest := dropWord?_eq_some_iff.2 rfl
  unfold dropKeyword?
  rw [hdrop]
  exact if_neg h

theorem Cut.rightOf {stop : Nat} {after : List Char} {later : List Token}
    (h : Cut stop after later) : RightOf stop after later := by
  cases h with
  | run =>
    by_cases hafter : after = []
    · rw [hafter]
      exact .judged rfl fun _ => .nothing rfl
    · rw [plain_of_ne hafter]
      refine .judged ?_ fun _ => .text hafter rfl (by simp)
      rw [endsLine_text]
      simp
  | @lastParam _ run m token hm =>
    obtain ⟨c, cs, rfl, hmark⟩ := hm.first
    by_cases hrun : run = []
    · have hends : endsLine [token] = false := by
        cases hm
        rfl
      rw [hrun]
      exact rightOf_of_shared hends (firstLine_of_mark hmark cs)
    · refine rightOf_text hrun hmark (by simp) ?_
      intro t ht
      rw [List.mem_singleton.1 ht]
      cases hm
      exact Nat.le_refl _
  | @piece _ run m rest token tokens hm hrest =>
    obtain ⟨c, cs, hcs, hmark⟩ := hm.first
    by_cases hrun : run = []
    · have other (htoken : ∀ s, token ≠ .text s) :
          RightOf stop (run ++ m ++ rest) (plain stop run ++ token :: tokens) := by
        have hends : endsLine (token :: tokens) = false := by
          cases token with
          | text s => exact absurd rfl (htoken s)
          | _ => rfl
        rw [hrun, hcs]
        exact rightOf_of_shared hends (firstLine_of_mark hmark _)
      cases hm with
      | tag => exact other (by simp)
      | interpolation => exact other (by simp)
      | param => exact other (by simp)
      | @raw body hword =>
        have hhead : ¬ (body ++ ("@endraw".toList ++ rest)).head?.any isIdentChar := by
          cases body with
          | nil => exact Bool.false_ne_true
          | cons c body => exact hword
        refine .raw ?_
        rw [hrun]
        simp only [List.nil_append, List.append_assoc, dropKeyword?_append hhead,
          Option.isSome_some]
    · rw [hcs, List.append_assoc, List.cons_append]
      refine rightOf_text hrun hmark (by simp) ?_
      intro t ht
      rcases List.mem_cons.1 ht with rfl | ht
      · exact hm.start
      · have := hrest.start t ht
        omega

-- Text next to a tag stands on its line: no line break lies between.
theorem CutTo.text {before : List Char} {earlier : List Token} {s : Slice}
    (h : CutTo before (.text s :: earlier)) : ∃ x y, before = x ++ s.chars ++ y ∧
      s.start = byteLength x ∧ '\n' ∉ y := by
  generalize hts : Token.text s :: earlier = ts at h
  cases h with
  | run =>
    obtain rfl := Token.text.inj (mem_plain (hts ▸ List.mem_cons_self))
    exact ⟨[], [], by simp, rfl, by simp⟩
  | @piece before m token earlier hbefore hm run =>
    by_cases hrun : run = []
    · rw [hrun, plain_nil, List.nil_append] at hts
      obtain ⟨rfl, -⟩ := List.cons.inj hts
      cases hm with
      | @raw body hword =>
        have hraw : byteLength "@raw".toList = 4 := by decide
        refine ⟨before ++ "@raw".toList, "@endraw".toList, by simp [hrun], ?_, by decide⟩
        rw [byteLength_append, hraw]
    · rw [plain_of_ne hrun, List.singleton_append] at hts
      obtain ⟨hs, -⟩ := List.cons.inj hts
      obtain rfl := Token.text.inj hs
      exact ⟨before ++ m, [], by simp, (byteLength_append _ _).symm, by simp⟩

theorem Cut.headText {stop : Nat} {after : List Char} {later : List Token} {s : Slice}
    (h : Cut stop after (.text s :: later)) : ∃ x y, after = x ++ s.chars ++ y ∧
      s.start = stop + byteLength x ∧ '\n' ∉ x := by
  generalize hts : Token.text s :: later = ts at h
  -- Text that is not raw begins where the tag ends.
  have direct {run : List Char} {rest : List Token} (hrun : run ≠ []) (y : List Char)
      (hcons : Token.text s :: later = plain stop run ++ rest) :
      ∃ x y', run ++ y = x ++ s.chars ++ y' ∧ s.start = stop + byteLength x ∧ '\n' ∉ x := by
    rw [plain_of_ne hrun, List.singleton_append] at hcons
    obtain rfl := Token.text.inj (List.cons.inj hcons).1
    exact ⟨[], y, by simp, rfl, by simp⟩
  cases h with
  | run =>
    obtain rfl := Token.text.inj (mem_plain (hts ▸ List.mem_cons_self))
    exact ⟨[], [], by simp, rfl, by simp⟩
  | @lastParam _ run m token hm =>
    by_cases hrun : run = []
    · rw [hrun, plain_nil, List.nil_append] at hts
      cases hm
      cases (List.cons.inj hts).1
    · exact direct hrun m hts
  | @piece _ run m rest token tokens hm hrest =>
    by_cases hrun : run = []
    · rw [hrun, plain_nil, List.nil_append] at hts
      obtain ⟨rfl, -⟩ := List.cons.inj hts
      cases hm with
      | @raw body hword =>
        have hraw : byteLength "@raw".toList = 4 := by decide
        refine ⟨"@raw".toList, "@endraw".toList ++ rest, by simp [hrun], ?_, by decide⟩
        simp only [hrun, byteLength_nil, Nat.add_zero, hraw]
    · rw [List.append_assoc]
      exact direct hrun _ hts

end Stencil.Markup
