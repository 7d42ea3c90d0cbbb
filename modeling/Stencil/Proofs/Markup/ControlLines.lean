import Stencil.Proofs.Markup.TrimmedText

/-!
Which bytes trimming takes away, by the lines of the source. Trimming goes by the tokens around a
tag, and so misses the tags in a line behind a declaration, and takes for a line of its own the end
or the beginning of a raw block beside a tag.
-/

namespace Stencil.Markup

-- Is there nothing but blanks in the tag's line, apart from the tag?
def AloneOnLine (source : List Char) (span : Span) : Prop :=
  (lineBefore source span.start).all isLineBlank ∧
    (firstLine (restAfter source span.stop)).all isLineBlank

-- Is byte `b` in a line that the tag stands on, outside the tag? The line break is in it.
def OnLine (source : List Char) (span : Span) (b : Nat) : Prop :=
  (span.start ≤ b + byteLength (lineBefore source span.start) ∧ b < span.start) ∨
    (span.stop ≤ b ∧ b < span.stop + byteLength (throughBreak (restAfter source span.stop)))

instance (source : List Char) (span : Span) : Decidable (AloneOnLine source span) :=
  inferInstanceAs (Decidable (_ ∧ _))

instance (source : List Char) (span : Span) (b : Nat) : Decidable (OnLine source span b) :=
  inferInstanceAs (Decidable (_ ∨ _))

-- Does the tag's line begin where a declaration ends?
def AfterParam (source : List Char) (ts : List Token) (span : Span) : Prop :=
  ∃ declaration line, .tag (.param declaration) line ∈ ts ∧
    line.stop + 1 + byteLength (lineBefore source span.start) = span.start

-- Does a raw block end where the tag begins, or begin where it ends?
def RawBeside (source : List Char) (span : Span) : Prop :=
  (∃ rest, charsBefore span.start source = rest ++ "@endraw".toList) ∨
    (dropKeyword? "@raw".toList (restAfter source span.stop)).isSome

section Tag

variable {source before inside after : List Char} {earlier later : List Token} {tag : Tag}
  {span : Span}

theorem TagAt.onLine_iff (h : TagAt source before inside after earlier span later) (b : Nat) :
    OnLine source span b ↔
      (byteLength before ≤ b + byteLength (lastLine before) ∧ b < byteLength before) ∨
        (span.stop ≤ b ∧ b < span.stop + byteLength (throughBreak after)) := by
  rw [OnLine, h.lineBefore_eq, h.restAfter_eq, h.start_eq]

theorem BehindParam.startsLine {before : List Char} {earlier : List Token}
    (h : BehindParam before earlier) : startsLine earlier = false := by
  obtain ⟨start, run, declaration, span, rest, rfl, -, -, hline⟩ := h
  by_cases hrun : run = []
  · rw [hrun, plain_nil]
    rfl
  · have hbreak : '\n' ∉ run := hline ▸ notMem_lastLine before
    rw [plain_of_ne hrun, List.singleton_append, startsLine_text]
    simp [hbreak]

-- Text that trimming leaves before a tag alone on its line ends before that line.
theorem Opens.notCovers {s : Slice} {b : Nat} (h : Opens before earlier)
    (halone : precedesAlone earlier later) (hmem : .text s ∈ trimmedBefore earlier later)
    (hb : byteLength before ≤ b + byteLength (lastLine before)) : ¬ s.Covers b := by
  intro hcovers
  cases h with
  | nothing => cases hmem
  | @text start run rest hline hlength hrest =>
    rcases List.mem_cons.1 hmem with hmem | hmem
    · unfold trimmedBetween trimToken at hmem
      rw [halone] at hmem
      obtain rfl := Token.text.inj hmem
      have hend : b + byteLength (lastLine run) < start + byteLength run := by
        rw [if_pos rfl] at hcovers
        split at hcovers
        · have hwhole := (dropLine_spec ⟨start, run⟩).1
          refine covers_dropIndent ⟨start, run⟩ _ hwhole ?_ hcovers
          have hstart := (dropLine_spec ⟨start, run⟩).2
          have hlength := congrArg byteLength hwhole
          rw [byteLength_append] at hlength
          simp only [Slice.stop] at hstart hlength ⊢
          omega
        · exact covers_dropIndent ⟨start, run⟩ [] rfl rfl hcovers
      rw [hline] at hb
      omega
    · obtain ⟨r, hr, hwithin⟩ := mem_trimmedBefore hmem
      have hreach := hrest _ hr
      have hstop := hwithin.stop_le
      simp only [Token.reach] at hreach
      have hlt := hcovers.2
      rw [hline] at hb
      omega

-- Text that trimming leaves behind such a tag begins behind the line.
theorem Closes.notCovers {s : Slice} {b : Nat} (h : Closes span.stop after later)
    (halone : followsAlone earlier later) (hmem : .text s ∈ trimmedAfter earlier later)
    (hb : b < span.stop + byteLength (throughBreak after)) : ¬ s.Covers b := by
  intro hcovers
  cases h with
  | nothing => cases hmem
  | @text run rest hrun hline hrest =>
    have hfirst := (dropLine_spec ⟨span.stop, run⟩)
    rcases List.mem_cons.1 hmem with hmem | hmem
    · unfold trimmedBetween trimToken at hmem
      rw [halone] at hmem
      obtain rfl := Token.text.inj hmem
      have hstart : span.stop + byteLength (throughBreak run) ≤ b := by
        rw [if_pos rfl] at hcovers
        rw [← hfirst.2]
        split at hcovers
        · exact hcovers.1
        · exact hcovers.1
      rw [hline] at hb
      omega
    · obtain ⟨r, hr, hwithin⟩ := mem_trimmedAfter hmem
      have hstart := hrest _ hr
      have hle := hwithin.start_le
      have hlength := congrArg byteLength hfirst.1
      rw [byteLength_append] at hlength
      simp only [Token.start] at hstart
      have hge := hcovers.1
      rw [hline] at hb
      simp only at hlength
      omega

theorem AloneOnLine.not_raw (h : AloneOnLine source span) : ¬ RawBeside source span := by
  obtain ⟨hleft, hright⟩ := h
  rintro (⟨rest, hrest⟩ | hraw)
  · have hend : charsBefore span.start source = rest ++ "@endra".toList ++ ['w'] := by
      rw [hrest]
      simp
    rw [lineBefore, hend, lastLine_of_mark (by decide)] at hleft
    exact Bool.false_ne_true hleft
  · obtain ⟨rest, hrest⟩ := Option.isSome_iff_exists.1 hraw
    rw [(eq_append_of_dropKeyword? hrest).1] at hright
    have hmark := firstLine_of_mark (c := '@') (by decide) ("raw".toList ++ rest)
    exact Bool.false_ne_true (hmark.symm.trans hright)

-- What the tokens say of a line, where no raw block is beside the tag.
theorem TagAt.startsLine_or (h : TagAt source before inside after earlier span later)
    (hraw : ¬ RawBeside source span) : BehindParam before earlier ∨
      (startsLine earlier = (lineBefore source span.start).all isLineBlank ∧
        (startsLine earlier → Opens before earlier)) := by
  cases h.left.leftOf with
  | raw rest hbefore =>
    refine absurd (.inl ⟨rest, ?_⟩) hraw
    rw [h.start_eq, h.source_eq, List.append_assoc, charsBefore_append, hbefore]
  | behindParam hparam => exact .inl hparam
  | judged hstarts hopens => exact .inr ⟨h.lineBefore_eq ▸ hstarts, hopens⟩

theorem TagAt.endsLine_eq (h : TagAt source before inside after earlier span later)
    (hraw : ¬ RawBeside source span) :
    endsLine later = (firstLine (restAfter source span.stop)).all isLineBlank ∧
      (endsLine later → Closes span.stop after later) := by
  cases h.right.rightOf with
  | raw hafter => exact absurd (.inr (h.restAfter_eq ▸ hafter)) hraw
  | judged hends hcloses => exact ⟨h.restAfter_eq ▸ hends, hcloses⟩

-- A tag that the tokens show alone on a line is so, or has a raw block beside it.
theorem TagAt.alone_or_raw (h : TagAt source before inside after earlier span later) {t : Token}
    (halone : standsAlone earlier t later) : AloneOnLine source span ∨ RawBeside source span := by
  by_cases hraw : RawBeside source span
  · exact .inr hraw
  · simp only [standsAlone, Bool.and_eq_true] at halone
    obtain ⟨⟨-, hstarts⟩, hends⟩ := halone
    rcases h.startsLine_or hraw with hparam | ⟨hline, -⟩
    · exact absurd (hparam.startsLine.symm.trans hstarts) Bool.false_ne_true
    · exact .inl ⟨hline ▸ hstarts, (h.endsLine_eq hraw).1 ▸ hends⟩

variable {ts : List Token}

theorem TagAt.afterParam_of_behind (h : TagAt source before inside after earlier span later)
    (hts : ts = earlier.reverse ++ .tag tag span :: later) (hbehind : BehindParam before earlier) :
    AfterParam source ts span := by
  obtain ⟨start, run, declaration, line, rest, hearlier, hstop, hlength, hline⟩ := hbehind
  refine ⟨declaration, line, ?_, ?_⟩
  · rw [hts, hearlier]
    simp
  · rw [h.lineBefore_eq, hline, h.start_eq, hlength, hstop]

-- Where the line begins in text, no declaration ends there.
theorem TagAt.not_afterParam (h : TagAt source before inside after earlier span later)
    (hts : ts = earlier.reverse ++ .tag tag span :: later) (htag : tag.isControl)
    (hopens : Opens before earlier) : ¬ AfterParam source ts span := by
  rintro ⟨declaration, line, hmem, hstop⟩
  rw [h.lineBefore_eq, h.start_eq] at hstop
  rw [hts, List.mem_append, List.mem_reverse, List.mem_cons] at hmem
  rcases hmem with hmem | hmem | hmem
  · cases hopens with
    | nothing => cases hmem
    | text hline hlength hrest =>
      rcases List.mem_cons.1 hmem with hmem | hmem
      · cases hmem
      · have hreach := hrest _ hmem
        simp only [Token.reach, Tag.isParam, if_true] at hreach
        rw [hline] at hstop
        omega
  · cases hmem
    cases htag
  · have hstart := h.right.start _ hmem
    have hlt := h.right.param _ _ hmem
    have hstopEq := h.stop_eq
    simp only [Token.start] at hstart
    omega

-- The line of a tag alone on it goes.
theorem TagAt.notCovers_of_alone (h : TagAt source before inside after earlier span later)
    (htag : tag.isControl) (halone : AloneOnLine source span) (hopens : startsLine earlier)
    (hleft : Opens before earlier) {b : Nat} (hb : OnLine source span b) {s : Slice}
    (hmem : .text s ∈ trim (earlier.reverse ++ .tag tag span :: later)) : ¬ s.Covers b := by
  obtain ⟨hends, hcloses⟩ := h.endsLine_eq halone.not_raw
  have hend : endsLine later := hends.trans halone.2
  have hstands : standsAlone earlier (.tag tag span) later := by
    simp only [standsAlone, Token.isControl, htag, hopens, hend, Bool.and_self]
  intro hcovers
  rw [h.onLine_iff] at hb
  rcases mem_trim_append hmem with hmem | hmem
  · -- Earlier text ends before the tag, so the byte is before the tag too.
    obtain ⟨r, hr, hwithin⟩ := mem_trimmedBefore hmem
    have hreach : r.stop ≤ byteLength before := h.left.reach _ hr
    have hstop := hwithin.stop_le
    have hlt := hcovers.2
    have hstopEq := h.stop_eq
    rcases hb with ⟨hb, -⟩ | ⟨hb, -⟩
    · have hprecedes : precedesAlone earlier (.tag tag span :: later) := hstands
      exact hleft.notCovers hprecedes hmem hb hcovers
    · omega
  · rcases List.mem_cons.1 hmem with hmem | hmem
    · cases hmem
    · obtain ⟨r, hr, hwithin⟩ := mem_trimmedAfter hmem
      have hstart : span.stop ≤ r.start := h.right.start _ hr
      have hle := hwithin.start_le
      have hge := hcovers.1
      have hstopEq := h.stop_eq
      rcases hb with ⟨-, hb⟩ | ⟨-, hb⟩
      · omega
      · have hfollows : followsAlone (.tag tag span :: earlier) later := hstands
        exact (hcloses hend).notCovers hfollows hmem hb hcovers

-- Text before a tag that is behind a declaration stays.
theorem BehindParam.covers {t : Token} (h : BehindParam before earlier)
    (hstands : ∀ rest, standsAlone earlier t rest = false) {b : Nat}
    (hge : byteLength before ≤ b + byteLength (lastLine before)) (hlt : b < byteLength before) :
    ∃ s, .text s ∈ trim (earlier.reverse ++ t :: later) ∧ s.Covers b := by
  obtain ⟨start, run, declaration, line, rest, hearlier, hstop, hlength, hline⟩ := h
  rw [hline] at hge
  have hrun : run ≠ [] := by
    intro hnil
    rw [hnil, byteLength_nil] at hge
    omega
  have hcovers : Slice.Covers ⟨start, run⟩ b := by
    simp only [Slice.Covers, Slice.stop]
    omega
  rw [plain_of_ne hrun, List.singleton_append] at hearlier
  refine ⟨⟨start, run⟩, ?_, hcovers⟩
  rw [hearlier, List.reverse_cons, List.append_assoc, List.singleton_append]
  refine mem_trim_of_covers ?_ hcovers
  have hprecedes : precedesAlone (.text ⟨start, run⟩ :: .tag (.param declaration) line :: rest)
      (t :: later) = false := hearlier ▸ hstands later
  rw [trimmedBetween, hprecedes]
  rfl

-- Dropping the last line of a text leaves the first one where there are two.
theorem covers_firstLine {s : Slice} {b : Nat} (hbreak : '\n' ∈ s.chars) (hge : s.start ≤ b)
    (hlt : b < s.start + byteLength (throughBreak s.chars)) : (dropIndent s).Covers b := by
  obtain ⟨hsplit, hstart⟩ := dropIndent_spec s
  have hkept : '\n' ∈ (dropIndent s).chars := by
    rw [hsplit, List.mem_append] at hbreak
    exact hbreak.resolve_right (notMem_lastLine _)
  have hfirst : throughBreak s.chars = throughBreak (dropIndent s).chars := by
    have happ := throughBreak_append_of_mem hkept (lastLine s.chars)
    rwa [← hsplit] at happ
  have hlength := congrArg byteLength (dropLine_spec (dropIndent s)).1
  rw [byteLength_append, ← hfirst] at hlength
  simp only [Slice.Covers, Slice.stop]
  omega

-- The rest of the line of a tag that is not taken to be alone on it stays. The next tag can take
-- the last line of the text only.
theorem Closes.covers {t : Token} {stop : Nat} (h : Closes stop after later)
    (hstands : ∀ rest, standsAlone earlier t rest = false) {b : Nat} (hge : stop ≤ b)
    (hlt : b < stop + byteLength (throughBreak after)) :
    ∃ s, .text s ∈ trim (earlier.reverse ++ t :: later) ∧ s.Covers b := by
  cases h with
  | nothing hafter =>
    rw [hafter] at hlt
    have hnone : byteLength (throughBreak []) = 0 := rfl
    omega
  | @text run rest hrun hline hrest =>
    rw [hline] at hlt
    have hfollows : followsAlone (t :: earlier) (.text ⟨stop, run⟩ :: rest) = false := hstands _
    have hmem {s : Slice} (hs : trimmedBetween (t :: earlier) (.text ⟨stop, run⟩) rest = .text s)
        (hcovers : s.Covers b) :
        .text s ∈ trim (earlier.reverse ++ t :: .text ⟨stop, run⟩ :: rest) := by
      have hkept := mem_trim_of_covers hs hcovers
      rwa [List.reverse_cons, List.append_assoc, List.singleton_append] at hkept
    cases hprecedes : precedesAlone (.text ⟨stop, run⟩ :: t :: earlier) rest with
    | false =>
      have hcovers : Slice.Covers ⟨stop, run⟩ b := by
        have hlength := congrArg byteLength (dropLine_spec ⟨stop, run⟩).1
        rw [byteLength_append] at hlength
        simp only [Slice.Covers, Slice.stop] at hlength ⊢
        omega
      refine ⟨_, hmem ?_ hcovers, hcovers⟩
      rw [trimmedBetween, hfollows, hprecedes]
      rfl
    | true =>
      have hstarts := precedesAlone_startsLine hprecedes
      have hbreak : '\n' ∈ run := by
        rw [startsLine_text, Bool.and_eq_true] at hstarts
        simpa using hstarts.2
      have hcovers := covers_firstLine (s := ⟨stop, run⟩) hbreak hge hlt
      refine ⟨_, hmem ?_ hcovers, hcovers⟩
      rw [trimmedBetween, hfollows, hprecedes]
      rfl

-- The line of a tag behind a declaration stays.
theorem TagAt.covers_of_behind (h : TagAt source before inside after earlier span later)
    (halone : AloneOnLine source span) (hbehind : BehindParam before earlier) {b : Nat}
    (hb : OnLine source span b) :
    ∃ s, .text s ∈ trim (earlier.reverse ++ .tag tag span :: later) ∧ s.Covers b := by
  have hstands (rest : List Token) : standsAlone earlier (.tag tag span) rest = false := by
    rw [standsAlone, hbehind.startsLine, Bool.and_false, Bool.false_and]
  rw [h.onLine_iff] at hb
  rcases hb with ⟨hge, hlt⟩ | ⟨hge, hlt⟩
  · exact hbehind.covers hstands hge hlt
  · obtain ⟨hends, hcloses⟩ := h.endsLine_eq halone.not_raw
    exact (hcloses (hends.trans halone.2)).covers hstands hge hlt

-- Text next to a tag is on the tag's line as far as its own first or last line goes.
theorem TagAt.onLine_behind {s : Slice} {b : Nat}
    (h : TagAt source before inside after earlier span (.text s :: later)) (hge : s.start ≤ b)
    (hlt : b < s.start + byteLength (throughBreak s.chars)) : OnLine source span b := by
  obtain ⟨x, y, hafter, hstart, hx⟩ := h.right.headText
  have hle := byteLength_throughBreak_append s.chars y
  rw [h.onLine_iff]
  refine .inr ⟨by omega, ?_⟩
  rw [hafter, List.append_assoc, throughBreak_append_of_notMem hx, byteLength_append]
  omega

theorem TagAt.onLine_before {s : Slice} {b : Nat}
    (h : TagAt source before inside after (.text s :: earlier) span later)
    (hge : s.stop ≤ b + byteLength (lastLine s.chars)) (hlt : b < s.stop) :
    OnLine source span b := by
  obtain ⟨x, y, hbefore, hstart, hy⟩ := h.left.text
  have hle := byteLength_lastLine_append x s.chars
  have hlength := congrArg byteLength hbefore
  simp only [byteLength_append] at hlength
  rw [h.onLine_iff]
  simp only [Slice.stop] at hge hlt
  refine .inl ⟨?_, by omega⟩
  rw [hbefore, lastLine_append_of_notMem hy, ← hbefore, byteLength_append]
  omega

end Tag

-- A byte of text is lost only on the line of a control tag, which is alone on it or has a raw block
-- beside it.
theorem exists_tag_of_lost {source : List Char} {ts : List Token} (h : Cut 0 source ts) {s : Slice}
    {b : Nat} (hmem : .text s ∈ ts) (hb : s.Covers b)
    (hlost : ∀ s', .text s' ∈ trim ts → ¬ s'.Covers b) :
    ∃ tag span, .tag tag span ∈ ts ∧ tag.isControl ∧ OnLine source span b ∧
      (AloneOnLine source span ∨ RawBeside source span) := by
  have control {earlier later : List Token} {t : Token} (ht : standsAlone earlier t later) :
      ∃ tag span, t = .tag tag span ∧ tag.isControl := by
    simp only [standsAlone, Bool.and_eq_true] at ht
    cases t with
    | tag tag span => exact ⟨tag, span, rfl, ht.1.1⟩
    | _ => cases ht.1.1
  obtain ⟨xs, later, rfl⟩ := List.append_of_mem hmem
  obtain ⟨earlier, rfl⟩ : ∃ earlier : List Token, xs = earlier.reverse := ⟨xs.reverse, by simp⟩
  obtain ⟨s', hs', -⟩ := thins_trimmedBetween earlier s later
  have hgone : ¬ s'.Covers b := fun hcovers => hlost s' (mem_trim_of_covers hs' hcovers) hcovers
  rcases lost_byte hs' hb hgone with ⟨halone, hlt⟩ | ⟨halone, hge⟩
  · cases earlier with
    | nil => cases halone
    | cons t earlier =>
      obtain ⟨tag, span, rfl, htag⟩ := control halone
      have hts : (Token.tag tag span :: earlier).reverse ++ .text s :: later =
          earlier.reverse ++ .tag tag span :: .text s :: later := by simp
      obtain ⟨before, inside, after, hat⟩ := tagAt_of_cut h hts htag
      exact ⟨tag, span, by simp, htag, hat.onLine_behind hb.1 hlt, hat.alone_or_raw halone⟩
  · cases later with
    | nil => cases halone
    | cons t later =>
      obtain ⟨tag, span, rfl, htag⟩ := control halone
      have hts : earlier.reverse ++ .text s :: .tag tag span :: later =
          (Token.text s :: earlier).reverse ++ .tag tag span :: later := by simp
      obtain ⟨before, inside, after, hat⟩ := tagAt_of_cut h hts htag
      exact ⟨tag, span, by simp, htag, hat.onLine_before hge hb.2, hat.alone_or_raw halone⟩

theorem liesIn_of_mem_trim {source : List Char} {ts : List Token} (h : Cut 0 source ts) {s : Slice}
    (hmem : .text s ∈ ts ∨ .text s ∈ trim ts) : s.LiesIn source := by
  have whole {r : Slice} (hr : .text r ∈ ts) : r.LiesIn source := by
    obtain ⟨before, after, hsource, hstart⟩ := h.text r hr
    exact ⟨before, after, hsource, by simpa using hstart⟩
  rcases hmem with hmem | hmem
  · exact whole hmem
  · obtain ⟨r, hr, hwithin⟩ := mem_trimmedAfter (mem_trim_iff.1 hmem).1
    exact hwithin.liesIn (whole hr)

-- What trimming takes from the text of a source. The line of a control tag alone on it goes, except
-- where the line begins behind a declaration; and only such lines go, and text on the line of a
-- control tag with a raw block beside it.
theorem trim_byLines {source : List Char} {ts : List Token} (h : tokens source = .ok ts) :
    (∀ s, .text s ∈ ts ∨ .text s ∈ trim ts → s.LiesIn source) ∧
    (∀ tag span, .tag tag span ∈ ts → tag.isControl → AloneOnLine source span →
      ∀ b, OnLine source span b →
        (¬ AfterParam source ts span → ∀ s, .text s ∈ trim ts → ¬ s.Covers b) ∧
        (AfterParam source ts span → ∃ s, .text s ∈ trim ts ∧ s.Covers b)) ∧
    (∀ s b, .text s ∈ ts → s.Covers b → (∀ s', .text s' ∈ trim ts → ¬ s'.Covers b) →
      ∃ tag span, .tag tag span ∈ ts ∧ tag.isControl ∧ OnLine source span b ∧
        (AloneOnLine source span ∨ RawBeside source span)) := by
  have hcut := cut_of_tokens h
  refine ⟨fun s => liesIn_of_mem_trim hcut, ?_, fun s b => exists_tag_of_lost hcut⟩
  intro tag span hmem htag halone b hb
  obtain ⟨xs, later, hxs⟩ := List.append_of_mem hmem
  have hts : ts = xs.reverse.reverse ++ .tag tag span :: later := by simpa using hxs
  obtain ⟨before, inside, after, hat⟩ := tagAt_of_cut hcut hts htag
  rcases hat.startsLine_or halone.not_raw with hbehind | ⟨hstarts, hopens⟩
  · refine ⟨fun hparam => absurd (hat.afterParam_of_behind hts hbehind) hparam, fun _ => ?_⟩
    rw [hts]
    exact hat.covers_of_behind halone hbehind hb
  · have hopen : startsLine xs.reverse := hstarts.trans halone.1
    refine ⟨fun _ s hs => ?_, fun hparam => ?_⟩
    · rw [hts] at hs
      exact hat.notCovers_of_alone htag halone hopen (hopens hopen) hb hs
    · exact absurd hparam (hat.not_afterParam hts htag (hopens hopen))

def declared : List Char := "@param bool a\n@if(a)\nyes\n  @end \n".toList

def declaredTokens : List Token :=
  [.tag (.param ⟨6, " bool a".toList⟩) ⟨0, 13⟩, .tag (.condition ⟨18, ['a']⟩) ⟨14, 20⟩,
    .text ⟨20, "\nyes\n  ".toList⟩, .tag .close ⟨27, 31⟩, .text ⟨31, " \n".toList⟩]

theorem tokens_declared : tokens declared = .ok declaredTokens := by decide +kernel

theorem afterParam_declared : AfterParam declared declaredTokens ⟨14, 20⟩ :=
  ⟨⟨6, " bool a".toList⟩, ⟨0, 13⟩, by decide, by decide⟩

theorem not_afterParam_declared : ¬ AfterParam declared declaredTokens ⟨27, 31⟩ := by
  rintro ⟨declaration, line, hmem, hstop⟩
  have hline : lineBefore declared 27 = "  ".toList := by decide
  obtain ⟨-, hspan⟩ : declaration = ⟨6, " bool a".toList⟩ ∧ line = ⟨0, 13⟩ := by
    simpa [declaredTokens] using hmem
  rw [hspan, hline] at hstop
  revert hstop
  decide

-- The line of the closing tag goes, with its break at byte 32; that of the condition stays.
theorem trim_byLines_declared :
    tokens declared = .ok declaredTokens ∧
      (∀ s, .text s ∈ trim declaredTokens → ¬ s.Covers 32) ∧
      ∃ s, .text s ∈ trim declaredTokens ∧ s.Covers 20 := by
  obtain ⟨-, hlines, -⟩ := trim_byLines tokens_declared
  refine ⟨tokens_declared, ?_, ?_⟩
  · exact (hlines .close ⟨27, 31⟩ (by decide) rfl (by decide) 32 (by decide)).1
      not_afterParam_declared
  · exact (hlines (.condition ⟨18, ['a']⟩) ⟨14, 20⟩ (by decide) rfl (by decide) 20 (by decide)).2
      afterParam_declared

-- What the lines of the source alone would have trimming do.
def TrimsByLines (source : List Char) : Prop :=
  ∀ ts, tokens source = .ok ts →
    (∀ tag span, .tag tag span ∈ ts → tag.isControl → AloneOnLine source span →
      ∀ b, OnLine source span b → ∀ s, .text s ∈ trim ts → ¬ s.Covers b) ∧
    (∀ s b, .text s ∈ ts → s.Covers b → (∀ s', .text s' ∈ trim ts → ¬ s'.Covers b) →
      ∃ tag span, .tag tag span ∈ ts ∧ tag.isControl ∧ OnLine source span b ∧
        AloneOnLine source span)

-- A raw block that ends with blanks, right before a tag.
def bordered : List Char := "@param bool a\n@raw\n @endraw@if(a)\n@end\n".toList

def borderedTokens : List Token :=
  [.tag (.param ⟨6, " bool a".toList⟩) ⟨0, 13⟩, .text ⟨18, "\n ".toList⟩,
    .tag (.condition ⟨31, ['a']⟩) ⟨27, 33⟩, .text ⟨33, ['\n']⟩, .tag .close ⟨34, 38⟩,
    .text ⟨38, ['\n']⟩]

theorem tokens_bordered : tokens bordered = .ok borderedTokens := by decide +kernel

-- The line break at byte 20 stays, though the tag before it is alone on its line; and the blank at
-- byte 19 goes, though it is in a raw block.
theorem not_trimsByLines : ¬ TrimsByLines declared ∧ ¬ TrimsByLines bordered := by
  refine ⟨fun h => ?_, fun h => ?_⟩
  · refine (h _ tokens_declared).1 (.condition ⟨18, ['a']⟩) ⟨14, 20⟩ (by decide) rfl (by decide) 20
      (by decide) ⟨20, "\nyes\n".toList⟩ (by decide) (by decide)
  · have htrim : trim borderedTokens = [.tag (.param ⟨6, " bool a".toList⟩) ⟨0, 13⟩,
        .text ⟨18, ['\n']⟩, .tag (.condition ⟨31, ['a']⟩) ⟨27, 33⟩, .tag .close ⟨34, 38⟩] := by
      decide
    have hlost : ∀ s', .text s' ∈ trim borderedTokens → ¬ s'.Covers 19 := by
      intro s' hmem
      obtain rfl : s' = ⟨18, ['\n']⟩ := by simpa [htrim] using hmem
      decide
    obtain ⟨tag, span, hmem, htag, hline, halone⟩ :=
      (h _ tokens_bordered).2 ⟨18, "\n ".toList⟩ 19 (by decide) (by decide) hlost
    obtain ⟨rfl, rfl⟩ | ⟨rfl, rfl⟩ | ⟨rfl, rfl⟩ : (tag = .param ⟨6, " bool a".toList⟩ ∧
        span = ⟨0, 13⟩) ∨ (tag = .condition ⟨31, ['a']⟩ ∧ span = ⟨27, 33⟩) ∨
        (tag = .close ∧ span = ⟨34, 38⟩) := by
      simpa [borderedTokens] using hmem
    · cases htag
    · revert halone
      decide
    · revert hline
      decide

end Stencil.Markup
