import Stencil.Proofs.Markup.Lines
import Stencil.Proofs.Markup.Trimming

/-!
Which bytes of a text trimming takes away: those of its first line, behind a tag that stands alone,
and those of its last line, before such a tag. When it leaves a text whole is said by the tags right
beside it and by its own first and last lines.
-/

namespace Stencil

-- The characters of a slice stand in `source` where it says.
def Slice.LiesIn (s : Slice) (source : List Char) : Prop :=
  ∃ before after, source = before ++ s.chars ++ after ∧ s.start = byteLength before

-- Is byte `b` one of the slice?
def Slice.Covers (s : Slice) (b : Nat) : Prop := s.start ≤ b ∧ b < s.stop

instance (s : Slice) (b : Nat) : Decidable (s.Covers b) := inferInstanceAs (Decidable (_ ∧ _))

namespace Markup

theorem dropLine_spec (s : Slice) :
    s.chars = throughBreak s.chars ++ (dropLine s).chars ∧
      (dropLine s).start = s.start + byteLength (throughBreak s.chars) := by
  have hsplit := List.takeWhile_append_dropWhile (p := (· != '\n')) (l := s.chars)
  unfold dropLine throughBreak firstLine
  split
  · next he =>
    rw [he, List.append_nil] at hsplit
    simp only [he, hsplit, List.take_nil, List.append_nil, Slice.stop, and_self]
  · next c rest he =>
    rw [he] at hsplit
    simp only [he, List.take_succ_cons, List.take_zero, List.append_assoc, List.singleton_append,
      hsplit, true_and]
    have hlength := congrArg byteLength hsplit
    simp only [byteLength_append, byteLength_cons, byteLength_nil] at hlength ⊢
    simp only [Slice.stop]
    omega

theorem dropIndent_spec (s : Slice) :
    s.chars = (dropIndent s).chars ++ lastLine s.chars ∧ (dropIndent s).start = s.start := by
  have hsplit := List.takeWhile_append_dropWhile (p := (· != '\n')) (l := s.chars.reverse)
  refine ⟨?_, rfl⟩
  rw [dropIndent, lastLine, ← List.reverse_append, hsplit, List.reverse_reverse]

-- A slice of a slice.
structure Within (part whole : Slice) : Prop where
  intro ::
  exists_split : ∃ x y, whole.chars = x ++ part.chars ++ y ∧ part.start = whole.start + byteLength x

namespace Within

@[refl] protected theorem refl (s : Slice) : Within s s := ⟨[], [], by simp, rfl⟩

protected theorem trans {a b c : Slice} (h : Within a b) (h' : Within b c) : Within a c := by
  obtain ⟨x, y, hab, hstart⟩ := h
  obtain ⟨x', y', hbc, hstart'⟩ := h'
  refine ⟨x' ++ x, y ++ y', ?_, ?_⟩
  · rw [hbc, hab]
    simp
  · rw [hstart, hstart', byteLength_append, Nat.add_assoc]

theorem start_le {part whole : Slice} (h : Within part whole) : whole.start ≤ part.start := by
  obtain ⟨x, y, -, hstart⟩ := h
  omega

theorem stop_le {part whole : Slice} (h : Within part whole) : part.stop ≤ whole.stop := by
  obtain ⟨x, y, hchars, hstart⟩ := h
  have hlength := congrArg byteLength hchars
  simp only [byteLength_append] at hlength
  simp only [Slice.stop]
  omega

theorem liesIn {part whole : Slice} {source : List Char} (h : Within part whole)
    (hwhole : whole.LiesIn source) : part.LiesIn source := by
  obtain ⟨x, y, hchars, hstart⟩ := h
  obtain ⟨before, after, hsource, hbefore⟩ := hwhole
  refine ⟨before ++ x, y ++ after, ?_, ?_⟩
  · rw [hsource, hchars]
    simp
  · rw [hstart, hbefore, byteLength_append]

theorem dropLine (s : Slice) : Within (Markup.dropLine s) s :=
  ⟨throughBreak s.chars, [], by simpa using (dropLine_spec s).1, (dropLine_spec s).2⟩

theorem dropIndent (s : Slice) : Within (Markup.dropIndent s) s :=
  ⟨[], lastLine s.chars, (dropIndent_spec s).1, (dropIndent_spec s).2⟩

end Within

theorem within_trimmedBetween {earlier later : List Token} {s s' : Slice}
    (h : trimmedBetween earlier (.text s) later = .text s') : Within s' s := by
  unfold trimmedBetween trimToken at h
  obtain rfl := Token.text.inj h
  have hline : Within (if followsAlone earlier (.text s :: later) then dropLine s else s) s := by
    split
    · exact .dropLine s
    · exact .refl s
  split
  · exact (Within.dropIndent _).trans hline
  · exact hline

-- The tokens before a place as trimming leaves them, nearest first.
def trimmedBefore : List Token → List Token → List Token
  | [], _ => []
  | t :: earlier, later => trimmedBetween earlier t later :: trimmedBefore earlier (t :: later)

theorem trimmedAfter_append (earlier later : List Token) :
    trimmedAfter [] (earlier.reverse ++ later) =
      (trimmedBefore earlier later).reverse ++ trimmedAfter earlier later := by
  induction earlier generalizing later with
  | nil => rfl
  | cons t earlier ih =>
    rw [List.reverse_cons, List.append_assoc, List.singleton_append, ih, trimmedBefore,
      List.reverse_cons, List.append_assoc, trimmedAfter]
    rfl

theorem mem_trim_iff {ts : List Token} {t : Token} :
    t ∈ trim ts ↔ t ∈ trimmedAfter [] ts ∧ isEmptyText t = false := by
  rw [trim_eq, List.mem_filter, Bool.not_eq_true']

theorem mem_trim_append {earlier later : List Token} {t : Token}
    (h : t ∈ trim (earlier.reverse ++ later)) :
    t ∈ trimmedBefore earlier later ∨ t ∈ trimmedAfter earlier later := by
  have hmem := (mem_trim_iff.1 h).1
  rw [trimmedAfter_append, List.mem_append, List.mem_reverse] at hmem
  exact hmem

theorem text_of_trimmedBetween {earlier later : List Token} {t : Token} {s' : Slice}
    (h : trimmedBetween earlier t later = .text s') : ∃ s, t = .text s ∧ Within s' s := by
  cases t with
  | text s => exact ⟨s, rfl, within_trimmedBetween h⟩
  | _ => cases h

theorem mem_trimmedBefore {earlier later : List Token} {s' : Slice}
    (h : .text s' ∈ trimmedBefore earlier later) : ∃ s, .text s ∈ earlier ∧ Within s' s := by
  induction earlier generalizing later with
  | nil => cases h
  | cons t earlier ih =>
    rcases List.mem_cons.1 h with h | h
    · obtain ⟨s, rfl, hs⟩ := text_of_trimmedBetween h.symm
      exact ⟨s, List.mem_cons_self, hs⟩
    · obtain ⟨s, hmem, hs⟩ := ih h
      exact ⟨s, List.mem_cons_of_mem _ hmem, hs⟩

theorem mem_trimmedAfter {earlier later : List Token} {s' : Slice}
    (h : .text s' ∈ trimmedAfter earlier later) : ∃ s, .text s ∈ later ∧ Within s' s := by
  induction later generalizing earlier with
  | nil => cases h
  | cons t later ih =>
    rcases List.mem_cons.1 h with h | h
    · obtain ⟨s, rfl, hs⟩ := text_of_trimmedBetween h.symm
      exact ⟨s, List.mem_cons_self, hs⟩
    · obtain ⟨s, hmem, hs⟩ := ih h
      exact ⟨s, List.mem_cons_of_mem _ hmem, hs⟩

-- What trimming leaves of a token is kept if there is a byte left of it.
theorem mem_trim_of_covers {earlier later : List Token} {t : Token} {s : Slice} {b : Nat}
    (h : trimmedBetween earlier t later = .text s) (hb : s.Covers b) :
    .text s ∈ trim (earlier.reverse ++ t :: later) := by
  refine mem_trim_iff.2 ⟨?_, ?_⟩
  · rw [trimmedAfter_append, trimmedAfter, h]
    simp
  · obtain ⟨start, chars⟩ := s
    cases chars with
    | nil =>
      have hempty : start ≤ b ∧ b < start := hb
      omega
    | cons c cs => rfl

-- Dropping the indentation of a text that ends where `whole` ends drops the whole's as well.
theorem covers_dropIndent (whole : Slice) (front : List Char) {part : Slice} {b : Nat}
    (hchars : whole.chars = front ++ part.chars) (hstop : part.stop = whole.stop)
    (hb : (dropIndent part).Covers b) : b + byteLength (lastLine whole.chars) < whole.stop := by
  obtain ⟨hsplit, hstart⟩ := dropIndent_spec part
  have hlength := congrArg byteLength hsplit
  rw [byteLength_append] at hlength
  simp only [Slice.Covers, Slice.stop] at hb hstop ⊢
  by_cases hbreak : '\n' ∈ part.chars
  · rw [hchars, lastLine_append_of_mem hbreak, ← hchars]
    omega
  · rw [lastLine_of_notMem hbreak] at hlength
    omega

theorem byteLength_lastLine_append (front cs : List Char) :
    byteLength (lastLine cs) ≤ byteLength (lastLine (front ++ cs)) := by
  by_cases hbreak : '\n' ∈ cs
  · rw [lastLine_append_of_mem hbreak]
  · rw [lastLine_append_of_notMem hbreak, lastLine_of_notMem hbreak, byteLength_append]
    omega

theorem byteLength_throughBreak_append (cs back : List Char) :
    byteLength (throughBreak cs) ≤ byteLength (throughBreak (cs ++ back)) := by
  by_cases hbreak : '\n' ∈ cs
  · rw [throughBreak_append_of_mem hbreak]
  · have hcs : throughBreak cs = cs := by
      have happ := throughBreak_append_of_notMem hbreak []
      rwa [List.append_nil, show throughBreak [] = [] from rfl, List.append_nil] at happ
    rw [throughBreak_append_of_notMem hbreak, hcs, byteLength_append]
    omega

-- The bytes that a text loses are in its first line, behind a tag that stands alone, or in its last
-- one, before such a tag.
theorem lost_byte {earlier later : List Token} {s s' : Slice} {b : Nat}
    (h : trimmedBetween earlier (.text s) later = .text s') (hb : s.Covers b)
    (hlost : ¬ s'.Covers b) :
    (followsAlone earlier (.text s :: later) ∧ b < s.start + byteLength (throughBreak s.chars)) ∨
      (precedesAlone (.text s :: earlier) later ∧
        s.stop ≤ b + byteLength (lastLine s.chars)) := by
  obtain ⟨hline, hlineStart⟩ := dropLine_spec s
  have hlineLength := congrArg byteLength hline
  rw [byteLength_append] at hlineLength
  unfold trimmedBetween trimToken at h
  obtain rfl := Token.text.inj h
  cases hfollows : followsAlone earlier (.text s :: later) with
  | false =>
    cases hprecedes : precedesAlone (.text s :: earlier) later with
    | false =>
      simp only [hfollows, hprecedes, Bool.false_eq_true, if_false] at hlost
      exact absurd hb hlost
    | true =>
      obtain ⟨hindent, hindentStart⟩ := dropIndent_spec s
      have hlength := congrArg byteLength hindent
      rw [byteLength_append] at hlength
      simp only [hfollows, hprecedes, Bool.false_eq_true, if_false, if_true, Slice.Covers,
        Slice.stop] at hlost hb
      refine .inr ⟨rfl, ?_⟩
      simp only [Slice.stop]
      omega
  | true =>
    cases hprecedes : precedesAlone (.text s :: earlier) later with
    | false =>
      simp only [hfollows, hprecedes, Bool.false_eq_true, if_false, if_true, Slice.Covers,
        Slice.stop] at hlost hb
      refine .inl ⟨rfl, ?_⟩
      omega
    | true =>
      obtain ⟨hindent, hindentStart⟩ := dropIndent_spec (dropLine s)
      have hlength := congrArg byteLength hindent
      have hle := byteLength_lastLine_append (throughBreak s.chars) (dropLine s).chars
      rw [← hline] at hle
      rw [byteLength_append] at hlength
      simp only [hfollows, hprecedes, if_true, Slice.Covers, Slice.stop] at hlost hb
      by_cases hfirst : b < s.start + byteLength (throughBreak s.chars)
      · exact .inl ⟨rfl, hfirst⟩
      · refine .inr ⟨rfl, ?_⟩
        simp only [Slice.stop]
        omega

-- Tags stay as they are.
theorem tag_mem_trimmedAfter {earlier later : List Token} {tag : Tag} {span : Span} :
    .tag tag span ∈ trimmedAfter earlier later ↔ .tag tag span ∈ later := by
  induction later generalizing earlier with
  | nil => exact Iff.rfl
  | cons t later ih =>
    rw [trimmedAfter, List.mem_cons, List.mem_cons, ih]
    cases t <;> simp [trimmedBetween, trimToken]

-- Does a control tag right before some text take the first line of the text for the rest of its
-- own line?
def TakesFirstLine (earlier : List Token) (s : Slice) (later : List Token) : Prop :=
  ∃ tag span rest, earlier = .tag tag span :: rest ∧ tag.isControl ∧ startsLine rest ∧
    (firstLine s.chars).all isLineBlank ∧ ('\n' ∈ s.chars ∨ later = [])

-- Does a control tag right behind some text take the last line of the text for the beginning of its
-- own?
def TakesLastLine (earlier : List Token) (s : Slice) (later : List Token) : Prop :=
  ∃ tag span rest, later = .tag tag span :: rest ∧ tag.isControl ∧ endsLine rest ∧
    (lastLine s.chars).all isLineBlank ∧ ('\n' ∈ s.chars ∨ earlier = [])

section Lines

variable {earlier later : List Token} {s : Slice}

theorem followsAlone_iff :
    followsAlone earlier (.text s :: later) ↔ TakesFirstLine earlier s later := by
  cases earlier with
  | nil => simp [followsAlone, TakesFirstLine]
  | cons t earlier =>
    cases t <;>
      simp [followsAlone, standsAlone, Token.isControl, endsLine, TakesFirstLine, firstLine,
        and_assoc]

theorem precedesAlone_iff :
    precedesAlone (.text s :: earlier) later ↔ TakesLastLine earlier s later := by
  cases later with
  | nil => simp [precedesAlone, TakesLastLine]
  | cons t later =>
    cases t <;>
      simp [precedesAlone, standsAlone, Token.isControl, startsLine, TakesLastLine, lastLine,
        and_assoc, and_comm, and_left_comm]

theorem length_dropLine_lt (h : s.chars ≠ []) : (dropLine s).chars.length < s.chars.length := by
  have hline : throughBreak s.chars ≠ [] := by
    cases hchars : s.chars with
    | nil => exact absurd hchars h
    | cons c cs =>
      by_cases hc : c = '\n' <;> simp [throughBreak, firstLine, hc]
  have hlength := congrArg List.length (dropLine_spec s).1
  have hpos := List.length_pos_iff.2 hline
  rw [List.length_append] at hlength
  omega

theorem dropIndent_of_lastLine (h : lastLine s.chars = []) : dropIndent s = s := by
  obtain ⟨hchars, hstart⟩ := dropIndent_spec s
  rw [h, List.append_nil] at hchars
  exact congrArg₂ Slice.mk hstart hchars.symm

theorem length_dropIndent (s : Slice) :
    (dropIndent s).chars.length + (lastLine s.chars).length = s.chars.length := by
  have hlength := congrArg List.length (dropIndent_spec s).1
  rw [List.length_append] at hlength
  exact hlength.symm

-- A text loses something where a tag beside it takes a line of it that is not empty.
def Shortened (earlier : List Token) (s : Slice) (later : List Token) : Prop :=
  TakesFirstLine earlier s later ∨ (TakesLastLine earlier s later ∧ lastLine s.chars ≠ [])

theorem trimmedBetween_of_not_shortened (h : ¬ Shortened earlier s later) :
    trimmedBetween earlier (.text s) later = .text s := by
  have hfirst : followsAlone earlier (.text s :: later) = false := by
    rw [← Bool.not_eq_true, followsAlone_iff]
    exact fun hfirst => h (.inl hfirst)
  unfold trimmedBetween trimToken
  rw [hfirst]
  cases hlast : precedesAlone (.text s :: earlier) later with
  | false => rfl
  | true =>
    have hline : lastLine s.chars = [] := by
      by_contra hline
      exact h (.inr ⟨precedesAlone_iff.1 hlast, hline⟩)
    simp only [if_true, Bool.false_eq_true, if_false, dropIndent_of_lastLine hline]

theorem trimmedBetween_of_shortened (hs : s.chars ≠ []) (h : Shortened earlier s later) :
    ∃ s', trimmedBetween earlier (.text s) later = .text s' ∧
      s'.chars.length < s.chars.length := by
  unfold trimmedBetween trimToken
  refine ⟨_, rfl, ?_⟩
  rcases h with hfirst | ⟨hlast, hline⟩
  · rw [followsAlone_iff.2 hfirst, if_pos rfl]
    have hlength := length_dropLine_lt hs
    split
    · have hindent := length_dropIndent (dropLine s)
      omega
    · exact hlength
  · rw [precedesAlone_iff.2 hlast, if_pos rfl]
    split
    · have hlength := length_dropLine_lt hs
      have hindent := length_dropIndent (dropLine s)
      omega
    · have hindent := length_dropIndent s
      have hpos := List.length_pos_iff.2 hline
      omega

end Lines

end Markup

end Stencil
