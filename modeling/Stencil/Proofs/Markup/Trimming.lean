import Stencil.Markup.Trim
import Stencil.Text.Classes

/-!
What trimming does to a token, said by the tokens on both sides of it, and what it takes away: line
breaks and the blanks of lines that hold nothing but a tag.
-/

namespace Stencil.Markup

-- Is `t`, between `earlier` (nearest first) and `later`, a control tag alone on its line?
def standsAlone (earlier : List Token) (t : Token) (later : List Token) : Bool :=
  t.isControl && startsLine earlier && endsLine later

-- Is the token just before, or just after, a control tag alone on its line?
def followsAlone (earlier later : List Token) : Bool :=
  match earlier with
  | [] => false
  | t :: earlier => standsAlone earlier t later

def precedesAlone (earlier later : List Token) : Bool :=
  match later with
  | [] => false
  | t :: later => standsAlone earlier t later

-- A token as trimming leaves it, if it is kept.
def trimmedBetween (earlier : List Token) (t : Token) (later : List Token) : Token :=
  trimToken (followsAlone earlier (t :: later)) (precedesAlone (t :: earlier) later) t

def trimmedAfter : List Token → List Token → List Token
  | _, [] => []
  | earlier, t :: later => trimmedBetween earlier t later :: trimmedAfter (t :: earlier) later

theorem head_aloneOnLine (earlier later : List Token) :
    ((later.zip (aloneOnLine earlier later)).head?.any (·.2)) = precedesAlone earlier later := by
  cases later <;> rfl

theorem trimEach_eq (earlier later : List Token) :
    trimEach (followsAlone earlier later) (later.zip (aloneOnLine earlier later)) =
      trimmedAfter earlier later := by
  induction later generalizing earlier with
  | nil => rfl
  | cons t later ih =>
    have hflag : aloneOnLine earlier (t :: later) =
        standsAlone earlier t later :: aloneOnLine (t :: earlier) later := rfl
    rw [hflag, List.zip_cons_cons]
    simp only [trimEach, trimmedAfter, trimmedBetween, head_aloneOnLine]
    rw [show standsAlone earlier t later = followsAlone (t :: earlier) later from rfl, ih]

theorem trim_eq (tokens : List Token) :
    trim tokens = (trimmedAfter [] tokens).filter (!isEmptyText ·) := by
  rw [← trimEach_eq]
  rfl

-- `Thins full thin`: `thin` is `full` without some of its line breaks and line blanks.
inductive Thins : List Char → List Char → Prop where
  | nil : Thins [] []
  | keep (c : Char) {full thin : List Char} (rest : Thins full thin) : Thins (c :: full) (c :: thin)
  | drop {c : Char} {full thin : List Char} (hc : isLineBlank c ∨ c = '\n')
      (rest : Thins full thin) : Thins (c :: full) thin

namespace Thins

@[refl] protected theorem refl (cs : List Char) : Thins cs cs := by
  induction cs with
  | nil => exact .nil
  | cons c cs ih => exact .keep c ih

theorem append {full thin full' thin' : List Char} (h : Thins full thin)
    (h' : Thins full' thin') : Thins (full ++ full') (thin ++ thin') := by
  induction h with
  | nil => exact h'
  | keep c _ ih => exact .keep c ih
  | drop hc _ ih => exact .drop hc ih

protected theorem trans {a b c : List Char} (h : Thins a b) (h' : Thins b c) : Thins a c := by
  induction h generalizing c with
  | nil => exact h'
  | keep d _ ih =>
    cases h' with
    | keep _ rest => exact .keep d (ih rest)
    | drop hd rest => exact .drop hd (ih rest)
  | drop hd _ ih => exact .drop hd (ih h')

theorem nil_of_all {cs : List Char} (h : ∀ c ∈ cs, isLineBlank c ∨ c = '\n') : Thins cs [] := by
  induction cs with
  | nil => exact .nil
  | cons c cs ih => exact .drop (h c (by simp)) (ih fun d hd => h d (by simp [hd]))

theorem isBlank_of_dropped {c : Char} (h : isLineBlank c ∨ c = '\n') : Text.isBlank c := by
  simp only [isLineBlank, Bool.or_eq_true, beq_iff_eq] at h
  rcases h with ((rfl | rfl) | rfl) | rfl <;> decide

-- White space is all that is lost.
theorem all_isBlank {full thin : List Char} (h : Thins full thin) :
    thin.all Text.isBlank = full.all Text.isBlank := by
  induction h with
  | nil => rfl
  | keep c _ ih => simp only [List.all_cons, ih]
  | drop hc _ ih => simp only [List.all_cons, ih, isBlank_of_dropped hc, Bool.true_and]

end Thins

theorem thins_dropLine {s : Slice}
    (h : (s.chars.takeWhile (· != '\n')).all isLineBlank) : Thins s.chars (dropLine s).chars := by
  have hsplit := List.takeWhile_append_dropWhile (p := (· != '\n')) (l := s.chars)
  have hline : Thins (s.chars.takeWhile (· != '\n')) [] :=
    .nil_of_all fun c hc => .inl (List.all_eq_true.1 h c hc)
  unfold dropLine
  split
  · next he =>
    rw [he, List.append_nil] at hsplit
    rwa [hsplit] at hline
  · next c rest he =>
    have hc : c = '\n' := by
      have hp := List.head?_dropWhile_not (· != '\n') s.chars
      simpa [he] using hp
    have hrest : Thins (s.chars.takeWhile (· != '\n') ++ c :: rest) ([] ++ rest) :=
      hline.append (.drop (.inr hc) (.refl rest))
    rwa [← he, hsplit] at hrest

theorem thins_dropIndent {s : Slice}
    (h : (s.chars.reverse.takeWhile (· != '\n')).all isLineBlank) :
    Thins s.chars (dropIndent s).chars := by
  have hsplit := List.takeWhile_append_dropWhile (p := (· != '\n')) (l := s.chars.reverse)
  have hchars : s.chars = (s.chars.reverse.dropWhile (· != '\n')).reverse ++
      (s.chars.reverse.takeWhile (· != '\n')).reverse := by
    rw [← List.reverse_append, hsplit, List.reverse_reverse]
  have hline : Thins (s.chars.reverse.takeWhile (· != '\n')).reverse [] :=
    .nil_of_all fun c hc => .inl (List.all_eq_true.1 h c (by simpa using hc))
  have happ := (Thins.refl (s.chars.reverse.dropWhile (· != '\n')).reverse).append hline
  rwa [← hchars, List.append_nil] at happ

-- The line that a text ends in ends the text too when its first line is gone.
theorem lastLine_dropLine {s : Slice}
    (h : (s.chars.reverse.takeWhile (· != '\n')).all isLineBlank) :
    ((dropLine s).chars.reverse.takeWhile (· != '\n')).all isLineBlank := by
  have hsuffix : (dropLine s).chars <:+ s.chars := by
    unfold dropLine
    split
    · exact List.nil_suffix
    · next c rest he =>
      have hs := List.dropWhile_suffix (l := s.chars) (· != '\n')
      rw [he] at hs
      exact (List.suffix_cons c rest).trans hs
  obtain ⟨before, hs⟩ := hsuffix
  refine List.all_eq_true.2 fun c hc => List.all_eq_true.1 h c ?_
  rw [← hs, List.reverse_append, List.takeWhile_append]
  split
  · exact List.mem_append_left _ ((List.takeWhile_prefix _).subset hc)
  · exact hc

theorem followsAlone_endsLine {earlier later : List Token} (h : followsAlone earlier later) :
    endsLine later := by
  unfold followsAlone standsAlone at h
  split at h
  · cases h
  · simp only [Bool.and_eq_true] at h
    exact h.2

theorem precedesAlone_startsLine {earlier later : List Token} (h : precedesAlone earlier later) :
    startsLine earlier := by
  unfold precedesAlone standsAlone at h
  split at h
  · cases h
  · simp only [Bool.and_eq_true] at h
    exact h.1.2

-- A list of tokens and the same list trimmed: text loses line breaks and line blanks, and goes
-- where nothing is left of it.
inductive ThinAll : List Token → List Token → Prop where
  | nil : ThinAll [] []
  | interpolation (raw : Bool) (inner : Slice) (span : Span) {ts us : List Token}
      (rest : ThinAll ts us) :
      ThinAll (.interpolation raw inner span :: ts) (.interpolation raw inner span :: us)
  | tag (tag : Tag) (span : Span) {ts us : List Token} (rest : ThinAll ts us) :
      ThinAll (.tag tag span :: ts) (.tag tag span :: us)
  | text {s s' : Slice} (h : Thins s.chars s'.chars) {ts us : List Token} (rest : ThinAll ts us) :
      ThinAll (.text s :: ts) (.text s' :: us)
  | gone {s : Slice} (h : Thins s.chars []) {ts us : List Token} (rest : ThinAll ts us) :
      ThinAll (.text s :: ts) us

theorem thins_trimmedBetween (earlier : List Token) (s : Slice) (later : List Token) :
    ∃ s', trimmedBetween earlier (.text s) later = .text s' ∧ Thins s.chars s'.chars := by
  unfold trimmedBetween
  cases hb : followsAlone earlier (.text s :: later)
  · cases ha : precedesAlone (.text s :: earlier) later
    · exact ⟨s, rfl, .refl _⟩
    · have hline := precedesAlone_startsLine ha
      simp only [startsLine, Bool.and_eq_true] at hline
      exact ⟨dropIndent s, rfl, thins_dropIndent hline.1⟩
  · have hline := followsAlone_endsLine hb
    simp only [endsLine, Bool.and_eq_true] at hline
    cases ha : precedesAlone (.text s :: earlier) later
    · exact ⟨dropLine s, rfl, thins_dropLine hline.1⟩
    · have hlast := precedesAlone_startsLine ha
      simp only [startsLine, Bool.and_eq_true] at hlast
      exact ⟨dropIndent (dropLine s), rfl,
        (thins_dropLine hline.1).trans (thins_dropIndent (lastLine_dropLine hlast.1))⟩

theorem thinAll_trimmedAfter (earlier later : List Token) :
    ThinAll later ((trimmedAfter earlier later).filter (!isEmptyText ·)) := by
  induction later generalizing earlier with
  | nil => exact .nil
  | cons t later ih =>
    have hrest := ih (t :: earlier)
    cases t with
    | interpolation raw inner span => exact .interpolation raw inner span hrest
    | tag tag span => exact .tag tag span hrest
    | text s =>
      obtain ⟨s', hs', hthins⟩ := thins_trimmedBetween earlier s later
      rw [trimmedAfter, hs', List.filter_cons]
      by_cases hempty : s'.chars = []
      · rw [hempty] at hthins
        simpa only [isEmptyText, hempty, List.isEmpty_nil, Bool.not_true, Bool.false_eq_true,
          if_false] using ThinAll.gone hthins hrest
      · have hkept : (!isEmptyText (.text s')) = true := by simpa [isEmptyText] using hempty
        rw [if_pos hkept]
        exact .text hthins hrest

theorem thinAll_trim (tokens : List Token) : ThinAll tokens (trim tokens) := by
  rw [trim_eq]
  exact thinAll_trimmedAfter [] tokens

end Stencil.Markup
