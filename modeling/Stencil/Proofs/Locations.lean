import Mathlib.Data.List.Induction
import Mathlib.Data.Prod.Lex
import Mathlib.Order.Monotone.Defs
import Stencil.Proofs.Bytewise.Parser

/-!
Locations in a text. Each byte has the location of the character that it belongs to, and this counts
the line breaks before that character and the characters since the last of them. Later bytes have no
earlier locations, and later characters have later ones.
-/

namespace Stencil

-- The characters `before` the one that byte `offset` of a text belongs to. They are all there are
-- if the text ends at or before that byte.
inductive PrecedesByte (cs : List Char) (offset : Nat) (before : List Char) : Prop
  | char {c : Char} {behind : List Char} (text : cs = before ++ c :: behind)
    (le : byteLength before ≤ offset) (lt : offset < byteLength before + c.utf8Size)
  | stop (text : cs = before) (le : byteLength before ≤ offset)

-- Behind some characters, lines are counted by the breaks in them, and columns by the characters
-- that follow the last break.
structure Location.Counts (l : Location) (cs : List Char) : Prop where
  line : l.line = cs.count '\n' + 1
  column : ∃ lines last, cs = lines ++ last ∧ (∀ c ∈ lines.getLast?, c = '\n') ∧ '\n' ∉ last ∧
    l.column = last.length + 1

section Precedes

variable {cs before before' : List Char} {offset : Nat}

theorem precedesByte_charsBefore (cs : List Char) (offset : Nat) :
    PrecedesByte cs offset (charsBefore offset cs) := by
  obtain ⟨rest, hcs, hle, hlt⟩ := Bytewise.charsBefore_spec offset cs
  cases rest with
  | nil => exact .stop (hcs.trans (List.append_nil _)) hle
  | cons c behind => exact .char hcs hle (hlt c behind rfl)

theorem PrecedesByte.eq_charsBefore (h : PrecedesByte cs offset before) :
    before = charsBefore offset cs := by
  induction before generalizing cs offset with
  | nil =>
    cases h with
    | stop hcs => subst hcs; rfl
    | @char c behind hcs _ hlt =>
      have hlt : ¬ c.utf8Size ≤ offset := by simpa using hlt
      rw [hcs, List.nil_append, charsBefore, if_neg hlt]
  | cons d before ih =>
    have hle : d.utf8Size + byteLength before ≤ offset := by cases h <;> assumption
    have hrest : ∃ rest, cs = d :: rest ∧ PrecedesByte rest (offset - d.utf8Size) before := by
      cases h with
      | stop hcs => exact ⟨before, hcs, .stop rfl (by omega)⟩
      | char hcs _ hlt =>
        rw [byteLength_cons] at hlt
        exact ⟨_, hcs, .char rfl (by omega) (by omega)⟩
    obtain ⟨rest, rfl, hrest⟩ := hrest
    rw [charsBefore, if_pos (by omega), ← ih hrest]

theorem precedesByte_iff : PrecedesByte cs offset before ↔ before = charsBefore offset cs :=
  ⟨PrecedesByte.eq_charsBefore, fun h => h ▸ precedesByte_charsBefore cs offset⟩

end Precedes

namespace Location

-- By the line, and on one line by the column.
def key (l : Location) : ℕ ×ₗ ℕ := toLex (l.line, l.column)

theorem key_injective : Function.Injective key := by
  intro a b h
  cases a; cases b
  simpa [key] using h

instance : LinearOrder Location := LinearOrder.lift' key key_injective

theorem lt_iff {a b : Location} :
    a < b ↔ a.line < b.line ∨ (a.line = b.line ∧ a.column < b.column) := Prod.Lex.lt_iff

-- A line break begins a line, and any other character ends in the next column.
theorem after_concat (cs : List Char) (c : Char) : after (cs ++ [c]) =
    if c = '\n' then ⟨(after cs).line + 1, 1⟩ else ⟨(after cs).line, (after cs).column + 1⟩ := by
  by_cases hc : c = '\n' <;> simp [after, hc]

theorem after_lt_concat (cs : List Char) (c : Char) : after cs < after (cs ++ [c]) := by
  rw [after_concat, lt_iff]
  split
  · exact .inl (Nat.lt_succ_self _)
  · exact .inr ⟨rfl, Nat.lt_succ_self _⟩

theorem after_lt_append (cs : List Char) {more : List Char} (hne : more ≠ []) :
    after cs < after (cs ++ more) := by
  induction more using List.reverseRecOn with
  | nil => exact absurd rfl hne
  | append_singleton front c ih =>
    rw [← List.append_assoc]
    have hlast := after_lt_concat (cs ++ front) c
    by_cases hfront : front = []
    · subst hfront
      rwa [List.append_nil] at hlast ⊢
    · exact (ih hfront).trans hlast

theorem after_mono {cs ds : List Char} (h : cs <+: ds) : after cs ≤ after ds := by
  obtain ⟨more, rfl⟩ := h
  by_cases hmore : more = []
  · rw [hmore, List.append_nil]
  · exact (after_lt_append cs hmore).le

theorem prefix_charsBefore {m n : Nat} (h : m ≤ n) (cs : List Char) :
    charsBefore m cs <+: charsBefore n cs := by
  induction cs generalizing m n with
  | nil => exact List.prefix_refl _
  | cons c cs ih =>
    rw [charsBefore, charsBefore]
    split
    · next hm =>
      rw [if_pos (hm.trans h)]
      exact (List.prefix_cons_inj c).mpr (ih (Nat.sub_le_sub_right h _))
    · exact List.nil_prefix

variable {source : String} {m n : Nat}

theorem locate_mono (source : String) (h : m ≤ n) : locate source m ≤ locate source n :=
  after_mono (prefix_charsBefore h _)

theorem locate_lt (h : m < n) (hn : Boundary 0 source.toList n) :
    locate source m < locate source n := by
  obtain ⟨before, behind, hsource, rfl⟩ := hn
  rw [Nat.zero_add] at h ⊢
  obtain ⟨more, hmore⟩ := prefix_charsBefore h.le source.toList
  obtain ⟨-, -, hlength, -⟩ := Bytewise.charsBefore_spec m source.toList
  have hbefore : charsBefore (byteLength before) source.toList = before := by
    rw [hsource, Markup.charsBefore_append]
  unfold locate
  rw [hbefore] at hmore ⊢
  rw [← hmore]
  refine after_lt_append _ ?_
  rintro rfl
  rw [List.append_nil] at hmore
  rw [hmore] at hlength
  omega

-- Where a character begins or the source ends, locations are in order just where bytes are.
theorem locate_le_iff (hm : Boundary 0 source.toList m) :
    locate source m ≤ locate source n ↔ m ≤ n := by
  refine ⟨fun h => ?_, locate_mono source⟩
  by_contra hlt
  exact (locate_lt (Nat.lt_of_not_le hlt) hm).not_ge h

theorem charsBefore_eq_of_locate (hle : m ≤ n) (h : locate source m = locate source n) :
    charsBefore m source.toList = charsBefore n source.toList := by
  obtain ⟨more, hmore⟩ := prefix_charsBefore hle source.toList
  by_cases hnil : more = []
  · rw [← hmore, hnil, List.append_nil]
  · have hlt := after_lt_append (charsBefore m source.toList) hnil
    rw [hmore] at hlt
    exact absurd h hlt.ne

-- Bytes have the same location just if they belong to the same character, or both to none.
theorem locate_eq_iff : locate source m = locate source n ↔
    ∃ before, PrecedesByte source.toList m before ∧ PrecedesByte source.toList n before := by
  simp only [precedesByte_iff, exists_eq_left]
  constructor
  · intro heq
    rcases Nat.le_total m n with hle | hle
    · exact charsBefore_eq_of_locate hle heq
    · exact (charsBefore_eq_of_locate hle heq.symm).symm
  · exact congrArg after

-- The rule of counting leaves one location.
theorem counts_after (cs : List Char) : (after cs).Counts cs := by
  refine ⟨rfl, ?_⟩
  induction cs using List.reverseRecOn with
  | nil => exact ⟨[], [], rfl, by simp, by simp, rfl⟩
  | append_singleton cs c ih =>
    rw [after_concat]
    by_cases hbreak : c = '\n'
    · exact ⟨cs ++ [c], [], by simp, by simpa using hbreak, by simp, by rw [if_pos hbreak]; rfl⟩
    · obtain ⟨lines, last, rfl, hlines, hlast, hcolumn⟩ := ih
      refine ⟨lines, last ++ [c], by simp, hlines, ?_, ?_⟩
      · simpa using ⟨hlast, Ne.symm hbreak⟩
      · rw [if_neg hbreak, hcolumn, List.length_append]
        rfl

-- A text is cut behind its last line break in one way.
theorem length_le_of_lastLine {lines last lines' last' : List Char}
    (h : lines ++ last = lines' ++ last') (hlast : '\n' ∉ last)
    (hlines' : ∀ c ∈ lines'.getLast?, c = '\n') : last.length ≤ last'.length := by
  rcases List.append_eq_append_iff.mp h with ⟨more, rfl, rfl⟩ | ⟨more, -, rfl⟩
  · rcases List.eq_nil_or_concat more with rfl | ⟨front, c, rfl⟩
    · exact Nat.le_refl _
    · obtain rfl : c = '\n' := hlines' c (by simp [← List.append_assoc])
      exact absurd (by simp) hlast
  · simp

theorem Counts.eq_after {l : Location} {cs : List Char} (h : l.Counts cs) : l = after cs := by
  obtain ⟨hline, lines, last, hcs, hlines, hlast, hcolumn⟩ := h
  obtain ⟨hline', lines', last', hcs', hlines', hlast', hcolumn'⟩ := counts_after cs
  have hcut := hcs.symm.trans hcs'
  have hle := length_le_of_lastLine hcut hlast hlines'
  have hge := length_le_of_lastLine hcut.symm hlast' hlines
  have hsame : l.column = (after cs).column := by omega
  exact congrArg₂ Location.mk (hline.trans hline'.symm) hsame

-- Every byte belongs to one character of the text, or is behind all of them, and its location is
-- the one that counts the lines and columns before that character. Later bytes have no earlier
-- locations, and of two places between characters the later one has a later location, so that a
-- location tells the character.
theorem locate_faithful (source : String) :
    (∀ offset, ∃! before, PrecedesByte source.toList offset before) ∧
    (∀ offset before, PrecedesByte source.toList offset before →
      ∀ l : Location, l = locate source offset ↔ l.Counts before) ∧
    Monotone (locate source) ∧
    StrictMonoOn (locate source) {n | Boundary 0 source.toList n} ∧
    ∀ m n, locate source m = locate source n ↔
      ∃ before, PrecedesByte source.toList m before ∧ PrecedesByte source.toList n before := by
  refine ⟨fun offset => ?_, fun offset before hbefore l => ?_, fun m n => locate_mono source,
    fun m _ n hn hlt => locate_lt hlt hn, fun m n => locate_eq_iff⟩
  · exact ⟨_, precedesByte_charsBefore _ _, fun before h => h.eq_charsBefore⟩
  · rw [locate, ← hbefore.eq_charsBefore]
    exact ⟨fun h => h ▸ counts_after before, Counts.eq_after⟩

-- The second byte of a wide character, one behind a line break, and the end of the text.
theorem locate_faithful_wide :
    PrecedesByte "aé\nü".toList 2 ['a'] ∧ locate "aé\nü" 2 = ⟨1, 2⟩ ∧
      locate "aé\nü" 4 < locate "aé\nü" 6 ∧ locate "aé\nü" 5 = locate "aé\nü" 4 := by
  obtain ⟨-, hcounts, -, hstrict, hsame⟩ := locate_faithful "aé\nü"
  have hbyte : PrecedesByte "aé\nü".toList 2 ['a'] :=
    @PrecedesByte.char _ _ _ 'é' ['\n', 'ü'] (by decide) (by decide) (by decide)
  have hspec : Counts ⟨1, 2⟩ ['a'] := ⟨by decide, [], ['a'], rfl, by simp, by decide, rfl⟩
  have hfirst : Boundary 0 "aé\nü".toList 4 := ⟨['a', 'é', '\n'], ['ü'], by decide, by decide⟩
  have hend : Boundary 0 "aé\nü".toList 6 := ⟨"aé\nü".toList, [], by decide, by decide⟩
  have hinside (n : Nat) (hle : 4 ≤ n) (hlt : n < 6) :
      PrecedesByte "aé\nü".toList n ['a', 'é', '\n'] :=
    @PrecedesByte.char _ _ _ 'ü' [] (by decide) hle hlt
  refine ⟨hbyte, ((hcounts 2 _ hbyte _).mpr hspec).symm, hstrict hfirst hend (by decide), ?_⟩
  exact (hsame 5 4).mpr ⟨_, hinside 5 (by decide) (by decide), hinside 4 (by decide) (by decide)⟩

end Location

end Stencil
