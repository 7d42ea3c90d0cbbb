import Mathlib.Data.String.Basic
import Stencil.Proofs.Text.Units
import Stencil.Text.Markup

/-!
Escaping by runs and entities is escaping character by character. The text is searched byte by byte,
and runs are cut out by the bytes where they begin and end; none of these lies inside a character.
-/

namespace Stencil

namespace Text

-- The pieces of a text: its characters that have an entity are replaced one by one, and what stands
-- between two of them is one run.
inductive Pieces : List Char → List String → Prop
  | nil : Pieces [] []
  | entity {c : Char} {e : String} {cs : List Char} {ps : List String} (has : entity? c = some e)
      (rest : Pieces cs ps) : Pieces (c :: cs) (e :: ps)
  | run {run cs : List Char} {ps : List String} (nonempty : run ≠ [])
      (plain : ∀ c ∈ run, entity? c = none) (ends : ∀ c ∈ cs.head?, (entity? c).isSome)
      (rest : Pieces cs ps) : Pieces (run ++ cs) (String.ofList run :: ps)

theorem ascii_of_entity {c : Char} {e : String} (h : entity? c = some e) : c.toNat < 0x80 := by
  unfold entity? at h
  split at h <;> first | decide | cases h

theorem entity?_of_wide {c : Char} (h : 0x80 ≤ c.toNat) : entity? c = none := by
  cases he : entity? c with
  | none => rfl
  | some e => exact absurd (ascii_of_entity he) (Nat.not_lt.mpr h)

-- No byte of a character without an entity has one.
theorem entity?_of_mem_units {c : Char} (hc : entity? c = none) :
    ∀ u ∈ units [c], entity? u = none := by
  intro u hu
  by_cases hascii : c.toNat < 0x80
  · rw [units_of_ascii hascii] at hu
    rwa [List.mem_singleton.mp hu]
  · exact entity?_of_wide (le_of_mem_units (Nat.le_of_not_lt hascii) hu)

theorem utf8Len_eq_byteLength (cs : List Char) : String.utf8Len cs = byteLength cs := by
  induction cs with
  | nil => rfl
  | cons c cs ih => rw [String.utf8Len_cons, byteLength_cons, ih, Nat.add_comm]

theorem byteLength_pos {cs : List Char} (h : cs ≠ []) : 0 < byteLength cs := by
  obtain ⟨c, cs, rfl⟩ := List.exists_cons_of_ne_nil h
  have hpos := c.utf8Size_pos
  rw [byteLength_cons]
  omega

theorem runPiece_of_empty (s : String) (n : Nat) : runPiece s n n = [] :=
  if_neg (Nat.lt_irrefl n)

-- A run is cut out where it stands.
theorem runPiece_of_append {before run : List Char} (rest : List Char) (h : run ≠ []) :
    runPiece (String.ofList (before ++ run ++ rest)) (byteLength before)
      (byteLength before + byteLength run) = [String.ofList run] := by
  have hpos := byteLength_pos h
  have hextract := String.extract_of_valid before run rest
  rw [utf8Len_eq_byteLength, utf8Len_eq_byteLength] at hextract
  rw [runPiece, if_pos (by omega), hextract]

-- Bytes without entities make the run longer.
theorem escapeFrom_append (s : String) (start : Nat) {bs : List UInt8}
    (h : ∀ b ∈ bs, entity? (Char.ofUInt8 b) = none) (pos : Nat) (rest : List UInt8) :
    escapeFrom s start pos (bs ++ rest) = escapeFrom s start (pos + bs.length) rest := by
  induction bs generalizing pos with
  | nil => rfl
  | cons b bs ih =>
    have hb := h b List.mem_cons_self
    have hrest := ih (fun d hd => h d (List.mem_cons_of_mem b hd)) (pos + 1)
    rw [List.cons_append, escapeFrom, hb, hrest, List.length_cons, Nat.add_assoc, Nat.add_comm 1]

theorem escapeFrom_of_plain (s : String) (start pos : Nat) {c : Char} (hc : entity? c = none)
    (rest : List UInt8) :
    escapeFrom s start pos (String.utf8EncodeChar c ++ rest) =
      escapeFrom s start (pos + c.utf8Size) rest := by
  have hbytes : ∀ b ∈ String.utf8EncodeChar c, entity? (Char.ofUInt8 b) = none := by
    intro b hb
    refine entity?_of_mem_units hc _ ?_
    simpa [units] using ⟨b, hb, rfl⟩
  rw [escapeFrom_append s start hbytes, String.length_utf8EncodeChar]

theorem escapeFrom_of_entity (s : String) (start pos : Nat) {c : Char} {e : String}
    (hc : entity? c = some e) (rest : List UInt8) :
    escapeFrom s start pos (String.utf8EncodeChar c ++ rest) =
      runPiece s start pos ++ e :: escapeFrom s (pos + 1) (pos + 1) rest := by
  have hascii := ascii_of_entity hc
  have hbyte : String.utf8EncodeChar c = [c.toUInt8] :=
    String.utf8EncodeChar_eq_singleton (utf8Size_of_ascii hascii)
  have hchar : Char.ofUInt8 c.toUInt8 = c := by
    have hunits := units_of_ascii hascii
    simpa [units, hbyte] using hunits
  rw [hbyte, List.singleton_append, escapeFrom, hchar, hc]

-- The induction is on what is still to be scanned. The run in progress has no entity in it.
theorem pieces_escapeFrom (before run rest : List Char)
    (hrun : ∀ c ∈ run, entity? c = none) :
    Pieces (run ++ rest)
      (escapeFrom (String.ofList (before ++ run ++ rest)) (byteLength before)
        (byteLength before + byteLength run) (rest.flatMap String.utf8EncodeChar)) := by
  induction rest generalizing before run with
  | nil =>
    rw [List.flatMap_nil, escapeFrom]
    by_cases hempty : run = []
    · subst hempty
      rw [byteLength_nil, Nat.add_zero, runPiece_of_empty]
      exact .nil
    · rw [runPiece_of_append [] hempty]
      exact .run hempty hrun nofun .nil
  | cons c rest ih =>
    rw [List.flatMap_cons]
    cases hc : entity? c with
    | none =>
      have hlonger : ∀ d ∈ run ++ [c], entity? d = none := by
        intro d hd
        rcases List.mem_append.mp hd with hd | hd
        · exact hrun d hd
        · rwa [List.mem_singleton.mp hd]
      have hrest := ih before (run ++ [c]) hlonger
      rw [byteLength_append, byteLength_cons, byteLength_nil, Nat.add_zero, ← Nat.add_assoc]
        at hrest
      simp only [List.append_assoc, List.singleton_append] at hrest
      rw [escapeFrom_of_plain _ _ _ hc, List.append_assoc]
      exact hrest
    | some e =>
      have hsize : c.utf8Size = 1 := utf8Size_of_ascii (ascii_of_entity hc)
      have hrest := ih (before ++ run ++ [c]) [] nofun
      rw [byteLength_nil, Nat.add_zero, byteLength_append, byteLength_append, byteLength_cons,
        byteLength_nil, hsize] at hrest
      simp only [List.append_assoc, List.nil_append, List.singleton_append] at hrest
      rw [escapeFrom_of_entity _ _ _ hc]
      by_cases hempty : run = []
      · subst hempty
        rw [byteLength_nil, Nat.add_zero, runPiece_of_empty]
        exact .entity hc (by simpa using hrest)
      · rw [runPiece_of_append (c :: rest) hempty]
        refine .run hempty hrun (fun d hd => ?_) (.entity hc (by simpa using hrest))
        obtain rfl : c = d := by simpa using hd
        rw [hc]
        rfl

theorem pieces_escapePieces (s : String) : Pieces s.toList (escapePieces s) := by
  have hpieces := pieces_escapeFrom [] [] s.toList nofun
  simpa [escapePieces, encode] using hpieces

-- What a character is written as.
def escapeChar (c : Char) : List Char := (entity? c).elim [c] String.toList

theorem escapeChar_of_entity {c : Char} {e : String} (h : entity? c = some e) :
    escapeChar c = e.toList := by
  rw [escapeChar, h]
  rfl

theorem escapeChar_of_plain {c : Char} (h : entity? c = none) : escapeChar c = [c] := by
  rw [escapeChar, h]
  rfl

theorem flatMap_escapeChar_of_plain {cs : List Char} (h : ∀ c ∈ cs, entity? c = none) :
    cs.flatMap escapeChar = cs := by
  rw [List.flatMap_congr fun c hc => escapeChar_of_plain (h c hc)]
  exact List.flatMap_singleton' cs

theorem Pieces.join {cs : List Char} {ps : List String} (h : Pieces cs ps) :
    (String.join ps).toList = cs.flatMap escapeChar := by
  induction h with
  | nil => rfl
  | entity has _ ih =>
    rw [String.join_cons, String.toList_append, ih, List.flatMap_cons, escapeChar_of_entity has]
  | run _ plain _ _ ih =>
    rw [String.join_cons, String.toList_append, ih, List.flatMap_append,
      flatMap_escapeChar_of_plain plain, String.toList_ofList]

theorem toList_escapeMarkup (s : String) :
    (escapeMarkup s).toList = s.toList.flatMap escapeChar :=
  (pieces_escapePieces s).join

theorem escapeMarkup_of_plain {s : String} (h : ∀ c ∈ s.toList, entity? c = none) :
    escapeMarkup s = s := by
  rw [← String.toList_inj, toList_escapeMarkup, flatMap_escapeChar_of_plain h]

end Text

end Stencil
