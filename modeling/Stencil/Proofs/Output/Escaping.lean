import Stencil.Proofs.Output.Content
import Stencil.Proofs.Text.Utf8

/-!
Escaping. No escaped text holds a character that could start or end a tag or the value of an
attribute, so that all of these in the output come from fixed text.
-/

namespace Stencil

namespace Text

-- The characters that delimit tags and the values of attributes. No entity has one of them.
def isDelimiter (c : Char) : Bool := c == '<' || c == '>' || c == '"' || c == '\''

def delimiters (s : String) : List Char := s.toList.filter isDelimiter

-- Those of encoded text. Each is encoded as one byte, which no other character has in its form.
def encodedDelimiters (bytes : List UInt8) : List Char :=
  (bytes.map fun b => Char.ofNat b.toNat).filter isDelimiter

theorem delimiters_append (a b : String) : delimiters (a ++ b) = delimiters a ++ delimiters b := by
  simp [delimiters]

theorem encodedDelimiters_append (a b : List UInt8) :
    encodedDelimiters (a ++ b) = encodedDelimiters a ++ encodedDelimiters b := by
  simp [encodedDelimiters]

theorem isDelimiter_escapeChar (c : Char) : (escapeChar c).any isDelimiter = false := by
  unfold escapeChar entity?
  split
  · rfl
  · rfl
  · rfl
  · rfl
  · rfl
  · next hlt hgt hquote happ =>
    have hc : isDelimiter c = false := by
      simp only [isDelimiter, Bool.or_eq_false_iff, beq_eq_false_iff_ne]
      exact ⟨⟨⟨hlt, hgt⟩, hquote⟩, happ⟩
    simp [hc]

theorem delimiters_escapeMarkup (s : String) : delimiters (escapeMarkup s) = [] := by
  rw [delimiters, List.filter_eq_nil_iff]
  intro d hd
  rw [toList_escapeMarkup] at hd
  obtain ⟨c, -, hd⟩ := List.mem_flatMap.mp hd
  exact List.any_eq_false.mp (isDelimiter_escapeChar c) d hd

theorem isDelimiter_of_le {c : Char} (h : 0x80 ≤ c.toNat) : isDelimiter c = false := by
  have hne : ∀ d : Char, d.toNat < 0x80 → c ≠ d := by
    rintro d hd rfl
    omega
  simp only [isDelimiter, Bool.or_eq_false_iff, beq_eq_false_iff_ne]
  exact ⟨⟨⟨hne _ (by decide), hne _ (by decide)⟩, hne _ (by decide)⟩, hne _ (by decide)⟩

theorem isDelimiter_byte {b : UInt8} (h : 0x80 ≤ b.toNat) :
    isDelimiter (Char.ofNat b.toNat) = false := by
  refine isDelimiter_of_le ?_
  have hvalid : b.toNat.isValidChar := .inl (Nat.lt_trans b.toNat_lt (by decide))
  rw [Char.ofNat, dif_pos hvalid]
  exact h

theorem encodedDelimiters_encodeChar (c : Char) :
    encodedDelimiters (String.utf8EncodeChar c) = [c].filter isDelimiter := by
  by_cases h : c.toNat ≤ 0x7f
  · have hbyte : (UInt8.ofNat c.toNat).toNat = c.toNat := toNat_byte (by omega)
    have hencode : String.utf8EncodeChar c = [.ofNat c.toNat] := if_pos h
    rw [hencode, encodedDelimiters, List.map_singleton, hbyte, Char.ofNat_toNat]
  · have hbytes := le_encodeChar (Nat.lt_of_not_le h)
    have hnone : encodedDelimiters (String.utf8EncodeChar c) = [] := by
      rw [encodedDelimiters, List.filter_eq_nil_iff]
      intro d hd
      obtain ⟨b, hb, rfl⟩ := List.mem_map.mp hd
      simp [isDelimiter_byte (hbytes b hb)]
    rw [hnone, List.filter_cons_of_neg (by simp [isDelimiter_of_le (Nat.lt_of_not_le h)]),
      List.filter_nil]

theorem encodedDelimiters_encode (s : String) : encodedDelimiters (encode s) = delimiters s := by
  have hall : ∀ cs : List Char,
      encodedDelimiters (cs.flatMap String.utf8EncodeChar) = cs.filter isDelimiter := by
    intro cs
    induction cs with
    | nil => rfl
    | cons c cs ih =>
        rw [List.flatMap_cons, encodedDelimiters_append, encodedDelimiters_encodeChar, ih,
          ← List.filter_append, List.singleton_append]
  exact hall s.toList

end Text

namespace Piece

def isLiteral : Piece → Bool
  | literal _ => true
  | _ => false

-- The delimiters that a piece adds to a sink.
def delimiters (mode : Mode) (contentType : ContentType) (p : Piece) : List Char :=
  match mode with
  | .text => Text.delimiters (p.text contentType)
  | .bytes => Text.encodedDelimiters (p.bytes contentType)

theorem delimiters_escaped (mode : Mode) (s : String) : (escaped s).delimiters mode .html = [] := by
  cases mode with
  | text => exact Text.delimiters_escapeMarkup s
  | bytes =>
      rw [delimiters, bytes, ContentType.encode_pieces, Text.encodedDelimiters_encode]
      exact Text.delimiters_escapeMarkup s

-- Of pieces of which none is raw, only the literals add any.
theorem flatMap_delimiters {ps : List Piece} (hraw : ∀ s, raw s ∉ ps) (mode : Mode) :
    ps.flatMap (delimiters mode .html) =
      (ps.filter isLiteral).flatMap (delimiters mode .html) := by
  induction ps with
  | nil => rfl
  | cons p ps ih =>
      have hrest := ih fun s hs => hraw s (List.mem_cons_of_mem p hs)
      cases p with
      | literal t =>
          rw [List.filter_cons_of_pos rfl, List.flatMap_cons, List.flatMap_cons, hrest]
      | escaped s => simp [isLiteral, hrest, delimiters_escaped]
      | raw s => exact absurd List.mem_cons_self (hraw s)

end Piece

namespace Sink

def contentType : Sink → ContentType
  | text s => s.contentType
  | bytes s => s.contentType

-- The delimiters in what a sink holds.
def delimiters : Sink → List Char
  | text s => Text.delimiters s.content
  | bytes s => Text.encodedDelimiters s.content

theorem delimiters_appendAll (sink : Sink) (ps : List Piece) :
    (sink.appendAll ps).delimiters =
      sink.delimiters ++ ps.flatMap (Piece.delimiters sink.mode sink.contentType) := by
  cases sink with
  | text s =>
      rw [appendAll, delimiters, Text.delimiters_append]
      simp [Text.delimiters, String.toList_join, List.filter_flatMap, List.flatMap_map]
      rfl
  | bytes s =>
      rw [appendAll, delimiters, Text.encodedDelimiters_append]
      simp [Text.encodedDelimiters, List.map_flatMap, List.filter_flatMap]
      rfl

-- Where nothing is written raw, the delimiters are those that the fixed text alone makes.
theorem delimiters_of_literals {sink : Sink} (h : sink.contentType = .html) {ps : List Piece}
    (hraw : ∀ s, .raw s ∉ ps) :
    (sink.appendAll ps).delimiters = (sink.appendAll (ps.filter Piece.isLiteral)).delimiters := by
  rw [delimiters_appendAll, delimiters_appendAll, h, Piece.flatMap_delimiters hraw]

end Sink

end Stencil
