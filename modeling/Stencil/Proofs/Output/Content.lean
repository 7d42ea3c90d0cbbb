import Stencil.Output.Sink
import Stencil.Proofs.Text.Runs

/-!
Output in which no two pieces of fixed text of one form stand side by side, and none is empty. What
is written to a sink does not depend on where its fixed text is cut.

What a sink holds in the end. The two modes show the same: a byte sink holds the encoded form of
what a text sink holds.
-/

namespace Stencil

namespace Text

theorem encode_append (a b : String) : encode (a ++ b) = encode a ++ encode b := by
  simp [encode]

theorem isEmpty_encode (s : String) : (encode s).isEmpty = s.isEmpty := by
  have hchar (c : Char) : String.utf8EncodeChar c ≠ [] := by
    intro h
    have hsize := String.length_utf8EncodeChar c
    have hpos := c.utf8Size_pos
    simp [h] at hsize
    omega
  rw [Bool.eq_iff_iff, List.isEmpty_iff, String.isEmpty_iff, encode, List.flatMap_eq_nil_iff,
    ← String.toList_eq_nil_iff, List.eq_nil_iff_forall_not_mem]
  exact ⟨fun h c hc => hchar c (h c hc), fun h c hc => absurd hc (h c)⟩

end Text

namespace StaticText

def isEmpty : StaticText → Bool
  | text s => s.isEmpty
  | encoded bytes => bytes.isEmpty

-- Two texts of one form as one.
def append? : StaticText → StaticText → Option StaticText
  | text a, text b => some (text (a ++ b))
  | encoded a, encoded b => some (encoded (a ++ b))
  | _, _ => none

theorem isEmpty_ofString (mode : Mode) (s : String) : (ofString mode s).isEmpty = s.isEmpty := by
  cases mode with
  | text => rfl
  | bytes => exact Text.isEmpty_encode s

theorem append?_ofString (mode : Mode) (a b : String) :
    (ofString mode a).append? (ofString mode b) = some (ofString mode (a ++ b)) := by
  cases mode with
  | text => rfl
  | bytes => simp [ofString, append?, Text.encode_append]

-- Whether texts go together is a matter of their forms.
theorem append?_append (mode : Mode) (t : StaticText) (a b : String) :
    (t.append? (ofString mode a) = none ∧ t.append? (ofString mode (a ++ b)) = none) ∨
      ∃ u v, t.append? (ofString mode a) = some u ∧ u.append? (ofString mode b) = some v ∧
        t.append? (ofString mode (a ++ b)) = some v := by
  cases mode <;> cases t <;> simp [ofString, append?, Text.encode_append, String.append_assoc]

end StaticText

namespace Piece

-- Adds fixed text to pieces, of which the latest is first.
def addLiteral (t : StaticText) : List Piece → List Piece
  | literal u :: rest =>
    match u.append? t with
    | some v => literal v :: rest
    | none => literal t :: literal u :: rest
  | pieces => literal t :: pieces

def addTo (pieces : List Piece) : Piece → List Piece
  | literal t => if t.isEmpty then pieces else addLiteral t pieces
  | p => p :: pieces

def merged (pieces : List Piece) : List Piece := (pieces.foldl addTo []).reverse

theorem merged_append_congr {ps qs : List Piece} (h : merged ps = merged qs) (rs : List Piece) :
    merged (ps ++ rs) = merged (qs ++ rs) := by
  have hfold : ps.foldl addTo [] = qs.foldl addTo [] := List.reverse_inj.mp h
  simp [merged, hfold]

theorem addTo_empty (mode : Mode) (ps : List Piece) :
    addTo ps (literal (.ofString mode "")) = ps := by
  simp [addTo, StaticText.isEmpty_ofString]

theorem addLiteral_addLiteral (mode : Mode) (ps : List Piece) (a b : String) :
    addLiteral (.ofString mode b) (addLiteral (.ofString mode a) ps) =
      addLiteral (.ofString mode (a ++ b)) ps := by
  have hself := StaticText.append?_ofString mode a b
  cases ps with
  | nil => simp [addLiteral, hself]
  | cons p ps =>
      cases p with
      | escaped s => simp [addLiteral, hself]
      | raw s => simp [addLiteral, hself]
      | literal t =>
          obtain ⟨ha, hab⟩ | ⟨u, v, ha, hb, hab⟩ := StaticText.append?_append mode t a b
          · simp [addLiteral, ha, hab, hself]
          · simp [addLiteral, ha, hb, hab]

theorem addTo_addTo (mode : Mode) (ps : List Piece) (a b : String) :
    addTo (addTo ps (literal (.ofString mode a))) (literal (.ofString mode b)) =
      addTo ps (literal (.ofString mode (a ++ b))) := by
  by_cases ha : a = ""
  · subst ha
    simp [addTo_empty]
  by_cases hb : b = ""
  · subst hb
    simp [addTo_empty]
  have hab : a ++ b ≠ "" := by
    intro h
    exact ha (String.append_eq_empty_iff.mp h).1
  simp [addTo, StaticText.isEmpty_ofString, ha, hb, hab, addLiteral_addLiteral]

-- Fixed text may be added in parts.
theorem merged_append_literals (mode : Mode) (ps : List Piece) (a b : String) :
    merged (ps ++ [literal (.ofString mode a), literal (.ofString mode b)]) =
      merged (ps ++ [literal (.ofString mode (a ++ b))]) := by
  simp [merged, addTo_addTo]

theorem merged_append_empty (mode : Mode) (ps : List Piece) :
    merged (ps ++ [literal (.ofString mode "")]) = merged ps := by
  simp [merged, addTo_empty]

end Piece

theorem Text.encode_join (ps : List String) : encode (String.join ps) = ps.flatMap encode := by
  induction ps with
  | nil => rfl
  | cons p ps ih => rw [String.join_cons, encode_append, ih, List.flatMap_cons]

-- A byte sink is given what a text sink is given, encoded piece by piece.
theorem ContentType.encode_pieces (contentType : ContentType) (s : String) :
    (contentType.pieces s).flatMap Text.encode = Text.encode (contentType.treat s) := by
  cases contentType with
  | html => exact (Text.encode_join _).symm
  | plain => exact List.flatMap_singleton _ _

namespace Piece

variable {contentType : ContentType} {acc ps : List Piece} {p : Piece}

-- The text of pieces that follow each other.
def content (contentType : ContentType) (pieces : List Piece) : String :=
  String.join (pieces.map (text contentType))

@[simp] theorem content_cons :
    content contentType (p :: ps) = p.text contentType ++ content contentType ps := by
  simp [content]

@[simp] theorem content_append (ps qs : List Piece) :
    content contentType (ps ++ qs) = content contentType ps ++ content contentType qs := by
  simp [content]

-- A piece is left out, is added, or is joined to the latest one.
theorem addTo_cases (acc : List Piece) (p : Piece) :
    (∃ t, p = literal t ∧ t.isEmpty = true ∧ addTo acc p = acc) ∨
      addTo acc p = p :: acc ∨
      ∃ t u v rest, p = literal t ∧ acc = literal u :: rest ∧ u.append? t = some v ∧
        addTo acc p = literal v :: rest := by
  cases p with
  | escaped s => exact .inr (.inl rfl)
  | raw s => exact .inr (.inl rfl)
  | literal t =>
      by_cases ht : t.isEmpty = true
      · exact .inl ⟨t, rfl, ht, by simp [addTo, ht]⟩
      · have hadd : addTo acc (literal t) = addLiteral t acc := by simp [addTo, ht]
        rw [hadd]
        unfold addLiteral
        split
        · next u rest =>
          cases hv : u.append? t with
          | none => exact .inr (.inl rfl)
          | some v => exact .inr (.inr ⟨t, u, v, rest, rfl, rfl, hv, rfl⟩)
        · exact .inr (.inl rfl)

theorem bytes_of_isEmpty {t : StaticText} (h : t.isEmpty = true) :
    (literal t).bytes contentType = [] := by
  cases t with
  | text s =>
      obtain rfl := String.isEmpty_iff.mp h
      rfl
  | encoded bs => exact List.isEmpty_iff.mp h

theorem bytes_of_append? {t u v : StaticText} (h : u.append? t = some v) :
    (literal v).bytes contentType =
      (literal u).bytes contentType ++ (literal t).bytes contentType := by
  cases u <;> cases t <;> cases h
  · exact Text.encode_append _ _
  · rfl

theorem flatMap_bytes_addTo (acc : List Piece) (p : Piece) :
    (addTo acc p).reverse.flatMap (bytes contentType) =
      acc.reverse.flatMap (bytes contentType) ++ p.bytes contentType := by
  obtain ⟨t, rfl, ht, h⟩ | h | ⟨t, u, v, rest, rfl, rfl, hv, h⟩ := addTo_cases acc p
  · simp [h, bytes_of_isEmpty ht]
  · simp [h]
  · simp [h, bytes_of_append? hv]

theorem flatMap_bytes_foldl (acc ps : List Piece) :
    (ps.foldl addTo acc).reverse.flatMap (bytes contentType) =
      acc.reverse.flatMap (bytes contentType) ++ ps.flatMap (bytes contentType) := by
  induction ps generalizing acc with
  | nil => simp
  | cons p ps ih =>
      rw [List.foldl_cons, ih, flatMap_bytes_addTo]
      simp

theorem flatMap_bytes_merged (ps : List Piece) :
    (merged ps).flatMap (bytes contentType) = ps.flatMap (bytes contentType) := by
  exact flatMap_bytes_foldl [] ps

-- Not fixed text in encoded form.
def isPlain : Piece → Bool
  | literal t => !t.isEncoded
  | _ => true

theorem text_of_append? (contentType : ContentType) {t u v : StaticText} (h : u.append? t = some v)
    (hv : (literal v).isPlain = true) :
    (literal u).isPlain = true ∧ (literal t).isPlain = true ∧
      (literal v).text contentType =
        (literal u).text contentType ++ (literal t).text contentType := by
  cases u <;> cases t <;> cases h
  · exact ⟨rfl, rfl, rfl⟩
  · cases hv

theorem text_of_isEmpty {t : StaticText} (h : t.isEmpty = true) :
    (literal t).text contentType = "" := by
  cases t with
  | text s => exact String.isEmpty_iff.mp h
  | encoded bs =>
      obtain rfl := List.isEmpty_iff.mp h
      rfl

-- Encoded text shows up unless it is empty.
theorem content_addTo (contentType : ContentType) (h : (addTo acc p).all isPlain = true) :
    acc.all isPlain = true ∧
      content contentType (addTo acc p).reverse =
        content contentType acc.reverse ++ p.text contentType := by
  obtain ⟨t, rfl, ht, heq⟩ | heq | ⟨t, u, v, rest, rfl, rfl, hv, heq⟩ := addTo_cases acc p
  · rw [heq] at h ⊢
    simp [h, text_of_isEmpty ht]
  · rw [heq] at h ⊢
    simp only [List.all_cons, Bool.and_eq_true] at h
    simp [h, content]
  · rw [heq] at h ⊢
    simp only [List.all_cons, Bool.and_eq_true] at h
    obtain ⟨hu, ht, htext⟩ := text_of_append? contentType hv h.1
    simp [hu, h.2, htext, content, String.append_assoc]

theorem content_foldl (contentType : ContentType) (h : (ps.foldl addTo acc).all isPlain = true) :
    acc.all isPlain = true ∧
      content contentType (ps.foldl addTo acc).reverse =
        content contentType acc.reverse ++ content contentType ps := by
  induction ps generalizing acc with
  | nil => simpa [content] using h
  | cons p ps ih =>
      obtain ⟨hplain, hrest⟩ := ih h
      obtain ⟨hacc, hfirst⟩ := content_addTo contentType hplain
      refine ⟨hacc, ?_⟩
      rw [List.foldl_cons, hrest, hfirst, content_cons, String.append_assoc]

theorem content_merged (h : (merged ps).all isPlain = true) :
    content contentType (merged ps) = content contentType ps := by
  have hfold : (ps.foldl addTo []).all isPlain = true := by simpa [merged] using h
  simpa [merged, content] using (content_foldl contentType hfold).2

theorem isPlain_addTo (hacc : acc.all isPlain = true) (hp : p.isPlain = true) :
    (addTo acc p).all isPlain = true := by
  obtain ⟨t, rfl, -, h⟩ | h | ⟨t, u, v, rest, rfl, rfl, hv, h⟩ := addTo_cases acc p
  · rw [h, hacc]
  · simp [h, hacc, hp]
  · rw [h]
    simp only [List.all_cons, Bool.and_eq_true] at hacc ⊢
    refine ⟨?_, hacc.2⟩
    cases u <;> cases t <;> cases hv
    · rfl
    · exact hacc.1

theorem isPlain_merged (h : ps.all isPlain = true) : (merged ps).all isPlain = true := by
  have hfold : ∀ acc, acc.all isPlain = true → (ps.foldl addTo acc).all isPlain = true := by
    induction ps with
    | nil => exact fun _ hacc => hacc
    | cons p ps ih =>
        intro acc hacc
        simp only [List.all_cons, Bool.and_eq_true] at h
        exact ih h.2 _ (isPlain_addTo hacc h.1)
  simpa [merged] using hfold [] rfl

-- The form of output in a mode.
def inMode (mode : Mode) : Piece → Piece
  | literal (.text s) => literal (.ofString mode s)
  | literal (.encoded bytes) => literal (.ofString mode (Text.decodeLossy bytes))
  | p => p

theorem text_inMode (p : Piece) : (p.inMode .text).text contentType = p.text contentType := by
  cases p with
  | literal t => cases t <;> rfl
  | escaped s => rfl
  | raw s => rfl

theorem bytes_inMode (p : Piece) :
    (p.inMode .bytes).bytes contentType = Text.encode (p.text contentType) := by
  cases p with
  | literal t => cases t <;> rfl
  | escaped s => exact contentType.encode_pieces s
  | raw s => rfl

theorem isPlain_inMode (p : Piece) : (p.inMode .text).isPlain = true := by
  cases p with
  | literal t => cases t <;> rfl
  | escaped s => rfl
  | raw s => rfl

theorem content_inMode (ps : List Piece) :
    content contentType (ps.map (inMode .text)) = content contentType ps := by
  simp [content, Function.comp_def, text_inMode]

theorem flatMap_bytes_inMode (ps : List Piece) :
    (ps.map (inMode .bytes)).flatMap (bytes contentType) =
      Text.encode (content contentType ps) := by
  induction ps with
  | nil => rfl
  | cons p ps ih =>
      rw [List.map_cons, List.flatMap_cons, bytes_inMode, ih, content_cons, Text.encode_append]

end Piece

namespace Sink

open Piece

variable {ps qs : List Piece} {contentType : ContentType}

-- What is written in text mode.
theorem appendAll_text (h : merged ps = merged (qs.map (inMode .text))) (before : String) :
    (text ⟨contentType, before⟩).appendAll ps =
      text ⟨contentType, before ++ content contentType qs⟩ := by
  have hplain : (merged (qs.map (inMode .text))).all isPlain = true := by
    refine isPlain_merged ?_
    simp [isPlain_inMode]
  have hcontent : content contentType ps = content contentType qs := by
    rw [← content_merged (h ▸ hplain), h, content_merged hplain, content_inMode]
  rw [← hcontent]
  rfl

-- What is written in byte mode.
theorem appendAll_bytes (h : merged ps = merged (qs.map (inMode .bytes))) (before : List UInt8) :
    (bytes ⟨contentType, before⟩).appendAll ps =
      bytes ⟨contentType, before ++ Text.encode (content contentType qs)⟩ := by
  have hbytes : ps.flatMap (Piece.bytes contentType) = Text.encode (content contentType qs) := by
    rw [← flatMap_bytes_merged, h, flatMap_bytes_merged, flatMap_bytes_inMode]
  rw [← hbytes]
  rfl

end Sink

end Stencil
