import Stencil.Proofs.Bytewise.Code
import Stencil.Proofs.Bytewise.Trimming
import Stencil.Proofs.Template.Places

/-!
Reading a template is safe. Whatever the source, all that is sliced is cut between characters, all
indices are in bounds, and an error points to a place in the source.
-/

namespace Stencil

namespace Bytewise

-- The last place between characters that is not behind byte `n`.
def boundaryBefore (cs : List Char) : Nat → Nat
  | 0 => 0
  | n + 1 => if (dropBytes? (n + 1) cs).isSome then n + 1 else boundaryBefore cs n

-- The location of a byte, by slices of the source.
def locate (source : String) (offset : Nat) : Option Location := do
  let cs := source.toList
  let before ← takeBytes? (boundaryBefore cs (min offset (byteLength cs))) cs
  let lineStart := ((Markup.Bytewise.findLastBreak? before).map (· + 1)).getD 0
  let line ← dropBytes? lineStart before
  return ⟨before.count '\n' + 1, line.length + 1⟩

-- The characters before an offset end where no more of them fit.
theorem charsBefore_spec (offset : Nat) (cs : List Char) :
    ∃ rest, cs = charsBefore offset cs ++ rest ∧ byteLength (charsBefore offset cs) ≤ offset ∧
      ∀ c tail, rest = c :: tail → offset < byteLength (charsBefore offset cs) + c.utf8Size := by
  induction cs generalizing offset with
  | nil => exact ⟨[], rfl, Nat.zero_le _, fun _ _ h => nomatch h⟩
  | cons c cs ih =>
    by_cases hfits : c.utf8Size ≤ offset
    · obtain ⟨rest, hcs, hle, hnext⟩ := ih (offset - c.utf8Size)
      rw [charsBefore, if_pos hfits]
      refine ⟨rest, congrArg (c :: ·) hcs, ?_, fun d tail hrest => ?_⟩
      · rw [byteLength_cons]
        omega
      · have hlt := hnext d tail hrest
        rw [byteLength_cons]
        omega
    · rw [charsBefore, if_neg hfits]
      refine ⟨c :: cs, rfl, Nat.zero_le _, fun d tail hrest => ?_⟩
      obtain ⟨rfl, -⟩ := List.cons.inj hrest
      simpa using hfits

theorem boundaryBefore_eq {cs before : List Char} {n : Nat}
    (hbefore : dropBytes? (byteLength before) cs ≠ none) (hle : byteLength before ≤ n)
    (hnone : ∀ m, byteLength before < m → m ≤ n → dropBytes? m cs = none) :
    boundaryBefore cs n = byteLength before := by
  induction n with
  | zero => exact (Nat.le_zero.1 hle).symm
  | succ n ih =>
    rw [boundaryBefore]
    by_cases heq : byteLength before = n + 1
    · rw [← heq, if_pos (Option.isSome_iff_ne_none.2 hbefore)]
    · rw [hnone (n + 1) (by omega) (Nat.le_refl _), if_neg (by simp)]
      exact ih (by omega) fun m hlt hm => hnone m hlt (by omega)

theorem takeBytes?_charsBefore (offset : Nat) (cs : List Char) :
    takeBytes? (boundaryBefore cs (min offset (byteLength cs))) cs =
      some (charsBefore offset cs) := by
  obtain ⟨rest, hcs, hle, hnext⟩ := charsBefore_spec offset cs
  generalize charsBefore offset cs = before at hcs hle hnext ⊢
  subst hcs
  have hplace : boundaryBefore (before ++ rest) (min offset (byteLength (before ++ rest))) =
      byteLength before := by
    refine boundaryBefore_eq ?_ ?_ fun m hlt hm => ?_
    · rw [dropBytes?_byteLength]
      simp
    · rw [byteLength_append]
      omega
    · refine Option.eq_none_iff_forall_ne_some.2 fun tail hdrop => ?_
      obtain ⟨front, happend, rfl⟩ := dropBytes?_eq_some_iff.1 hdrop
      rcases List.append_eq_append_iff.1 happend with ⟨more, rfl, hrest⟩ | ⟨more, rfl, -⟩
      · cases more with
        | nil => simp at hlt
        | cons c more =>
          have hfits := hnext c (more ++ tail) hrest
          rw [byteLength_append before, byteLength_cons] at hm
          omega
      · rw [byteLength_append] at hlt
        omega
  rw [hplace, takeBytes?_byteLength]

theorem locate_eq (source : String) (offset : Nat) :
    locate source offset = some (Location.locate source offset) := by
  have hcolumn (cs : List Char) :
      (Markup.lastLine cs).length = (cs.reverse.takeWhile (· ≠ '\n')).length := by
    rw [Markup.lastLine, List.length_reverse]
    congr 2
    funext c
    simp [bne, beq_eq_decide]
  unfold locate Location.locate Location.after
  simp only [takeBytes?_charsBefore, Markup.Bytewise.dropBytes?_lastBreak, Option.bind_eq_bind,
    Option.bind_some, hcolumn]
  rfl

end Bytewise

namespace Template

-- The index behind the last declaration among the leading tokens.
def headerEnd (ts : List Markup.Token) : Nat :=
  (((ts.takeWhile isLeading).zipIdx.filter fun (t, _) => isDeclaration t).map
    fun (_, i) => i + 1).getLast?.getD 0

theorem lastIndex_eq (ts : List Markup.Token) :
    ((ts.zipIdx.filter fun (t, _) => isDeclaration t).map fun (_, i) => i + 1).getLast?.getD 0 =
      (ts.rdropWhile (!isDeclaration ·)).length := by
  induction ts using List.reverseRecOn with
  | nil => rfl
  | append_singleton ts t ih =>
    rw [List.zipIdx_append, List.filter_append]
    by_cases ht : isDeclaration t
    · rw [List.rdropWhile_concat_neg _ _ _ (by simp [ht])]
      simp [ht]
    · rw [List.rdropWhile_concat_pos _ _ _ (by simp [ht]), ← ih]
      simp [ht]

-- The header of a template is what stands before that index.
theorem take_headerEnd (ts : List Markup.Token) :
    headerEnd ts ≤ ts.length ∧ ts.take (headerEnd ts) = header ts := by
  have hprefix : header ts <+: ts :=
    (List.rdropWhile_prefix _ _).trans (List.takeWhile_prefix _)
  rw [headerEnd, lastIndex_eq]
  exact ⟨List.IsPrefix.length_le hprefix, (List.prefix_iff_eq_take.1 hprefix).symm⟩

end Template

-- What reading does to a piece of code stays inside of the code: cutting it, taking the text of an
-- integer that does not fit, and going by indices into the table of its tokens.
structure CodeInBounds (source : List Char) (inner : Slice) : Prop where
  cutting : Code.Bytewise.tokens source inner.start inner.stop =
    some (Code.tokens inner.start inner.chars)
  digits : ∀ ts, Code.tokens inner.start inner.chars = .ok ts → ∀ t ∈ ts, ∀ m digits,
    t.token = .int m digits →
      sliceBytes? t.span.start t.span.stop source = some digits.toList
  indices : ∀ ts, Code.tokens inner.start inner.chars = .ok ts → ∀ i ≤ ts.length, ∀ nextId,
    Code.Bytewise.Sees ts ⟨ts.drop i, inner.stop, nextId⟩ i

-- All that reading a source slices is cut between characters, and all indices are in bounds: in the
-- lexer, in trimming, in the header, in all code, and in the search for the location of an error.
structure ReadsInBounds (source : String) : Prop where
  lexer : Markup.Bytewise.tokens source.toList = some (Markup.tokens source.toList)
  trimming : ∀ tokens, Markup.tokens source.toList = .ok tokens →
    Markup.Bytewise.trim tokens = some (Markup.trim tokens)
  header : ∀ ts, Template.headerEnd ts ≤ ts.length ∧
    ts.take (Template.headerEnd ts) = Template.header ts
  code : ∀ tokens, Markup.tokens source.toList = .ok tokens → ∀ token ∈ tokens, ∀ inner span,
    token.code? = some (inner, span) → CodeInBounds source.toList inner
  location : ∀ offset, Bytewise.locate source offset = some (Location.locate source offset)

theorem codeInBounds_of_liesIn {source : List Char} {inner : Slice} (h : inner.LiesIn source) :
    CodeInBounds source inner where
  cutting := Code.Bytewise.tokens_eq h
  digits ts hts := by
    obtain ⟨before, after, hsource, hstart⟩ := h
    have hdrop : dropBytes? inner.start source = some (inner.chars ++ after) := by
      rw [hsource, hstart, List.append_assoc, dropBytes?_byteLength]
    exact Code.Bytewise.slice_of_int hts hdrop
  indices ts _ _ hi nextId := Code.Bytewise.sees_drop hi inner.stop nextId

theorem readsInBounds (source : String) : ReadsInBounds source where
  lexer := Markup.Bytewise.tokens_eq source.toList
  trimming tokens _ := Markup.Bytewise.trim_eq tokens
  header := Template.take_headerEnd
  code _ htokens _ hmem _ _ hcode :=
    codeInBounds_of_liesIn ((Markup.tiles_of_tokens htokens).code_liesIn hmem hcode).1
  location := Bytewise.locate_eq source

namespace Template

-- Reading any source, trimmed or not, slices and indexes in bounds only. It gives a template, or an
-- error whose offset is in the source and between two of its characters, with the location of that
-- offset.
theorem parse_in_bounds (source : String) (trimLines : Bool) :
    ReadsInBounds source ∧
    ((∃ t, parse source trimLines = .ok t) ∨
      ∃ e, parse source trimLines = .error e ∧ e.offset ≤ byteLength source.toList ∧
        Boundary 0 source.toList e.offset ∧ e.location = Location.locate source e.offset) := by
  refine ⟨readsInBounds source, ?_⟩
  cases hparse : parse source trimLines with
  | ok t => exact .inl ⟨t, rfl⟩
  | error e =>
    obtain ⟨hplace, hlocation⟩ := boundary_of_parse hparse
    have hle := hplace.le
    rw [Nat.zero_add] at hle
    exact .inr ⟨e, rfl, hle, hplace, hlocation⟩

-- A backslash before a character of two bytes, behind another one.
example : (parse "é $\x7b'\\ü'\x7d" true).map (fun _ => ()) =
    .error ⟨.invalidEscape 'ü', 6, ⟨1, 6⟩⟩ := by cbv

end Template

end Stencil
