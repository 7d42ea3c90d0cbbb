import Stencil.Proofs.Markup.Prefixes
import Stencil.Proofs.Template.Extents

/-!
A template that is refused, and the same with more behind it. What is read first is refused first,
so the fault stays; but a source is cut before anything in it is read, so a fault in the cutting of
what is added comes before it.
-/

namespace Stencil

-- The places of a text are places of a longer one, with the same locations.
theorem Boundary.append {pos n : Nat} {cs : List Char} (h : Boundary pos cs n)
    (more : List Char) : Boundary pos (cs ++ more) n := by
  obtain ⟨before, after, rfl, hn⟩ := h
  exact ⟨before, after ++ more, List.append_assoc _ _ _, hn⟩

theorem Location.locate_append {u : String} {n : Nat} (h : Boundary 0 u.toList n) (v : String) :
    locate (u ++ v) n = locate u n := by
  obtain ⟨before, after, hsource, hn⟩ := h
  rw [Nat.zero_add] at hn
  rw [locate, locate, String.toList_append, hsource, hn, List.append_assoc,
    Markup.charsBefore_append, Markup.charsBefore_append]

theorem Slice.LiesIn.append {s : Slice} {cs : List Char} (h : s.LiesIn cs) (more : List Char) :
    s.LiesIn (cs ++ more) := by
  obtain ⟨before, after, rfl, hstart⟩ := h
  exact ⟨before, after ++ more, by simp, hstart⟩

namespace Template

open Markup

section Tokens

variable {ts : List Token} {t : Token} {fault : Fault}

-- The automaton refuses some tokens, whatever follows them, or it passes them.
theorem Blocks.run_append (blocks : List OpenBlock) (n : Nat) (us : List Token) :
    (∃ fault, ∀ vs, run blocks n (us ++ vs) = .error fault) ∨
      ∃ blocks' n' items, ∀ vs, run blocks n (us ++ vs) = (run blocks' n' vs).after items := by
  induction us generalizing blocks n with
  | nil => exact .inr ⟨blocks, n, [], fun vs => (Reading.after_nil _).symm⟩
  | cons u us ih =>
    simp only [List.cons_append, run_eq_bind]
    cases step blocks u with
    | error fault => exact .inl ⟨fault, fun vs => rfl⟩
    | ok blocks' =>
      simp only [Except.bind]
      cases readToken n u with
      | error fault => exact .inl ⟨fault, fun vs => rfl⟩
      | ok read =>
        obtain ⟨items, m⟩ := read
        dsimp only
        rcases ih blocks' m with ⟨fault, hrun⟩ | ⟨last, k, items', hrun⟩
        · exact .inl ⟨fault, fun vs => by rw [hrun]; rfl⟩
        · exact .inr ⟨last, k, items ++ items', fun vs => by rw [hrun, Reading.after_after]⟩

-- A header ends in front of what no header has.
theorem header_append (ht : isLeading t = false) (vs : List Token) :
    header (ts ++ t :: vs) = header ts := by
  have hrun : (ts ++ t :: vs).takeWhile isLeading = ts.takeWhile isLeading := by
    induction ts with
    | nil => exact List.takeWhile_cons_of_neg (by simp [ht])
    | cons u ts ih =>
      by_cases hu : isLeading u
      · rw [List.cons_append, List.takeWhile_cons_of_pos hu, List.takeWhile_cons_of_pos hu, ih]
      · rw [List.cons_append, List.takeWhile_cons_of_neg hu, List.takeWhile_cons_of_neg hu]
  rw [header, hrun, header]

theorem behindHeader_append (ht : isLeading t = false) (vs : List Token) :
    behindHeader (ts ++ t :: vs) = behindHeader ts ++ t :: vs := by
  have hle : (header ts).length ≤ ts.length :=
    ((List.rdropWhile_prefix _ _).trans (List.takeWhile_prefix _)).length_le
  rw [behindHeader, header_append ht, List.drop_append_of_le_length hle, behindHeader]

-- Apart from blocks that are still open, what is refused is refused with more behind it.
theorem readTemplate_append (ht : isLeading t = false)
    (h : readTemplate (ts ++ [t]) = .error fault)
    (hopen : ∀ kind, fault.defect ≠ .unclosedBlock kind) (vs : List Token) :
    readTemplate (ts ++ t :: vs) = .error fault := by
  rw [readTemplate_eq_bind, header_append ht, behindHeader_append ht] at h ⊢
  cases hheader : readHeader 0 (header ts) with
  | error fault' =>
    rw [hheader] at h
    exact h
  | ok read =>
    obtain ⟨params, n⟩ := read
    rw [hheader] at h
    have hlast := List.append_nil (behindHeader ts ++ [t])
    have hmore : behindHeader ts ++ t :: vs = (behindHeader ts ++ [t]) ++ vs := by simp
    rw [← hlast] at h
    rw [hmore]
    simp only [Except.bind] at h ⊢
    rcases Blocks.run_append [] n (behindHeader ts ++ [t]) with
      ⟨fault', hrun⟩ | ⟨blocks, m, items, hrun⟩
    · rw [hrun] at h ⊢
      exact h
    · rw [hrun] at h
      -- All tokens were passed, so that only a block which is open can be the fault.
      cases blocks with
      | nil => cases h
      | cons block outer =>
        obtain rfl : _ = fault := Except.error.inj h
        exact absurd rfl (hopen block.kind)

-- Trimming does not matter for what is refused.
theorem ofTokens_eq_error_iff (hordered : Builder.Ordered ts) (trimLines : Bool) :
    ofTokens (if trimLines then trim ts else ts) = .error fault ↔
      readTemplate ts = .error fault := by
  have hsame : ofTokens (if trimLines then trim ts else ts) = .error fault ↔
      ofTokens ts = .error fault := by
    cases trimLines with
    | false => rfl
    | true =>
      rcases ofTokens_thinAll (thinAll_trim ts) with
        ⟨fault', hfull, hthin⟩ | ⟨full, thin, hfull, hthin, -⟩
      · rw [if_pos rfl, hfull, hthin]
      · rw [if_pos rfl, hfull, hthin]
        simp only [reduceCtorEq]
  rw [hsame]
  rcases ofTokens_cases hordered with ⟨fault', hof, hread⟩ | ⟨template, items, hof, hread, -⟩
  · rw [hof, hread]
    simp only [Except.error.injEq]
  · rw [hof, hread]
    simp only [reduceCtorEq]

-- No fault is reported behind the last code, which the closer follows.
theorem boundary_of_readTemplate_lt {cs : List Char} (hcut : tokens cs = .ok (ts ++ [t]))
    (ht : t.isEnclosed) (h : readTemplate (ts ++ [t]) = .error fault) :
    Boundary 0 cs fault.offset ∧ fault.offset < byteLength cs := by
  obtain ⟨before, m, rfl, hbefore, hm⟩ := (tiles_of_tokens hcut).exists_last
  obtain ⟨opener, inner, closer, span, rfl, hstart, hcode, -⟩ := hm.exists_closer ht
  rw [Nat.zero_add] at hm hstart
  have hmarked : Marked (before ++ (opener ++ inner.chars)) (ts ++ [t]) := by
    constructor
    · intro tag span' hmem
      rcases List.mem_append.1 hmem with hmem | hmem
      · exact ((marked_of_tiles hbefore).start tag span' hmem).append _
      · obtain rfl := List.mem_singleton.1 hmem
        exact ⟨before, opener ++ inner.chars, rfl, by rw [hm.tag_span.1, Nat.zero_add]⟩
    · intro token hmem inner' span' hcode'
      rcases List.mem_append.1 hmem with hmem | hmem
      · exact ((marked_of_tiles hbefore).code token hmem inner' span' hcode').append _
      · obtain rfl := List.mem_singleton.1 hmem
        obtain ⟨rfl, -⟩ := Prod.mk.inj (Option.some.inj (hcode.symm.trans hcode'))
        exact ⟨before ++ opener, [], by simp, by rw [hstart, byteLength_append]⟩
  have hplace := boundary_of_readTemplate hmarked h
  have hle := hplace.le
  have hcloser := closer.utf8Size_pos
  rw [← List.append_assoc before]
  refine ⟨hplace.append [closer], ?_⟩
  simp only [byteLength_append, byteLength_cons, byteLength_nil] at hle ⊢
  omega

end Tokens

section Sources

variable {source : String} {ts : List Token} {trimLines : Bool} {e : SyntaxError}

-- A source that can be cut is refused where its tokens are.
theorem parse_eq_error_iff (h : tokens source.toList = .ok ts) :
    parse source trimLines = .error e ↔
      ∃ fault, readTemplate ts = .error fault ∧ SyntaxError.ofFault source fault = e := by
  have hordered := Builder.ordered_of_tiles (tiles_of_tokens h)
  simp only [parse_of_tokens h, ← ofTokens_eq_error_iff hordered trimLines]
  cases ofTokens (if trimLines then trim ts else ts) with
  | error fault => simp [Except.mapError]
  | ok template => simp [Except.mapError]

end Sources

-- The source ends with the closer of its last token. What is refused in it is refused in the same
-- way with more behind it exactly where what is added can be cut into tokens. Where that cannot be
-- cut, its own fault is reported, which lies behind the one that comes first.
theorem parse_append_eq_error_iff {u : String} {ts : List Token} {t : Token}
    (hcut : tokens u.toList = .ok (ts ++ [t])) (ht : t.isEnclosed) {trimLines : Bool}
    {e : SyntaxError} (h : parse u trimLines = .error e)
    (hopen : ∀ kind, e.defect ≠ .unclosedBlock kind) (v : String) :
    (parse (u ++ v) trimLines = .error e ↔ ∃ vs, tokens v.toList = .ok vs) ∧
      ∀ fault, tokens v.toList = .error fault → parse (u ++ v) trimLines =
        .error (.ofFault (u ++ v) (fault.moved (byteLength u.toList))) := by
  obtain ⟨first, hread, rfl⟩ := (parse_eq_error_iff hcut).1 h
  obtain ⟨hplace, hlt⟩ := boundary_of_readTemplate_lt hcut ht hread
  have hrefused (fault : Fault) (hv : tokens v.toList = .error fault) :
      parse (u ++ v) trimLines =
        .error (.ofFault (u ++ v) (fault.moved (byteLength u.toList))) := by
    refine parse_of_error ?_ trimLines
    rw [String.toList_append]
    exact tokens_append_of_error hcut ht hv
  refine ⟨⟨fun hsame => ?_, fun ⟨vs, hvs⟩ => ?_⟩, hrefused⟩
  · cases hv : tokens v.toList with
    | ok vs => exact ⟨vs, rfl⟩
    | error fault =>
      rw [hrefused fault hv] at hsame
      have hoffset : byteLength u.toList + fault.offset = first.offset :=
        congrArg SyntaxError.offset (Except.error.inj hsame)
      omega
  · obtain ⟨us, hus⟩ := tokens_append_of_ok hcut ht hvs
    rw [← String.toList_append] at hus
    have hleading : isLeading t = false := by
      cases t with
      | text => cases ht
      | interpolation => rfl
      | tag tag span => cases tag <;> first | rfl | cases ht
    refine (parse_eq_error_iff hus).2 ⟨first, readTemplate_append hleading hread hopen us, ?_⟩
    rw [SyntaxError.ofFault, Location.locate_append hplace, SyntaxError.ofFault]

def emptyInterpolation : Token := .interpolation false ⟨2, []⟩ ⟨0, 3⟩

-- The error of an empty interpolation at the front of a source.
def emptyFirst : SyntaxError := ⟨.emptyExpression, 2, ⟨1, 3⟩⟩

theorem tokens_empty : tokens "$\x7b\x7d".toList = .ok ([] ++ [emptyInterpolation]) := by
  decide +kernel

theorem readToken_empty : readToken 0 emptyInterpolation = .error ⟨.emptyExpression, 2⟩ := by
  have hread : Code.completeExpression.runOn ⟨2, []⟩ 0 = .error ⟨.emptyExpression, 2⟩ := by
    rw [Code.Reader.runOn, Code.tokens]
    rfl
  change (Code.completeExpression.runOn ⟨2, []⟩ 0).map _ = _
  rw [hread]
  rfl

theorem parse_empty : parse "$\x7b\x7d" false = .error emptyFirst := by
  refine (parse_eq_error_iff tokens_empty).2 ⟨⟨.emptyExpression, 2⟩, ?_, by decide +kernel⟩
  change ((readToken 0 emptyInterpolation).bind _).bind _ = _
  rw [readToken_empty]
  rfl

theorem parse_append_empty :
    parse ("$\x7b\x7d" ++ "@end") false = .error emptyFirst ∧
      parse ("$\x7b\x7d" ++ "$\x7b") false =
        .error ⟨.unterminatedInterpolation, 3, ⟨1, 4⟩⟩ := by
  have happend := parse_append_eq_error_iff tokens_empty rfl parse_empty nofun
  have hclose : tokens "@end".toList = .ok [.tag .close ⟨0, 4⟩] := by decide +kernel
  have hopener : tokens "$\x7b".toList = .error ⟨.unterminatedInterpolation, 0⟩ := by
    decide +kernel
  refine ⟨(happend "@end").1.2 ⟨_, hclose⟩, ?_⟩
  rw [(happend "$\x7b").2 _ hopener]
  exact congrArg Except.error (by decide +kernel)

-- Is the error in the last token of a source reported whatever follows the source?
def FirstFaultReported : Prop :=
  ∀ (u v : String) (ts : List Token) (t : Token) (span : Span) (trimLines : Bool)
    (e : SyntaxError), tokens u.toList = .ok (ts ++ [t]) → t.isEnclosed →
    t.extent? = some span → parse u trimLines = .error e → span.start ≤ e.offset →
    (∀ kind, e.defect ≠ .unclosedBlock kind) →
      ∃ e', parse (u ++ v) trimLines = .error e' ∧ e'.defect = e.defect ∧ e'.offset = e.offset

theorem not_firstFaultReported : ¬ FirstFaultReported := by
  intro h
  obtain ⟨e, he, hdefect, -⟩ :=
    h "$\x7b\x7d" "$\x7b" [] emptyInterpolation ⟨0, 3⟩ false emptyFirst tokens_empty rfl rfl
      parse_empty (by decide) nofun
  have hopener : tokens ("$\x7b\x7d" ++ "$\x7b").toList =
      .error ⟨.unterminatedInterpolation, 3⟩ := by
    decide +kernel
  rw [parse_of_error hopener] at he
  obtain rfl := Except.error.inj he
  cases hdefect

end Template

end Stencil
