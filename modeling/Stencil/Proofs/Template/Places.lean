import Stencil.Proofs.Expr.Places
import Stencil.Proofs.Template.Grammar

/-!
Where faults in a template are reported: between two characters of its source, or at an end of it.
-/

namespace Stencil

theorem Slice.LiesIn.boundary {s : Slice} {source : List Char} (h : s.LiesIn source) {n : Nat}
    (hn : Boundary s.start s.chars n) : Boundary 0 source n := by
  obtain ⟨before, after, rfl, hstart⟩ := h
  refine Boundary.within ?_ after
  rwa [Nat.zero_add, ← hstart]

namespace Markup

section Lexer

variable {head : Nat} {cs : List Char} {fault : Fault}

theorem offset_of_enclosedFrom {opener closer : Char} {unclosed : Defect} {start : Nat}
    (h : enclosedFrom opener closer unclosed head start cs = .error fault) :
    fault.offset = head := by
  unfold enclosedFrom at h
  split at h
  · exact Except.error.inj h ▸ rfl
  · cases h

theorem offset_of_parenthesised {start : Nat} {tag : Slice → Tag}
    (h : parenthesised head start tag cs = .error fault) : fault.offset = head :=
  offset_of_enclosedFrom (eq_error_of_map h)

theorem offset_of_rawBlock (h : rawBlock head cs = .error fault) : fault.offset = head := by
  unfold rawBlock at h
  split at h
  · exact Except.error.inj h ▸ rfl
  · cases h

-- An inclusion may also be refused at its name, or behind it.
theorem offset_of_inclusion (h : inclusion head cs = .error fault) :
    fault.offset = head ∨ Boundary (head + 10) cs fault.offset := by
  have hname : Boundary (head + 10) cs
      (head + 10 + byteLength (cs.takeWhile fun c => isIdentChar c || c == '.')) :=
    ⟨_, cs.dropWhile fun c => isIdentChar c || c == '.',
      List.takeWhile_append_dropWhile.symm, rfl⟩
  unfold inclusion at h
  simp only at h
  split at h
  · split at h
    · exact .inl (offset_of_parenthesised h)
    · exact .inr (Except.error.inj h ▸ hname)
  · exact .inr (Except.error.inj h ▸ boundary_start _ _)

theorem boundary_of_tag? (h : tag? head cs = .error fault) :
    Boundary head ('@' :: cs) fault.offset := by
  have hhead (hoffset : fault.offset = head) : Boundary head ('@' :: cs) fault.offset :=
    hoffset ▸ boundary_start _ _
  have hmap {r : Except Fault Lexeme} (hr : r.map some = .error fault)
      (hoffset : r = .error fault → fault.offset = head) :
      Boundary head ('@' :: cs) fault.offset := hhead (hoffset (eq_error_of_map hr))
  unfold tag? at h
  split at h
  · exact hmap h offset_of_parenthesised
  split at h
  · exact hmap h offset_of_parenthesised
  split at h
  · exact hmap h offset_of_parenthesised
  split at h
  · cases h
  split at h
  · cases h
  split at h
  · cases h
  split at h
  · cases h
  split at h
  · exact hhead (Except.error.inj h ▸ rfl)
  split at h
  · exact hmap h offset_of_rawBlock
  split at h
  · split at h <;> cases h
  split at h
  · next rest hword =>
    rcases offset_of_inclusion (eq_error_of_map h) with hoffset | hname
    · exact hhead hoffset
    · rw [dropWord?_eq_some_iff.1 hword]
      have hfront : Boundary (head + byteLength "@template.".toList) rest fault.offset := hname
      exact hfront.behind
  · cases h

theorem boundary_of_lexeme? (h : lexeme? head cs = .error fault) :
    Boundary head cs fault.offset := by
  have hhead (hoffset : fault.offset = head) : Boundary head cs fault.offset :=
    hoffset ▸ boundary_start _ _
  unfold lexeme? at h
  split at h
  · unfold interpolation? at h
    split at h
    · exact hhead (offset_of_enclosedFrom (eq_error_of_map (eq_error_of_map h)))
    split at h
    · exact hhead (offset_of_enclosedFrom (eq_error_of_map (eq_error_of_map h)))
    · cases h
  · exact boundary_of_tag? h
  · unfold comment? at h
    split at h
    · cases h
    · split at h
      · exact hhead (Except.error.inj h ▸ rfl)
      · cases h
  · cases h

theorem boundary_of_lexemes {start : Nat} {run : List Char} {pos : Nat}
    (h : lexemes start run pos cs = .error fault) : Boundary pos cs fault.offset := by
  fun_induction lexemes start run pos cs with
  | case1 => cases h
  | case2 start run pos c rest fault' hread =>
    obtain rfl := Except.error.inj h
    exact boundary_of_lexeme? hread
  | case3 start run pos c rest hnone ih => exact (ih h).cons
  | case4 start run pos c rest l hread ih =>
    have hrest := ih (eq_error_of_map h)
    obtain ⟨m, hcs, hstop, -⟩ := spelled_lexeme? hread
    rw [hstop] at hrest
    rw [hcs]
    exact hrest.behind

end Lexer

end Markup

namespace Template

open Markup

-- Tags begin between characters of the source, and the code of all tokens stands in it.
structure Marked (source : List Char) (ts : List Token) : Prop where
  start : ∀ tag span, .tag tag span ∈ ts → Boundary 0 source span.start
  code : ∀ token ∈ ts, ∀ inner span, token.code? = some (inner, span) → inner.LiesIn source

theorem Marked.of_subset {source : List Char} {ts us : List Token} (h : Marked source ts)
    (hsub : ∀ token ∈ us, (∀ s, token ≠ .text s) → token ∈ ts) : Marked source us where
  start tag span hmem := h.start tag span (hsub _ hmem fun _ heq => nomatch heq)
  code token hmem inner span hcode := by
    refine h.code token (hsub token hmem fun s heq => ?_) inner span hcode
    rw [heq] at hcode
    cases hcode

theorem marked_of_tiles {source : List Char} {ts : List Token} (h : Tiles 0 source ts) :
    Marked source ts where
  start tag span hmem := by
    obtain ⟨before, m, after, rfl, hm⟩ := h.exists_extent hmem
    exact ⟨before, m ++ after, by simp, hm.tag_span.1⟩
  code token hmem inner span hcode := (h.code_liesIn hmem hcode).1

section Faults

variable {source : List Char} {ts : List Token} {n : Nat} {fault : Fault}

theorem Marked.tail {t : Token} (h : Marked source (t :: ts)) : Marked source ts :=
  h.of_subset fun _ hmem _ => List.mem_cons_of_mem t hmem

theorem Marked.code_fault (h : Marked source ts) {token : Token} (hmem : token ∈ ts)
    {inner : Slice} {span : Span} (hcode : token.code? = some (inner, span)) {α : Type}
    {reader : Code.Reader α} (hreader : ∀ good, Code.Points good reader fun _ => [])
    (hfault : reader.runOn inner n = .error fault) : Boundary 0 source fault.offset :=
  (h.code token hmem inner span hcode).boundary (Code.boundary_of_runOn hreader hfault)

theorem boundary_of_readToken {t : Token} (h : Marked source (t :: ts))
    (hfault : readToken n t = .error fault) : Boundary 0 source fault.offset := by
  have hcode {inner : Slice} {span : Span} (hcode : t.code? = some (inner, span)) {α : Type}
      {reader : Code.Reader α} (hreader : ∀ good, Code.Points good reader fun _ => [])
      {item : α × Nat → List Item × Nat} (hread : (reader.runOn inner n).map item = .error fault) :
      Boundary 0 source fault.offset :=
    h.code_fault List.mem_cons_self hcode hreader (eq_error_of_map hread)
  have hcomplete (good : Nat → Prop) : Code.Points good Code.completeExpression fun _ => [] :=
    Code.points_completeExpression
  cases t with
  | text s => cases hfault
  | interpolation raw slice span => exact hcode rfl hcomplete hfault
  | tag tag span =>
    cases tag with
    | condition slice => exact hcode rfl hcomplete hfault
    | elseCondition slice => exact hcode rfl hcomplete hfault
    | loop slice => exact hcode rfl (fun _ => Code.points_loopHeader) hfault
    | inclusion target slice => exact hcode rfl (fun _ => Code.points_inclusionArgs) hfault
    | _ => cases hfault

theorem boundary_of_readHeader (h : Marked source ts) (hfault : readHeader n ts = .error fault) :
    Boundary 0 source fault.offset := by
  induction ts generalizing n with
  | nil => cases hfault
  | cons t ts ih =>
    have hskip (hread : readHeader n ts = .error fault) := ih h.tail hread
    cases t with
    | tag tag span =>
      cases tag with
      | param slice =>
        rw [readHeader_eq_bind] at hfault
        cases hparam : (Code.paramDecl span).runOn slice n with
        | error fault' =>
          rw [hparam] at hfault
          obtain rfl : fault' = fault := Except.error.inj hfault
          exact h.code_fault List.mem_cons_self rfl (fun _ => Code.points_paramDecl span) hparam
        | ok read =>
          obtain ⟨param, m⟩ := read
          rw [hparam] at hfault
          simp only [Except.bind] at hfault
          cases hrest : readHeader m ts with
          | error fault' =>
            rw [hrest] at hfault
            obtain rfl : fault' = fault := Except.error.inj hfault
            exact ih h.tail hrest
          | ok rest =>
            rw [hrest] at hfault
            cases hfault
      | _ => exact hskip hfault
    | _ => exact hskip hfault

-- Blocks that are open begin between characters.
def BlocksBounded (source : List Char) (blocks : List OpenBlock) : Prop :=
  ∀ block ∈ blocks, Boundary 0 source block.start

theorem bounded_enter {blocks : List OpenBlock} (hblocks : BlocksBounded source blocks)
    {kind : BlockKind} {start : Nat} (hstart : Boundary 0 source start) :
    match Blocks.enter blocks kind start with
    | .error fault => Boundary 0 source fault.offset
    | .ok blocks' => BlocksBounded source blocks' := by
  by_cases hroom : blocks.length < maxNesting
  · rw [Blocks.enter, if_pos hroom]
    exact List.forall_mem_cons.2 ⟨hstart, hblocks⟩
  · rw [Blocks.enter, if_neg hroom]
    exact hstart

-- One step of the automaton reports a fault at its tag, and opens a block there.
theorem bounded_step {t : Token} {blocks : List OpenBlock} (h : Marked source (t :: ts))
    (hblocks : BlocksBounded source blocks) :
    match Blocks.step blocks t with
    | .error fault => Boundary 0 source fault.offset
    | .ok blocks' => BlocksBounded source blocks' := by
  cases t with
  | text | interpolation => exact hblocks
  | tag tag span =>
    have hstart : Boundary 0 source span.start := h.start tag span List.mem_cons_self
    cases tag with
    | comment | inclusion => exact hblocks
    | param => exact hstart
    | condition => exact bounded_enter hblocks hstart
    | loop => exact bounded_enter hblocks hstart
    | elseCondition test =>
      simp only [Blocks.step]
      split
      · next heq =>
        split at heq
        · cases heq
        · exact Except.error.inj heq ▸ hstart
      · next heq =>
        split at heq
        · exact Except.ok.inj heq ▸ hblocks
        · cases heq
    | otherwise =>
      cases blocks with
      | nil => exact hstart
      | cons block outer =>
        obtain ⟨kind, start, seen⟩ := block
        cases seen with
        | true => exact hstart
        | false =>
          have hinner := List.forall_mem_cons.1 hblocks
          exact List.forall_mem_cons.2 ⟨hinner.1, hinner.2⟩
    | close =>
      cases blocks with
      | nil => exact hstart
      | cons block outer => exact (List.forall_mem_cons.1 hblocks).2

theorem boundary_of_run {blocks : List OpenBlock} (h : Marked source ts)
    (hblocks : BlocksBounded source blocks) (hfault : Blocks.run blocks n ts = .error fault) :
    Boundary 0 source fault.offset := by
  induction ts generalizing blocks n with
  | nil =>
    cases blocks with
    | nil => cases hfault
    | cons block outer =>
      obtain rfl := Except.error.inj (eq_error_of_map hfault)
      exact hblocks block List.mem_cons_self
  | cons t ts ih =>
    rw [Blocks.run_eq_bind] at hfault
    have hstep := bounded_step h hblocks
    cases hnext : Blocks.step blocks t with
    | error fault' =>
      rw [hnext] at hfault hstep
      obtain rfl : fault' = fault := Except.error.inj hfault
      exact hstep
    | ok blocks' =>
      rw [hnext] at hfault hstep
      cases hread : readToken n t with
      | error fault' =>
        rw [Except.bind, hread] at hfault
        obtain rfl : fault' = fault := Except.error.inj hfault
        exact boundary_of_readToken h hread
      | ok read =>
        rw [Except.bind, hread] at hfault
        exact ih h.tail hstep (eq_error_of_map hfault)

theorem boundary_of_readTemplate (h : Marked source ts)
    (hfault : readTemplate ts = .error fault) : Boundary 0 source fault.offset := by
  rw [readTemplate_eq_bind] at hfault
  have hheader : Marked source (header ts) :=
    h.of_subset fun token hmem _ => (List.takeWhile_sublist _).subset
      ((List.rdropWhile_prefix _ _).subset hmem)
  have hbody : Marked source (behindHeader ts) :=
    h.of_subset fun token hmem _ => List.mem_of_mem_drop hmem
  cases hread : readHeader 0 (header ts) with
  | error fault' =>
    rw [hread] at hfault
    obtain rfl : fault' = fault := Except.error.inj hfault
    exact boundary_of_readHeader hheader hread
  | ok read =>
    obtain ⟨params, n⟩ := read
    rw [hread] at hfault
    simp only [Except.bind] at hfault
    cases hrun : Blocks.run [] n (behindHeader ts) with
    | error fault' =>
      rw [hrun] at hfault
      obtain rfl : fault' = fault := Except.error.inj hfault
      exact boundary_of_run hbody (List.forall_mem_nil _) hrun
    | ok items =>
      rw [hrun] at hfault
      cases hfault

end Faults

-- A fault of a token list, as it was cut or trimmed, stands between characters of the source.
theorem boundary_of_ofTokens {source : List Char} {tokens ts : List Token}
    (hlex : Markup.tokens source = .ok tokens) (hts : ts = tokens ∨ ts = trim tokens)
    {fault : Fault} (hfault : ofTokens ts = .error fault) : Boundary 0 source fault.offset := by
  have htiles : Tiles 0 source tokens := tiles_of_tokens hlex
  have hthin := thinAll_trim tokens
  have hmarked : Marked source ts := by
    rcases hts with rfl | rfl
    · exact marked_of_tiles htiles
    · exact (marked_of_tiles htiles).of_subset fun token hmem htext =>
        (thinAll_trim tokens).mem hmem htext
  rcases ofTokens_cases (.of_tokens hlex hts) with ⟨fault', hof, hread⟩ | ⟨t, items, hof, -⟩
  · rw [hof] at hfault
    obtain rfl := Except.error.inj hfault
    exact boundary_of_readTemplate hmarked hread
  · rw [hof] at hfault
    cases hfault

-- Every error of a template is reported between two characters of its source, or at an end of it.
theorem boundary_of_parse {source : String} {trimLines : Bool} {e : SyntaxError}
    (h : parse source trimLines = .error e) :
    Boundary 0 source.toList e.offset ∧ e.location = Location.locate source e.offset := by
  have hfault {fault : Fault} (hplace : Boundary 0 source.toList fault.offset)
      (he : SyntaxError.ofFault source fault = e) :
      Boundary 0 source.toList e.offset ∧ e.location = Location.locate source e.offset := by
    subst he
    exact ⟨hplace, rfl⟩
  cases hlex : Markup.tokens source.toList with
  | error fault =>
    rw [parse_of_error hlex] at h
    exact hfault (boundary_of_lexemes hlex) (Except.error.inj h)
  | ok tokens =>
    rw [parse_of_tokens hlex] at h
    obtain ⟨fault, hof, he⟩ := exists_of_mapError h
    exact hfault (boundary_of_ofTokens hlex (ite_eq_or_eq _ _ _).symm hof) he

end Template

end Stencil
