import Mathlib.Data.List.Chain
import Stencil.Proofs.Markup.Tiling
import Stencil.Proofs.Template.Blocks

/-!
Reading a template is running the automaton on its tags. The header comes first; what is read behind
it has the items that the tokens say one by one, in their order, with no text beside other text.
-/

namespace Stencil

namespace Markup

theorem Extent.tag_span {pos : Nat} {m : List Char} {tag : Tag} {span : Span}
    (h : Extent pos m (.tag tag span)) :
    span.start = pos ∧ span.start ≤ span.stop ∧ span.stop ≤ pos + byteLength m := by
  have hparam : byteLength "@param".toList = 6 := by decide
  cases h with
  | piece hm =>
    cases hm with
    | param =>
      simp only [byteLength_append, hparam, true_and]
      omega
    | bare => exact ⟨rfl, Nat.le_add_right _ _, Nat.le_refl _⟩
    | enclosed => exact ⟨rfl, Nat.le_add_right _ _, Nat.le_refl _⟩
  | last hm =>
    cases hm
    simp only [byteLength_append, hparam, true_and]
    omega

-- All tags but comments begin with an `@`.
theorem Extent.exists_at_sign {pos : Nat} {m : List Char} {tag : Tag} {span : Span}
    (h : Extent pos m (.tag tag span)) (htag : tag ≠ .comment) : ∃ rest, m = '@' :: rest := by
  cases h with
  | piece hm =>
    cases hm with
    | param => exact ⟨_, rfl⟩
    | bare hword =>
      cases hword with
      | comment => exact absurd rfl htag
      | _ => exact ⟨_, rfl⟩
    | enclosed hopener => cases hopener <;> exact ⟨_, rfl⟩
  | last hm =>
    cases hm
    exact ⟨_, rfl⟩

theorem Tiles.le_tag_start {pos : Nat} {cs : List Char} {ts : List Token} (h : Tiles pos cs ts)
    {tag : Tag} {span : Span} (hmem : .tag tag span ∈ ts) :
    pos ≤ span.start ∧ span.start ≤ span.stop := by
  obtain ⟨before, m, after, -, hm⟩ := h.exists_extent hmem
  obtain ⟨hstart, hstop, -⟩ := hm.tag_span
  exact ⟨by omega, hstop⟩

theorem Tiles.exists_at_sign {source : List Char} {ts : List Token} (h : Tiles 0 source ts)
    {tag : Tag} {span : Span} (hmem : .tag tag span ∈ ts) (htag : tag ≠ .comment) :
    ∃ before after, source = before ++ '@' :: after ∧ byteLength before = span.start := by
  obtain ⟨before, m, after, rfl, hm⟩ := h.exists_extent hmem
  obtain ⟨rest, rfl⟩ := hm.exists_at_sign htag
  exact ⟨before, rest ++ after, by simp, by rw [hm.tag_span.1, Nat.zero_add]⟩

-- Trimming leaves what is no text as it is.
theorem ThinAll.mem {ts us : List Token} (h : ThinAll ts us) {token : Token} (hmem : token ∈ us)
    (htext : ∀ s, token ≠ .text s) : token ∈ ts := by
  induction h with
  | nil => cases hmem
  | gone _ _ ih => exact List.mem_cons_of_mem _ (ih hmem)
  | text _ _ ih =>
    rcases List.mem_cons.1 hmem with heq | hmem
    · exact absurd heq (htext _)
    · exact List.mem_cons_of_mem _ (ih hmem)
  | interpolation _ _ _ _ ih | tag _ _ _ ih =>
    rcases List.mem_cons.1 hmem with heq | hmem
    · exact heq ▸ List.mem_cons_self
    · exact List.mem_cons_of_mem _ (ih hmem)

theorem ThinAll.tag_mem {ts us : List Token} (h : ThinAll ts us) {tag : Tag} {span : Span}
    (hmem : .tag tag span ∈ us) : .tag tag span ∈ ts := h.mem hmem fun _ heq => nomatch heq

end Markup

namespace Template

open Markup

namespace Builder

theorem ordered_cons {t : Token} {ts : List Token}
    (h : ∀ tag span tag' span', t = .tag tag span → .tag tag' span' ∈ ts →
      span.stop ≤ span'.start ∧ span.start ≤ span.stop ∧ span'.start ≤ span'.stop)
    (hrest : Ordered ts) : Ordered (t :: ts) := by
  refine .cons (fun u hmem tag span tag' span' ht hu => ?_) hrest
  obtain ⟨hbehind, hspan, hspan'⟩ := h tag span tag' span' ht (hu ▸ hmem)
  rw [Span.cover, Nat.min_eq_left (by omega), Nat.max_eq_right (by omega)]

theorem ordered_of_tiles {pos : Nat} {cs : List Char} {ts : List Token} (h : Tiles pos cs ts) :
    Ordered ts := by
  induction h with
  | nil => exact .nil
  | text hrun hrest ih => exact ordered_cons (by simp) ih
  | piece hm hrest ih =>
    refine ordered_cons (fun tag span tag' span' ht hmem => ?_) ih
    subst ht
    obtain ⟨-, hspan, hstop⟩ := (Extent.piece hm).tag_span
    obtain ⟨hstart, hspan'⟩ := hrest.le_tag_start hmem
    exact ⟨by omega, hspan, hspan'⟩
  | last => exact List.pairwise_singleton _ _

theorem Ordered.of_thinAll {ts us : List Token} (h : Ordered ts) (hthin : ThinAll ts us) :
    Ordered us := by
  induction hthin with
  | nil => exact .nil
  | gone _ _ ih => exact ih h.of_cons
  | tag tag span hrest ih =>
    refine .cons (fun u hmem tag' span' tag'' span'' ht hu => ?_) (ih h.of_cons)
    exact List.rel_of_pairwise_cons h (hrest.tag_mem (hu ▸ hmem)) _ _ _ _ ht rfl
  | interpolation _ _ _ _ ih | text _ _ ih =>
    exact .cons (fun _ _ _ _ _ _ ht => nomatch ht) (ih h.of_cons)

end Builder

namespace Blocks

theorem after_eq_ok_iff {reading : Reading} {items row : List Item} {n : Nat} :
    reading.after items = .ok (row, n) ↔ ∃ rest, reading = .ok (rest, n) ∧ row = items ++ rest := by
  cases reading with
  | error fault => simp [Reading.after, Except.map]
  | ok read =>
    obtain ⟨rest, m⟩ := read
    simp only [Reading.after, Except.map, Except.ok.injEq, Prod.mk.injEq]
    constructor
    · rintro ⟨rfl, rfl⟩
      exact ⟨rest, ⟨rfl, rfl⟩, rfl⟩
    · rintro ⟨_, ⟨rfl, rfl⟩, rfl⟩
      exact ⟨rfl, rfl⟩

-- The run comes to its end where the automaton accepts the tags and each token can be read.
theorem run_eq_ok_iff {blocks : List OpenBlock} {n : Nat} {ts : List Token} {row : List Item}
    {m : Nat} : run blocks n ts = .ok (row, m) ↔
      accept blocks ts = .ok () ∧ readTokens n ts = .ok (row, m) := by
  induction ts generalizing blocks n row with
  | nil => cases blocks <;> simp [run, accept, readTokens, finish, Except.map]
  | cons t ts ih =>
    have haccept : accept blocks (t :: ts) = (step blocks t).bind fun blocks => accept blocks ts :=
      rfl
    rw [run_eq_bind, haccept, readTokens_eq_bind]
    cases step blocks t with
    | error fault => simp [Except.bind]
    | ok blocks =>
      cases readToken n t with
      | error fault => simp [Except.bind]
      | ok read =>
        simp only [Except.bind, after_eq_ok_iff, ih]
        constructor
        · rintro ⟨rest, ⟨haccept, hread⟩, rfl⟩
          exact ⟨haccept, rest, hread, rfl⟩
        · rintro ⟨haccept, rest, hread, rfl⟩
          exact ⟨rest, ⟨haccept, hread⟩, rfl⟩

end Blocks

-- Not both of two neighbours are text.
abbrev Item.Apart (a b : Item) : Prop := ¬ (a.isText ∧ b.isText)

theorem Item.isChain_before (item : Item) {items : List Item} (h : items.IsChain Item.Apart) :
    (item.before items).IsChain Item.Apart := by
  cases items with
  | nil => cases item <;> exact .singleton _
  | cons second rest =>
    cases second with
    | text content span =>
      cases item with
      | text =>
        obtain ⟨hhead, hrest⟩ := List.isChain_cons.1 h
        exact List.isChain_cons.2 ⟨hhead, hrest⟩
      | _ => exact .cons_cons (by simp [Item.isText]) h
    | _ => cases item <;> exact .cons_cons (by simp [Item.isText]) h

theorem Item.isChain_part {row whole : List Item} (h : whole.IsChain Item.Apart)
    (before after : List Item) (hwhole : whole = before ++ row ++ after) :
    row.IsChain Item.Apart := by
  rw [hwhole] at h
  exact h.left_of_append.right_of_append

theorem isChain_mergeTexts (items : List Item) : (mergeTexts items).IsChain Item.Apart := by
  induction items with
  | nil => exact .nil
  | cons item items ih => exact item.isChain_before ih

end Template

open Template

namespace Node

-- No text stands right beside other text.
abbrev TextsApart (nodes : List Node) : Prop :=
  nodes.IsChain fun a b => ¬ (a.isText ∧ b.isText)

theorem textsApart_cons {node : Node} {nodes : List Node}
    (h : (itemsOfAll (node :: nodes)).IsChain Item.Apart) (hrest : TextsApart nodes) :
    TextsApart (node :: nodes) := by
  cases nodes with
  | nil => exact .singleton _
  | cons second nodes =>
    refine .cons_cons ?_ hrest
    rintro ⟨hfirst, hsecond⟩
    cases node with
    | text =>
      cases second with
      | text =>
        exact (List.isChain_cons_cons.1 h).1 ⟨rfl, rfl⟩
      | _ => cases hsecond
    | _ => cases hfirst

mutual

theorem textsApart_blocks : ∀ {node : Node}, node.items.IsChain Item.Apart →
    ∀ block ∈ node.blocks, TextsApart block
  | .text _ _, _, block, hmem => nomatch hmem
  | .interpolation _ _ _, _, block, hmem => nomatch hmem
  | .inclusion _ _ _ _, _, block, hmem => nomatch hmem
  | .conditional arms none span, h, block, hmem =>
    textsApart_blocksOfArms (Item.isChain_part h [] [.close span.stop] rfl) block hmem
  | .conditional arms (some otherwise) span, h, block, hmem => by
    rcases List.mem_append.1 hmem with hmem | hmem
    · have harms : (itemsOfArms (.condition · span.start) arms).IsChain Item.Apart :=
        Item.isChain_part h [] (.otherwise :: itemsOfAll otherwise ++ [.close span.stop])
          (by simp [items])
      exact textsApart_blocksOfArms harms block hmem
    · exact textsApart_blocksOfAll (Item.isChain_part h
        (itemsOfArms (.condition · span.start) arms ++ [.otherwise]) [.close span.stop]
        (by simp [items])) block hmem
  | .loop element index iterable body none span, h, block, hmem =>
    textsApart_blocksOfAll (Item.isChain_part h [.loop (element, index, iterable) span.start]
      [.close span.stop] rfl) block hmem
  | .loop element index iterable body (some otherwise) span, h, block, hmem => by
    rcases List.mem_append.1 hmem with hmem | hmem
    · exact textsApart_blocksOfAll (Item.isChain_part h
        [.loop (element, index, iterable) span.start]
        (.otherwise :: itemsOfAll otherwise ++ [.close span.stop]) (by simp [items])) block hmem
    · exact textsApart_blocksOfAll (Item.isChain_part h
        (.loop (element, index, iterable) span.start :: itemsOfAll body ++ [.otherwise])
        [.close span.stop] (by simp [items])) block hmem

theorem textsApart_blocksOfAll : ∀ {nodes : List Node}, (itemsOfAll nodes).IsChain Item.Apart →
    ∀ block ∈ nodes :: blocksOfAll nodes, TextsApart block
  | [], _, block, hmem => by
    obtain rfl := List.mem_singleton.1 hmem
    exact .nil
  | node :: nodes, h, block, hmem => by
    have hrest : ∀ block ∈ nodes :: blocksOfAll nodes, TextsApart block :=
      textsApart_blocksOfAll (Item.isChain_part h node.items [] (by simp [itemsOfAll]))
    rcases List.mem_cons.1 hmem with rfl | hmem
    · exact textsApart_cons h (hrest nodes List.mem_cons_self)
    rcases List.mem_append.1 hmem with hmem | hmem
    · exact textsApart_blocks (Item.isChain_part h [] (itemsOfAll nodes) rfl) block hmem
    · exact hrest block (List.mem_cons_of_mem _ hmem)

theorem textsApart_blocksOfArms : ∀ {opener : Expr → Item} {arms : List Arm},
    (itemsOfArms opener arms).IsChain Item.Apart → ∀ block ∈ blocksOfArms arms, TextsApart block
  | _, [], _, block, hmem => nomatch hmem
  | opener, .mk test body :: arms, h, block, hmem => by
    rcases List.mem_append.1 hmem with hmem | hmem
    · exact textsApart_blocksOfAll (Item.isChain_part h [opener test]
        (itemsOfArms .elseCondition arms) rfl) block hmem
    · have harms : (itemsOfArms .elseCondition arms).IsChain Item.Apart :=
        Item.isChain_part h (opener test :: itemsOfAll body) [] (by simp [itemsOfArms])
      exact textsApart_blocksOfArms harms block hmem

end

end Node

namespace Template

open Markup

-- The declarations among some tokens.
def declarations (ts : List Token) : List (Slice × Span) :=
  ts.filterMap fun
    | .tag (.param slice) span => some (slice, span)
    | _ => none

theorem rdropWhile_cons {α : Type} (p : α → Bool) (x : α) (xs : List α) :
    (x :: xs).rdropWhile p =
      if xs.rdropWhile p = [] then (if p x then [] else [x]) else x :: xs.rdropWhile p := by
  unfold List.rdropWhile
  rw [List.reverse_cons, List.dropWhile_append]
  by_cases hdrop : xs.reverse.dropWhile p = []
  · simp only [hdrop, List.isEmpty_nil, if_true, List.reverse_nil, List.dropWhile_cons,
      List.dropWhile_nil]
    split <;> rfl
  · have hempty : (xs.reverse.dropWhile p).isEmpty = false := by simpa using hdrop
    simp [hempty, hdrop]

theorem isLeading_eq (t : Token) : isLeading t = (isDeclaration t || isSkipped t) := by
  cases t with
  | tag tag span => cases tag <;> rfl
  | _ => rfl

theorem header_cons_declaration (slice : Slice) (span : Span) (ts : List Token) :
    header (.tag (.param slice) span :: ts) = .tag (.param slice) span :: header ts := by
  unfold header
  rw [List.takeWhile_cons_of_pos rfl, rdropWhile_cons]
  split
  · next hnil =>
    rw [hnil]
    rfl
  · rfl

theorem header_cons_skipped {t : Token} (h : isSkipped t) (ts : List Token) :
    header (t :: ts) = if header ts = [] then [] else t :: header ts := by
  have hleading : isLeading t := by rw [isLeading_eq, h, Bool.or_true]
  have hother : isDeclaration t = false := by
    cases t with
    | tag tag span =>
      cases tag with
      | param => cases h
      | _ => rfl
    | _ => rfl
  unfold header
  rw [List.takeWhile_cons_of_pos hleading, rdropWhile_cons, hother]
  rfl

theorem header_cons_other {t : Token} (h : isLeading t = false) (ts : List Token) :
    header (t :: ts) = [] := by
  unfold header
  rw [List.takeWhile_cons_of_neg (by simp [h])]
  rfl

theorem splitHeader_eq (ts : List Token) :
    splitHeader ts = (declarations (header ts), behindHeader ts) ∧
      (declarations (header ts) = [] → header ts = []) := by
  induction ts with
  | nil => exact ⟨rfl, fun _ => rfl⟩
  | cons t ts ih =>
    obtain ⟨hsplit, hnone⟩ := ih
    by_cases hskip : isSkipped t
    · unfold behindHeader
      rw [splitHeader_skipped hskip, header_cons_skipped hskip, hsplit]
      by_cases hheader : header ts = []
      · simp [hheader, declarations]
      · have hsome : declarations (header ts) ≠ [] := fun h => hheader (hnone h)
        have hother : declarations (t :: header ts) = declarations (header ts) := by
          cases t with
          | tag tag span =>
            cases tag with
            | param => cases hskip
            | _ => rfl
          | _ => rfl
        rw [if_neg hheader, if_neg hsome, hother]
        exact ⟨rfl, fun h => absurd h hsome⟩
    · cases t with
      | interpolation => exact ⟨rfl, fun _ => rfl⟩
      | text s =>
        have hleading : isLeading (.text s) = false := by
          rw [isLeading_eq, Bool.not_eq_true _ |>.mp hskip]
          rfl
        unfold behindHeader
        rw [splitHeader_text hskip, header_cons_other hleading]
        exact ⟨rfl, fun _ => rfl⟩
      | tag tag span =>
        cases tag with
        | comment => exact absurd rfl hskip
        | param slice =>
          unfold behindHeader
          rw [header_cons_declaration, splitHeader, hsplit]
          exact ⟨rfl, fun h => by cases h⟩
        | _ => exact ⟨rfl, fun _ => rfl⟩

namespace Builder

theorem run_code_eq_map {α : Type} (reader : Code.Reader α) (slice : Slice) (p : Progress) :
    (code reader slice).run p =
      (reader.runOn slice p.nextId).map fun (a, n) => (a, ⟨p.tokens, n⟩) := by
  rw [run_code]
  unfold Code.Reader.runOn
  cases Code.tokens slice.start slice.chars with
  | error fault => rfl
  | ok tokens =>
    simp only [bind, Except.bind]
    cases reader.run ⟨tokens, slice.stop, p.nextId⟩ <;> rfl

theorem run_params (ts : List Token) (p : Progress) :
    ((declarations ts).mapM fun (slice, span) => code (Code.paramDecl span) slice).run p =
      (readHeader p.nextId ts).map fun (params, n) => (params, ⟨p.tokens, n⟩) := by
  induction ts generalizing p with
  | nil => rfl
  | cons t ts ih =>
    cases t with
    | tag tag span =>
      cases tag with
      | param slice =>
        have hdeclared : declarations (.tag (.param slice) span :: ts) =
            (slice, span) :: declarations ts := rfl
        have hcode := run_code_eq_map (Code.paramDecl span) slice p
        rw [hdeclared, readHeader_eq_bind, List.mapM_cons]
        cases hrun : (Code.paramDecl span).runOn slice p.nextId with
        | error fault =>
          rw [hrun] at hcode
          exact run_bind_of_error hcode
        | ok read =>
          obtain ⟨param, n⟩ := read
          rw [hrun] at hcode
          have hrest := ih ⟨p.tokens, n⟩
          rw [run_bind_of_ok hcode]
          cases hheader : readHeader n ts with
          | error fault =>
            rw [hheader] at hrest
            rw [run_bind_of_error hrest]
            simp [Except.map, Except.bind, hheader]
          | ok read =>
            rw [hheader] at hrest
            rw [run_bind_of_ok hrest]
            simp only [Except.map, Except.bind, hheader]
            rfl
      | _ => exact ih p
    | _ => exact ih p

end Builder

-- The declarations are read first, and then the body behind them.
theorem ofTokens_eq_bind (ts : List Token) :
    ofTokens ts = (readHeader 0 (header ts)).bind fun (params, n) =>
      (Builder.wholeBody.run ⟨behindHeader ts, n⟩).map
        fun (body, p) => ⟨params, body, p.nextId⟩ := by
  have hof : ofTokens ts = do
      let read ← (Builder.wholeTemplate (splitHeader ts).1).run ⟨(splitHeader ts).2, 0⟩
      return read.1 := rfl
  have hparams := Builder.run_params (header ts) ⟨behindHeader ts, 0⟩
  rw [hof, (splitHeader_eq ts).1, Builder.wholeTemplate]
  cases hheader : readHeader 0 (header ts) with
  | error fault =>
    rw [hheader] at hparams
    rw [run_bind_of_error hparams]
    rfl
  | ok read =>
    obtain ⟨params, n⟩ := read
    rw [hheader] at hparams
    rw [run_bind_of_ok hparams]
    cases hbody : Builder.wholeBody.run ⟨behindHeader ts, n⟩ with
    | error fault =>
      rw [run_bind_of_error hbody]
      simp only [Except.bind, hbody]
      rfl
    | ok read =>
      rw [run_bind_of_ok hbody]
      simp only [Except.bind, hbody]
      rfl

-- The template is what the automaton makes of the tokens.
theorem ofTokens_cases {ts : List Token} (hordered : Builder.Ordered ts) :
    (∃ fault, ofTokens ts = .error fault ∧ readTemplate ts = .error fault) ∨
      ∃ t items, ofTokens ts = .ok t ∧ readTemplate ts = .ok (t.params, items, t.idCount) ∧
        Node.itemsOfAll t.body = mergeTexts items := by
  have hbehind : Builder.Ordered (behindHeader ts) := hordered.of_suffix (List.drop_suffix _ _)
  rw [ofTokens_eq_bind, readTemplate_eq_bind]
  cases readHeader 0 (header ts) with
  | error fault => exact .inl ⟨fault, rfl, rfl⟩
  | ok read =>
    obtain ⟨params, n⟩ := read
    simp only [Except.bind]
    rcases Builder.tracks_wholeBody (p := ⟨behindHeader ts, n⟩) hbehind with
      ⟨fault, hbody, hrun⟩ | ⟨nodes, p, items, _, hbody, hrun, hitems, rfl⟩
    · rw [hbody, hrun]
      exact .inl ⟨fault, rfl, rfl⟩
    · rw [hbody, hrun]
      refine .inr ⟨⟨params, nodes, p.nextId⟩, items, rfl, ?_, hitems.symm⟩
      simp [Reading.after, Except.map]

theorem readTemplate_eq_ok_iff {ts : List Token} {params : List ParamDecl} {items : List Item}
    {m : Nat} : readTemplate ts = .ok (params, items, m) ↔
      ∃ n, readHeader 0 (header ts) = .ok (params, n) ∧
        Blocks.accept [] (behindHeader ts) = .ok () ∧
        readTokens n (behindHeader ts) = .ok (items, m) := by
  simp only [readTemplate_eq_bind, ← Blocks.run_eq_ok_iff]
  cases readHeader 0 (header ts) with
  | error fault => simp [Except.bind]
  | ok read =>
    obtain ⟨declared, n⟩ := read
    cases hrun : Blocks.run [] n (behindHeader ts) with
    | error fault => simp [Except.bind, hrun]
    | ok read => simp [Except.bind, hrun, Prod.ext_iff, and_assoc]

section Sources

variable {source : String}

theorem parse_of_error {fault : Fault} (h : Markup.tokens source.toList = .error fault)
    (trimLines : Bool) : parse source trimLines = .error (.ofFault source fault) := by
  unfold parse
  rw [h]
  rfl

theorem parse_of_tokens {ts : List Token} (h : Markup.tokens source.toList = .ok ts)
    (trimLines : Bool) : parse source trimLines =
      (ofTokens (if trimLines then trim ts else ts)).mapError (SyntaxError.ofFault source) := by
  unfold parse
  rw [h]
  rfl

-- A template comes from the tokens of its source, as they were cut or trimmed.
theorem exists_tokens_of_parse {trimLines : Bool} {t : Template}
    (h : parse source trimLines = .ok t) : ∃ tokens ts,
      Markup.tokens source.toList = .ok tokens ∧ (ts = tokens ∨ ts = trim tokens) ∧
        ofTokens ts = .ok t := by
  cases hlex : Markup.tokens source.toList with
  | error fault =>
    rw [parse_of_error hlex] at h
    cases h
  | ok tokens =>
    rw [parse_of_tokens hlex] at h
    exact ⟨tokens, _, rfl, (ite_eq_or_eq _ _ _).symm, eq_ok_of_mapError h⟩

end Sources

theorem Builder.Ordered.of_tokens {source : List Char} {tokens ts : List Token}
    (hlex : Markup.tokens source = .ok tokens) (hts : ts = tokens ∨ ts = trim tokens) :
    Builder.Ordered ts := by
  have hordered := Builder.ordered_of_tiles (tiles_of_tokens hlex)
  rcases hts with rfl | rfl
  · exact hordered
  · exact hordered.of_thinAll (thinAll_trim tokens)

-- Its declarations and its nodes are read token by token.
theorem exists_readings_of_parse {source : String} {trimLines : Bool} {t : Template}
    (h : parse source trimLines = .ok t) : ∃ ts n items,
      readHeader 0 (header ts) = .ok (t.params, n) ∧
        readTokens n (behindHeader ts) = .ok (items, t.idCount) ∧
          Node.itemsOfAll t.body = mergeTexts items := by
  obtain ⟨tokens, ts, hlex, hts, hof⟩ := exists_tokens_of_parse h
  rcases ofTokens_cases (.of_tokens hlex hts) with
    ⟨fault, hfault, -⟩ | ⟨t', items, hok, hread, hrow⟩
  · cases hfault.symm.trans hof
  · obtain rfl := Except.ok.inj (hok.symm.trans hof)
    obtain ⟨n, hheader, -, htokens⟩ := readTemplate_eq_ok_iff.mp hread
    exact ⟨ts, n, items, hheader, htokens, hrow⟩

-- The tokens of a source, trimmed or not, are refused with the first fault in their order: where
-- the automaton stops, or where code cannot be read. Otherwise the template has the declarations of
-- the header and, as a row, the items of the other tokens. Each tag begins at an `@`.
theorem ofTokens_blocks {source : List Char} {tokens ts : List Token}
    (hlex : Markup.tokens source = .ok tokens) (hts : ts = tokens ∨ ts = trim tokens) :
    (∀ fault, ofTokens ts = .error fault ↔ readTemplate ts = .error fault) ∧
    (∀ t, ofTokens ts = .ok t → ∃ n items,
      readHeader 0 (header ts) = .ok (t.params, n) ∧
      readTokens n (behindHeader ts) = .ok (items, t.idCount) ∧
      Node.itemsOfAll t.body = mergeTexts items ∧
      ∀ block ∈ t.blocks, Node.TextsApart block) ∧
    ((∃ t, ofTokens ts = .ok t) ↔ ∃ params n read,
      readHeader 0 (header ts) = .ok (params, n) ∧
      Blocks.accept [] (behindHeader ts) = .ok () ∧
      readTokens n (behindHeader ts) = .ok read) ∧
    (∀ tag span, .tag tag span ∈ ts → tag ≠ .comment →
      ∃ before after, source = before ++ '@' :: after ∧ byteLength before = span.start) := by
  have htiles : Tiles 0 source tokens := tiles_of_tokens hlex
  have hordered := Builder.Ordered.of_tokens hlex hts
  have hat (tag : Tag) (span : Span) (hmem : .tag tag span ∈ ts) (htag : tag ≠ .comment) :
      ∃ before after, source = before ++ '@' :: after ∧ byteLength before = span.start := by
    rcases hts with rfl | rfl
    · exact htiles.exists_at_sign hmem htag
    · exact htiles.exists_at_sign ((thinAll_trim tokens).tag_mem hmem) htag
  rcases ofTokens_cases hordered with ⟨fault, hof, hread⟩ | ⟨t, items, hof, hread, hitems⟩
  · refine ⟨fun fault' => by rw [hof, hread]; simp, fun t ht => ?_, ⟨?_, ?_⟩, hat⟩
    · rw [hof] at ht
      cases ht
    · rintro ⟨t, ht⟩
      rw [hof] at ht
      cases ht
    · rintro ⟨params, n, ⟨items, m⟩, hheader, haccept, htokens⟩
      rw [readTemplate_eq_ok_iff.2 ⟨n, hheader, haccept, htokens⟩] at hread
      cases hread
  · obtain ⟨n, hheader, haccept, htokens⟩ := readTemplate_eq_ok_iff.1 hread
    refine ⟨fun fault => by rw [hof, hread]; simp, fun t' ht' => ?_, ⟨fun _ => ?_, fun _ => ?_⟩,
      hat⟩
    · rw [hof] at ht'
      obtain rfl := Except.ok.inj ht'
      refine ⟨n, items, hheader, htokens, hitems, Node.textsApart_blocksOfAll ?_⟩
      rw [hitems]
      exact isChain_mergeTexts items
    · exact ⟨t.params, n, _, hheader, haccept, htokens⟩
    · exact ⟨t, hof⟩

-- A header with a comment and a line break in it, and two blocks, one inside the other. The second
-- source has one `@else` more.
def nested : List Char :=
  "<%----%>\n@param bool b\n@for(x in xs)a@if(b)b<%--c--%>c@elseif(b)d@else e@end@end".toList

def astray : List Char := "@if(b)a@else b@else c@end".toList

def nestedTokens : List Token :=
  [.tag .comment ⟨0, 8⟩, .text ⟨8, ['\n']⟩, .tag (.param ⟨15, " bool b".toList⟩) ⟨9, 22⟩,
    .tag (.loop ⟨28, "x in xs".toList⟩) ⟨23, 36⟩, .text ⟨36, ['a']⟩,
    .tag (.condition ⟨41, ['b']⟩) ⟨37, 43⟩, .text ⟨43, ['b']⟩, .tag .comment ⟨44, 53⟩,
    .text ⟨53, ['c']⟩, .tag (.elseCondition ⟨62, ['b']⟩) ⟨54, 64⟩, .text ⟨64, ['d']⟩,
    .tag .otherwise ⟨65, 70⟩, .text ⟨70, " e".toList⟩, .tag .close ⟨72, 76⟩, .tag .close ⟨76, 80⟩]

def astrayTokens : List Token :=
  [.tag (.condition ⟨4, ['b']⟩) ⟨0, 6⟩, .text ⟨6, ['a']⟩, .tag .otherwise ⟨7, 12⟩,
    .text ⟨12, " b".toList⟩, .tag .otherwise ⟨14, 19⟩, .text ⟨19, " c".toList⟩,
    .tag .close ⟨21, 25⟩]

theorem readTemplate_astray :
    readTemplate (trim astrayTokens) = .error ⟨.unexpectedTag .otherwise, 14⟩ := by
  have hread : (match readTemplate (trim astrayTokens) with
      | .error fault => decide (fault = ⟨.unexpectedTag .otherwise, 14⟩)
      | .ok _ => false) = true := by decide +kernel
  split at hread
  · next fault heq => rw [heq, of_decide_eq_true hread]
  · cases hread

theorem ofTokens_blocks_nested :
    (∃ t, ofTokens nestedTokens = .ok t) ∧
      ofTokens (trim astrayTokens) = .error ⟨.unexpectedTag .otherwise, 14⟩ := by
  have hnested : tokens nested = .ok nestedTokens := by decide +kernel
  have hastray : tokens astray = .ok astrayTokens := by decide +kernel
  refine ⟨(ofTokens_blocks hnested (.inl rfl)).2.2.1.2 ?_,
    ((ofTokens_blocks hastray (.inr rfl)).1 _).2 readTemplate_astray⟩
  have hread : (readTemplate nestedTokens).toOption.isSome = true := by decide +kernel
  cases hcases : readTemplate nestedTokens with
  | error fault =>
    rw [hcases] at hread
    cases hread
  | ok read =>
    obtain ⟨params, items, m⟩ := read
    obtain ⟨n, hheader, haccept, htokens⟩ := readTemplate_eq_ok_iff.1 hcases
    exact ⟨params, n, (items, m), hheader, haccept, htokens⟩

end Template

end Stencil
