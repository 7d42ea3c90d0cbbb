import Stencil.Proofs.Markup.TrimmedText
import Stencil.Proofs.Program.FixedText
import Stencil.Proofs.Template.Texts

/-!
What becomes of a raw block. Its body is text like any other to all that comes after the lexer, so a
tag that stands alone on its line may take a line of it, and a header may take all of it.
-/

namespace Stencil

open Markup Template

-- A raw block of a source: its body, with the tokens before it, the nearest first, and behind it.
structure RawBlock (source : String) where
  earlier : List Token
  body : Slice
  later : List Token
  tokens_eq : Markup.tokens source.toList = .ok (earlier.reverse ++ .text body :: later)
  spelled : ∃ before after, source.toList =
    before ++ ("@raw".toList ++ body.chars ++ "@endraw".toList) ++ after ∧
      body.start = byteLength (before ++ "@raw".toList)

namespace RawBlock

section

variable {source : String} (block : RawBlock source) (trimLines : Bool)

-- The tokens of the source as they are read.
def tokens : List Token :=
  if trimLines then trim (block.earlier.reverse ++ .text block.body :: block.later)
  else block.earlier.reverse ++ .text block.body :: block.later

-- Those on both sides of the block, the nearest first.
def before : List Token :=
  if trimLines then
    (trimmedBefore block.earlier (.text block.body :: block.later)).filter (!isEmptyText ·)
  else block.earlier

def behind : List Token :=
  if trimLines then
    (trimmedAfter (.text block.body :: block.earlier) block.later).filter (!isEmptyText ·)
  else block.later

-- The whole body with the text that stands beside it.
def literal : String :=
  Slice.join ((nearTexts (block.before trimLines)).reverse ++
    (block.body :: nearTexts (block.behind trimLines)))

-- The template has a text in the block's place, with the body in it byte for byte.
def Verbatim (t : Template) : Prop :=
  block.body.chars ≠ [] → ∃ span, .text (block.literal trimLines) span ∈ t.nodes ∧
    span.start ≤ block.body.start ∧ block.body.stop ≤ span.stop

-- Is there a declaration behind the block?
def InHeader : Prop := ∃ declaration span, .tag (.param declaration) span ∈ block.later

-- Does a line of the body go with the line of a tag?
def Shortened : Prop := Markup.Shortened block.earlier block.body block.later

end

variable {source : String} {block : RawBlock source} {trimLines : Bool} {t : Template}

theorem ofTokens_of_parse (h : Template.parse source trimLines = .ok t) :
    ofTokens (block.tokens trimLines) = .ok t :=
  eq_ok_of_mapError ((parse_of_tokens block.tokens_eq trimLines).symm.trans h)

theorem ordered (block : RawBlock source) (trimLines : Bool) :
    Builder.Ordered (block.tokens trimLines) := by
  unfold tokens
  exact .of_tokens block.tokens_eq (ite_eq_or_eq _ _ _).symm

-- The body is kept as it is, or a part of it is.
theorem exists_kept (block : RawBlock source) (trimLines : Bool) : ∃ kept : List Slice,
    block.tokens trimLines =
        (block.before trimLines).reverse ++ (kept.map .text ++ block.behind trimLines) ∧
      (block.body.chars ≠ [] → ¬ (trimLines ∧ block.Shortened) → kept = [block.body]) ∧
      (block.body.chars ≠ [] → trimLines → block.Shortened →
        (kept.flatMap (·.chars)).length < block.body.chars.length) := by
  cases trimLines with
  | false => exact ⟨[block.body], rfl, fun _ _ => rfl, by simp⟩
  | true =>
    obtain ⟨kept, hkept, -⟩ := thins_trimmedBetween block.earlier block.body block.later
    refine ⟨[kept].filter (!·.chars.isEmpty), ?_, fun hbody hwhole => ?_, fun hbody _ hcut => ?_⟩
    · simp only [tokens, before, behind, if_true]
      rw [trim_eq, trimmedAfter_append, trimmedAfter, hkept, List.filter_append,
        List.filter_reverse, List.filter_cons, List.filter_cons]
      by_cases hempty : kept.chars = [] <;> simp [isEmptyText, hempty]
    · have hsame : trimmedBetween block.earlier (.text block.body) block.later =
        .text block.body := trimmedBetween_of_not_shortened fun hcut => hwhole ⟨rfl, hcut⟩
      obtain rfl := Token.text.inj (hkept.symm.trans hsame)
      simp [hbody]
    · obtain ⟨shorter, hshorter, hlength⟩ := trimmedBetween_of_shortened hbody hcut
      obtain rfl := Token.text.inj (hkept.symm.trans hshorter)
      by_cases hempty : kept.chars = [] <;> simp [hempty, hlength, List.length_pos_iff.2 hbody]

-- Texts before the block end before its body, and texts behind it begin behind the body.
theorem stop_le_of_before {s : Slice} (h : .text s ∈ block.before trimLines) :
    s.stop ≤ block.body.start := by
  have hordered := (tiles_of_tokens block.tokens_eq).pairwise_inOrder
  have hearlier {s : Slice} (hs : .text s ∈ block.earlier) : s.stop ≤ block.body.start :=
    (List.pairwise_append.1 hordered).2.2 _ (List.mem_reverse.2 hs) _ List.mem_cons_self _ _ rfl rfl
  unfold before at h
  split at h
  · obtain ⟨whole, hwhole, hwithin⟩ := mem_trimmedBefore (List.mem_filter.1 h).1
    exact hwithin.stop_le.trans (hearlier hwhole)
  · exact hearlier h

theorem stop_le_of_behind {s : Slice} (h : .text s ∈ block.behind trimLines) :
    block.body.stop ≤ s.start := by
  have hordered := (tiles_of_tokens block.tokens_eq).pairwise_inOrder
  have hlater {s : Slice} (hs : .text s ∈ block.later) : block.body.stop ≤ s.start :=
    List.rel_of_pairwise_cons (List.pairwise_append.1 hordered).2.1 hs _ _ rfl rfl
  unfold behind at h
  split at h
  · obtain ⟨whole, hwhole, hwithin⟩ := mem_trimmedAfter (List.mem_filter.1 h).1
    exact (hlater hwhole).trans hwithin.start_le
  · exact hlater h

theorem tag_mem_behind {tag : Tag} {span : Span} :
    .tag tag span ∈ block.behind trimLines ↔ .tag tag span ∈ block.later := by
  unfold behind
  split
  · rw [List.mem_filter, tag_mem_trimmedAfter]
    simp [isEmptyText]
  · exact Iff.rfl

theorem start_lt_stop (hbody : block.body.chars ≠ []) : block.body.start < block.body.stop := by
  obtain ⟨c, cs, hchars⟩ := List.exists_cons_of_ne_nil hbody
  have hpos := c.utf8Size_pos
  simp only [Slice.stop, hchars, byteLength_cons]
  omega

-- A block with a declaration behind it has no part in the template.
theorem not_verbatim_of_inHeader (hparse : Template.parse source trimLines = .ok t)
    (hbody : block.body.chars ≠ []) (h : block.InHeader) : ¬ block.Verbatim trimLines t := by
  intro hverbatim
  obtain ⟨span, hmem, hstart, -⟩ := hverbatim hbody
  obtain ⟨declaration, place, hlater⟩ := h
  obtain ⟨kept, htokens, -⟩ := block.exists_kept trimLines
  have hdecl : .tag (.param declaration) place ∈ block.behind trimLines := tag_mem_behind.2 hlater
  obtain ⟨front, back, hbehind⟩ := List.append_of_mem hdecl
  have hsplit : block.tokens trimLines =
      (block.before trimLines).reverse ++ (kept.map .text ++ front) ++
        .tag (.param declaration) place :: back := by
    rw [htokens, hbehind]
    simp
  have hspan : block.body.stop ≤ span.start := by
    refine span_of_declared (P := fun span => block.body.stop ≤ span.start)
      (block.ordered trimLines) (ofTokens_of_parse hparse) hsplit
      (fun a b ha hb => le_min ha hb) (fun s hs => ?_) (Template.mem_nodes_iff.1 hmem)
    exact stop_le_of_behind (hbehind ▸ List.mem_append_right _ (List.mem_cons_of_mem _ hs))
  have hlt := start_lt_stop hbody
  omega

-- What is kept of the body is one text with the texts beside it, and no other text is in its place.
theorem exists_items (hparse : Template.parse source trimLines = .ok t) (h : ¬ block.InHeader)
    {kept : List Slice} (htokens : block.tokens trimLines =
      (block.before trimLines).reverse ++ (kept.map .text ++ block.behind trimLines)) :
    ∃ front back, Node.itemsOfAll t.body = mergeTexts front ++
        mergeTexts (((nearTexts (block.before trimLines)).reverse ++
          (kept ++ nearTexts (block.behind trimLines))).map .ofSlice) ++ mergeTexts back ∧
      (∀ content span, .text content span ∈ mergeTexts front → span.stop ≤ block.body.start) ∧
      (∀ content span, .text content span ∈ mergeTexts back → block.body.stop ≤ span.start) := by
  have hdecl : ∀ token ∈ block.behind trimLines, isDeclaration token = false := by
    intro token htoken
    cases token with
    | tag tag span =>
      cases tag with
      | param declaration => exact absurd ⟨declaration, span, tag_mem_behind.1 htoken⟩ h
      | _ => rfl
    | _ => rfl
  obtain ⟨front, back, hitems, hfront, hback⟩ :=
    exists_items_around (block.ordered trimLines) (ofTokens_of_parse hparse) htokens hdecl
  rw [List.reverse_reverse] at hitems
  refine ⟨front, back, hitems, fun content span hmem => ?_, fun content span hmem => ?_⟩
  · refine span_of_mem_mergeTexts (P := fun span => span.stop ≤ block.body.start)
      (fun a b ha hb => max_le ha hb) (fun content span hmem => ?_) hmem
    obtain ⟨s, hs, rfl⟩ := hfront content span hmem
    exact stop_le_of_before (List.mem_reverse.1 hs)
  · refine span_of_mem_mergeTexts (P := fun span => block.body.stop ≤ span.start)
      (fun a b ha hb => le_min ha hb) (fun content span hmem => ?_) hmem
    obtain ⟨s, hs, rfl⟩ := hback content span hmem
    exact stop_le_of_behind hs

theorem verbatim_of_whole (hparse : Template.parse source trimLines = .ok t)
    (h : ¬ block.InHeader) (hwhole : ¬ (trimLines ∧ block.Shortened)) :
    block.Verbatim trimLines t := by
  intro hbody
  obtain ⟨kept, htokens, hkept, -⟩ := block.exists_kept trimLines
  obtain rfl := hkept hbody hwhole
  obtain ⟨front, back, hitems, -⟩ := exists_items hparse h htokens
  have hsome : (nearTexts (block.before trimLines)).reverse ++
      ([block.body] ++ nearTexts (block.behind trimLines)) ≠ [] := by simp
  obtain ⟨span, hmerged, hcover⟩ := mergeTexts_slices hsome
  refine ⟨span, ?_, hcover block.body (by simp)⟩
  rw [Template.mem_nodes_iff, hitems, hmerged]
  exact List.mem_append_left _ (List.mem_append_right _ (List.mem_singleton_self _))

theorem not_verbatim_of_shortened (hparse : Template.parse source true = .ok t)
    (hbody : block.body.chars ≠ []) (hcut : block.Shortened) : ¬ block.Verbatim true t := by
  intro hverbatim
  by_cases hheader : block.InHeader
  · exact not_verbatim_of_inHeader hparse hbody hheader hverbatim
  obtain ⟨span, hmem, hstart, hstop⟩ := hverbatim hbody
  obtain ⟨kept, htokens, -, hlength⟩ := block.exists_kept true
  obtain ⟨front, back, hitems, hfront, hback⟩ := exists_items hparse hheader htokens
  have hlt := start_lt_stop hbody
  rw [Template.mem_nodes_iff, hitems] at hmem
  rcases List.mem_append.1 hmem with hmem | hmem
  rcases List.mem_append.1 hmem with hmem | hmem
  · have hbefore := hfront _ _ hmem
    omega
  · have hsame := eq_join_of_mem_mergeTexts hmem
    have hchars := congrArg List.length (String.ofList_injective hsame)
    simp only [List.flatMap_append, List.flatMap_cons, List.length_append] at hchars
    have hshort := hlength hbody rfl hcut
    omega
  · have hbehind := hback _ _ hmem
    omega

-- A raw block is verbatim if no declaration follows it and, where lines are trimmed, no tag beside
-- it takes a line of it for a part of its own. An operation of the program then writes the body with
-- the text beside it, as they are, and nothing else.
theorem verbatim_iff (block : RawBlock source)
    (hparse : Template.parse source trimLines = .ok t) :
    (block.Verbatim trimLines t ↔
      block.body.chars = [] ∨ ¬ block.InHeader ∧ ¬ (trimLines ∧ block.Shortened)) ∧
    (block.body.chars ≠ [] → block.Verbatim trimLines t →
      ∀ context checked, t.bind context source = .ok checked → ∀ name mode, ∃ fixed,
        .literal fixed ∈ (checked.program name mode).leaves ∧
          ∀ contentType, (Piece.literal fixed).bytes contentType =
            Text.encode (block.literal trimLines)) := by
  refine ⟨⟨fun hverbatim => ?_, ?_⟩, fun hbody hverbatim context checked hbind name mode => ?_⟩
  · by_cases hbody : block.body.chars = []
    · exact .inl hbody
    refine .inr ⟨fun hheader => not_verbatim_of_inHeader hparse hbody hheader hverbatim, ?_⟩
    rintro ⟨rfl, hcut⟩
    exact not_verbatim_of_shortened hparse hbody hcut hverbatim
  · rintro (hnone | ⟨hheader, hwhole⟩)
    · exact fun hbody => absurd hnone hbody
    · exact verbatim_of_whole hparse hheader hwhole
  · obtain ⟨span, hmem, -⟩ := hverbatim hbody
    have hne : block.literal trimLines ≠ "" := by
      intro hempty
      have hchars := congrArg String.toList hempty
      simp [literal, Slice.join, hbody] at hchars
    have hapart : ∀ block ∈ t.blocks, Node.TextsApart block :=
      textsApart_of_ofTokens (block.ordered trimLines) (ofTokens_of_parse hparse)
    exact ⟨_, (Template.elaborates_of_bind hbind).literal_mem hapart hmem hne name mode,
      fun contentType => by cases mode <;> rfl⟩

-- The tag behind the block stands alone on its line, and the body ends before that line.
def beforeTag : RawBlock "@raw@if(x)\n@endraw@if(true)\n@end" where
  earlier := []
  body := ⟨4, "@if(x)\n".toList⟩
  later := [.tag (.condition ⟨22, "true".toList⟩) ⟨18, 27⟩, .text ⟨27, ['\n']⟩,
    .tag .close ⟨28, 32⟩]
  tokens_eq := by decide +kernel
  spelled := ⟨[], "@if(true)\n@end".toList, by decide, by decide⟩

theorem verbatim_iff_beforeTag : ∃ t,
    Template.parse "@raw@if(x)\n@endraw@if(true)\n@end" true = .ok t ∧
      beforeTag.Verbatim true t := by
  have hsome : (Template.parse "@raw@if(x)\n@endraw@if(true)\n@end" true).toOption.isSome := by
    decide +kernel
  obtain ⟨t, ht⟩ := Option.isSome_iff_exists.1 hsome
  have hparse := eq_ok_of_toOption ht
  refine ⟨t, hparse, (verbatim_iff beforeTag hparse).1.2 (.inr ⟨?_, ?_⟩)⟩
  · rintro ⟨declaration, span, hmem⟩
    simp [beforeTag] at hmem
  · rintro ⟨-, ⟨tag, span, rest, hearlier, -⟩ | ⟨-, hline⟩⟩
    · cases hearlier
    · exact hline (by decide)

-- The body begins with a line break, right behind a tag that the source begins with.
def behindTag : RawBlock "@if(true)@raw\nx@endraw@end" where
  earlier := [.tag (.condition ⟨4, "true".toList⟩) ⟨0, 9⟩]
  body := ⟨13, "\nx".toList⟩
  later := [.tag .close ⟨22, 26⟩]
  tokens_eq := by decide +kernel
  spelled := ⟨"@if(true)".toList, "@end".toList, by decide, by decide⟩

-- Are raw blocks verbatim wherever they stand?
def AlwaysVerbatim : Prop :=
  ∀ (source : String) (block : RawBlock source) (trimLines : Bool) (t : Template),
    Template.parse source trimLines = .ok t → block.Verbatim trimLines t

theorem not_alwaysVerbatim : ¬ AlwaysVerbatim := by
  intro h
  have hsome : (Template.parse "@if(true)@raw\nx@endraw@end" true).toOption.isSome := by
    decide +kernel
  obtain ⟨t, ht⟩ := Option.isSome_iff_exists.1 hsome
  have hparse := eq_ok_of_toOption ht
  have hcut : behindTag.Shortened :=
    .inl ⟨.condition ⟨4, "true".toList⟩, ⟨0, 9⟩, [], rfl, rfl, rfl, by decide, .inl (by decide)⟩
  exact not_verbatim_of_shortened hparse (by decide) hcut (h _ behindTag true t hparse)

end RawBlock

end Stencil
