import Stencil.Proofs.Template.Grammar

/-!
Where the texts of a source stand in its template. Texts with nothing but comments between them
become one node; no other node has anything to do with them.
-/

namespace Stencil

-- The texts of slices, one after the other.
def Slice.join (slices : List Slice) : String := String.ofList (slices.flatMap (·.chars))

theorem Slice.join_cons (s : Slice) (slices : List Slice) :
    Slice.join (s :: slices) = s.text ++ Slice.join slices := by
  simp [Slice.join, Slice.text]

namespace Template

open Markup

-- The texts beside a place that become one node with what stands there, nearest first.
def nearTexts : List Token → List Slice
  | .text s :: ts => s :: nearTexts ts
  | .tag .comment _ :: ts => nearTexts ts
  | _ => []

def Item.ofSlice (s : Slice) : Item := .text s.text s.span

-- Rows with no text at the end where they meet other rows.
def ClosedBehind (row : List Item) : Prop := ∀ item ∈ row.getLast?, item.isText = false

def ClosedBefore (row : List Item) : Prop := ∀ item ∈ row.head?, item.isText = false

theorem mergeTexts_append_of_closedBehind {front : List Item} (h : ClosedBehind front)
    (row : List Item) : mergeTexts (front ++ row) = mergeTexts front ++ mergeTexts row := by
  rcases List.eq_nil_or_concat' front with rfl | ⟨init, item, rfl⟩
  · rfl
  · have hitem : item.isText = false := h item (by simp)
    rw [List.append_assoc, List.singleton_append, mergeTexts_append_cons hitem,
      mergeTexts_append_cons hitem, List.append_assoc]
    rfl

theorem mergeTexts_append_of_closedBefore {back : List Item} (h : ClosedBefore back)
    (row : List Item) : mergeTexts (row ++ back) = mergeTexts row ++ mergeTexts back := by
  cases back with
  | nil => rw [List.append_nil, show mergeTexts [] = [] from rfl, List.append_nil]
  | cons item back =>
    have hitem : item.isText = false := h item rfl
    rw [mergeTexts_append_cons hitem, mergeTexts_cons hitem]

-- A row of texts is one text.
theorem mergeTexts_slices {slices : List Slice} (h : slices ≠ []) :
    ∃ span, mergeTexts (slices.map .ofSlice) = [.text (Slice.join slices) span] ∧
      ∀ s ∈ slices, span.start ≤ s.start ∧ s.stop ≤ span.stop := by
  induction slices with
  | nil => exact absurd rfl h
  | cons s slices ih =>
    by_cases hnone : slices = []
    · subst hnone
      refine ⟨s.span, ?_, by simp [Slice.span]⟩
      rw [Slice.join_cons, show Slice.join [] = "" from rfl, String.append_empty]
      rfl
    · obtain ⟨span, hmerged, hcover⟩ := ih hnone
      refine ⟨s.span.cover span, ?_, ?_⟩
      · rw [Slice.join_cons]
        exact congrArg (Item.before _) hmerged
      · intro s' hmem
        rcases List.mem_cons.1 hmem with rfl | hmem
        · exact ⟨Nat.min_le_left .., Nat.le_max_left ..⟩
        · obtain ⟨hstart, hstop⟩ := hcover s' hmem
          exact ⟨(Nat.min_le_right ..).trans hstart, hstop.trans (Nat.le_max_right ..)⟩

theorem eq_join_of_mem_mergeTexts {slices : List Slice} {content : String} {span : Span}
    (h : .text content span ∈ mergeTexts (slices.map .ofSlice)) : content = Slice.join slices := by
  by_cases hnone : slices = []
  · subst hnone
    cases h
  · obtain ⟨whole, hmerged, -⟩ := mergeTexts_slices hnone
    rw [hmerged] at h
    cases List.mem_singleton.1 h
    rfl

-- What holds of the spans of texts holds of the spans of the texts made of them.
theorem span_of_mem_mergeTexts {P : Span → Prop} (hcover : ∀ a b, P a → P b → P (a.cover b))
    {row : List Item} (hrow : ∀ content span, .text content span ∈ row → P span)
    {content : String} {span : Span} (h : .text content span ∈ mergeTexts row) : P span := by
  induction row generalizing content span with
  | nil => cases h
  | cons item row ih =>
    have hrest {content : String} {span : Span} (h : .text content span ∈ mergeTexts row) :
        P span := ih (fun content span hmem => hrow content span (List.mem_cons_of_mem _ hmem)) h
    cases item with
    | text first place =>
      have hfirst : P place := hrow first place List.mem_cons_self
      have hmerged : mergeTexts (.text first place :: row) =
        (Item.text first place).before (mergeTexts row) := rfl
      rw [hmerged] at h
      unfold Item.before at h
      split at h
      · next content' span' rest heq heq' =>
        cases heq
        rcases List.mem_cons.1 h with h | h
        · cases h
          exact hcover _ _ hfirst (hrest (heq' ▸ List.mem_cons_self))
        · exact hrest (heq' ▸ List.mem_cons_of_mem _ h)
      · rcases List.mem_cons.1 h with h | h
        · cases h
          exact hfirst
        · exact hrest h
    | _ =>
      rcases List.mem_cons.1 h with h | h
      · cases h
      · exact hrest h

theorem readTokens_cons {n m : Nat} {t : Token} {ts : List Token} {row : List Item}
    (h : readTokens n (t :: ts) = .ok (row, m)) : ∃ first k rest,
      readToken n t = .ok (first, k) ∧ readTokens k ts = .ok (rest, m) ∧ row = first ++ rest := by
  rw [readTokens_eq_bind] at h
  cases hfirst : readToken n t with
  | error fault =>
    rw [hfirst] at h
    cases h
  | ok read =>
    obtain ⟨first, k⟩ := read
    rw [hfirst] at h
    obtain ⟨rest, hrest, hrow⟩ := Blocks.after_eq_ok_iff.1 h
    exact ⟨first, k, rest, rfl, hrest, hrow⟩

theorem readHeader_cons {n m : Nat} {slice : Slice} {span : Span} {ts : List Token}
    {params : List ParamDecl}
    (h : readHeader n (.tag (.param slice) span :: ts) = .ok (params, m)) :
    ∃ decl k others, (Code.paramDecl span).runOn slice n = .ok (decl, k) ∧
      readHeader k ts = .ok (others, m) ∧ params = decl :: others := by
  rw [readHeader_eq_bind] at h
  cases hparam : (Code.paramDecl span).runOn slice n with
  | error fault =>
    rw [hparam] at h
    cases h
  | ok read =>
    obtain ⟨decl, k⟩ := read
    rw [hparam] at h
    have hothers : (readHeader k ts).map (fun read => (decl :: read.1, read.2)) =
        .ok (params, m) := h
    obtain ⟨⟨others, l⟩, hrest, hrow⟩ := exists_of_map_eq_ok hothers
    obtain ⟨rfl, rfl⟩ := Prod.mk.inj hrow
    exact ⟨decl, k, others, rfl, hrest, rfl⟩

theorem readTokens_append {n m : Nat} {ts us : List Token} {row : List Item}
    (h : readTokens n (ts ++ us) = .ok (row, m)) : ∃ front k back,
      readTokens n ts = .ok (front, k) ∧ readTokens k us = .ok (back, m) ∧ row = front ++ back := by
  induction ts generalizing n row with
  | nil => exact ⟨[], n, row, rfl, h, rfl⟩
  | cons t ts ih =>
    obtain ⟨first, k, rest, hfirst, hrest, rfl⟩ := readTokens_cons h
    obtain ⟨front, l, back, hfront, hback, rfl⟩ := ih hrest
    refine ⟨first ++ front, l, back, ?_, hback, (List.append_assoc ..).symm⟩
    rw [readTokens_eq_bind, hfirst]
    exact Blocks.after_eq_ok_iff.2 ⟨front, hfront, rfl⟩

-- What a token that declares nothing says.
inductive Says : Token → List Item → Prop where
  | text (s : Slice) : Says (.text s) [.ofSlice s]
  | comment (span : Span) : Says (.tag .comment span) []
  | other {t : Token} {item : Item} (hitem : item.isText = false)
      (hnear : ∀ ts, nearTexts (t :: ts) = []) : Says t [item]

theorem says_of_code {α : Type} (item : α → Item) {reader : Code.Reader α} {slice : Slice}
    {n k : Nat} {t : Token} {row : List Item} (h : Reading.code reader slice n item = .ok (row, k))
    (hitem : ∀ a, (item a).isText = false) (hnear : ∀ ts, nearTexts (t :: ts) = []) :
    Says t row := by
  unfold Reading.code at h
  cases hread : reader.runOn slice n with
  | error fault =>
    rw [hread] at h
    cases h
  | ok read =>
    rw [hread] at h
    cases h
    exact .other (hitem _) hnear

theorem says_of_readToken {n k : Nat} {t : Token} {row : List Item}
    (h : readToken n t = .ok (row, k)) (ht : isDeclaration t = false) : Says t row := by
  cases t with
  | text s =>
    cases h
    exact .text s
  | interpolation raw slice span =>
    exact says_of_code (.interpolation raw · span) h (fun _ => rfl) fun _ => rfl
  | tag tag span =>
    cases tag with
    | comment =>
      cases h
      exact .comment span
    | param slice => cases ht
    | otherwise | close =>
      cases h
      exact .other rfl fun _ => rfl
    | inclusion target slice =>
      simp only [readToken] at h
      cases hread : Code.inclusionArgs.runOn slice n with
      | error fault =>
        rw [hread] at h
        cases h
      | ok read =>
        rw [hread] at h
        cases h
        exact .other rfl fun _ => rfl
    | condition slice =>
      exact says_of_code (.condition · span.start) h (fun _ => rfl) fun _ => rfl
    | elseCondition slice => exact says_of_code .elseCondition h (fun _ => rfl) fun _ => rfl
    | loop slice => exact says_of_code (.loop · span.start) h (fun _ => rfl) fun _ => rfl

theorem readTokens_slices (slices : List Slice) (n : Nat) :
    readTokens n (slices.map .text) = .ok (slices.map .ofSlice, n) := by
  induction slices with
  | nil => rfl
  | cons s slices ih =>
    have hread : readTokens n (.text s :: slices.map .text) =
      (readTokens n (slices.map .text)).after [.ofSlice s] := rfl
    rw [List.map_cons, hread, ih]
    rfl

section Rows

variable {n m : Nat} {ts : List Token} {row : List Item}

-- Every text in a row is that of a token.
theorem exists_text_of_read (h : readTokens n ts = .ok (row, m))
    (hdecl : ∀ t ∈ ts, isDeclaration t = false) {content : String} {span : Span}
    (hmem : .text content span ∈ row) : ∃ s, .text s ∈ ts ∧ span = s.span := by
  induction ts generalizing n row with
  | nil =>
    cases h
    cases hmem
  | cons t ts ih =>
    obtain ⟨first, k, rest, hfirst, hrest, rfl⟩ := readTokens_cons h
    rcases List.mem_append.1 hmem with hmem | hmem
    · cases says_of_readToken hfirst (hdecl t List.mem_cons_self) with
      | text s =>
        cases List.mem_singleton.1 hmem
        exact ⟨s, List.mem_cons_self, rfl⟩
      | comment => cases hmem
      | other hitem =>
        cases List.mem_singleton.1 hmem
        cases hitem
    · obtain ⟨s, hs, hspan⟩ :=
        ih hrest (fun t ht => hdecl t (List.mem_cons_of_mem _ ht)) hmem
      exact ⟨s, List.mem_cons_of_mem _ hs, hspan⟩

-- A row begins with the texts that stand first in it, and ends with those that stand last.
theorem exists_closedBefore (h : readTokens n ts = .ok (row, m))
    (hdecl : ∀ t ∈ ts, isDeclaration t = false) :
    ∃ back, row = (nearTexts ts).map .ofSlice ++ back ∧ ClosedBefore back := by
  induction ts generalizing n row with
  | nil =>
    cases h
    exact ⟨[], rfl, by simp [ClosedBefore]⟩
  | cons t ts ih =>
    obtain ⟨first, k, rest, hfirst, hrest, rfl⟩ := readTokens_cons h
    obtain ⟨back, rfl, hback⟩ := ih hrest fun t ht => hdecl t (List.mem_cons_of_mem _ ht)
    cases says_of_readToken hfirst (hdecl t List.mem_cons_self) with
    | text s => exact ⟨back, rfl, hback⟩
    | comment => exact ⟨back, rfl, hback⟩
    | @other _ item hitem hnear =>
      refine ⟨[item] ++ ((nearTexts ts).map .ofSlice ++ back), by rw [hnear]; rfl, ?_⟩
      simpa [ClosedBefore] using hitem

theorem exists_closedBehind (h : readTokens n ts = .ok (row, m))
    (hdecl : ∀ t ∈ ts, isDeclaration t = false) :
    ∃ front, row = front ++ (nearTexts ts.reverse).reverse.map .ofSlice ∧ ClosedBehind front := by
  induction ts using List.reverseRecOn generalizing row m with
  | nil =>
    cases h
    exact ⟨[], rfl, by simp [ClosedBehind]⟩
  | append_singleton ts t ih =>
    obtain ⟨before, k, last, hbefore, hlast, rfl⟩ := readTokens_append h
    obtain ⟨front, rfl, hfront⟩ := ih hbefore fun t ht => hdecl t (List.mem_append_left _ ht)
    obtain ⟨last, l, rest, hlast, hrest, rfl⟩ := readTokens_cons hlast
    cases hrest
    rw [List.reverse_append, List.reverse_singleton, List.singleton_append, List.append_nil]
    cases says_of_readToken hlast (hdecl t (by simp)) with
    | text s => exact ⟨front, by simp [nearTexts], hfront⟩
    | comment => exact ⟨front, by simp [nearTexts], hfront⟩
    | @other _ item hitem hnear =>
      refine ⟨front ++ (nearTexts ts.reverse).reverse.map .ofSlice ++ [item],
        by rw [hnear]; simp, ?_⟩
      simpa [ClosedBehind] using hitem

end Rows

-- Texts that stand together are one, with the texts beside them, and the rest of the row does
-- without them.
theorem exists_mergeTexts_around {n m : Nat} {before behind : List Token} {slices : List Slice}
    {row : List Item} (h : readTokens n (before ++ (slices.map .text ++ behind)) = .ok (row, m))
    (hbefore : ∀ t ∈ before, isDeclaration t = false)
    (hbehind : ∀ t ∈ behind, isDeclaration t = false) :
    ∃ front back, mergeTexts row = mergeTexts front ++
        mergeTexts (((nearTexts before.reverse).reverse ++ (slices ++ nearTexts behind)).map
          .ofSlice) ++ mergeTexts back ∧
      (∀ content span, .text content span ∈ front → ∃ s, .text s ∈ before ∧ span = s.span) ∧
      (∀ content span, .text content span ∈ back → ∃ s, .text s ∈ behind ∧ span = s.span) := by
  obtain ⟨first, k, rest, hfirst, hrest, rfl⟩ := readTokens_append h
  obtain ⟨middle, l, last, hmiddle, hlast, rfl⟩ := readTokens_append hrest
  rw [readTokens_slices] at hmiddle
  cases hmiddle
  obtain ⟨front, rfl, hfront⟩ := exists_closedBehind hfirst hbefore
  obtain ⟨back, rfl, hback⟩ := exists_closedBefore hlast hbehind
  refine ⟨front, back, ?_, fun content span hmem => ?_, fun content span hmem => ?_⟩
  · rw [← mergeTexts_append_of_closedBehind hfront, ← mergeTexts_append_of_closedBefore hback]
    simp
  · exact exists_text_of_read hfirst hbefore (List.mem_append_left _ hmem)
  · exact exists_text_of_read hlast hbehind (List.mem_append_right _ hmem)

-- The header ends with a declaration.
theorem header_closed (ts : List Token) :
    header ts = [] ∨ ∃ init slice span, header ts = init ++ [.tag (.param slice) span] := by
  rcases List.eq_nil_or_concat' (header ts) with hnone | ⟨init, last, hsome⟩
  · exact .inl hnone
  · refine .inr ?_
    have hlast := List.rdropWhile_last_not (!isDeclaration ·) (ts.takeWhile isLeading)
      (show header ts ≠ [] by simp [hsome])
    have hdecl : isDeclaration last = true := by
      have hget : (header ts).getLast (by simp [hsome]) = last := by simp [hsome]
      rw [← hget]
      simpa [header] using hlast
    cases last with
    | tag tag span =>
      cases tag with
      | param slice => exact ⟨init, slice, span, hsome⟩
      | _ => cases hdecl
    | _ => cases hdecl

theorem header_append_behindHeader (ts : List Token) : header ts ++ behindHeader ts = ts := by
  have hprefix : header ts <+: ts :=
    (List.rdropWhile_prefix _ _).trans (List.takeWhile_prefix _)
  exact List.prefix_iff_eq_append.1 hprefix

theorem not_declaration_of_accept {blocks : List OpenBlock} {ts : List Token}
    (h : Blocks.accept blocks ts = .ok ()) : ∀ t ∈ ts, isDeclaration t = false := by
  induction ts generalizing blocks with
  | nil => simp
  | cons t ts ih =>
    have haccept : Blocks.accept blocks (t :: ts) =
      (Blocks.step blocks t).bind fun blocks => Blocks.accept blocks ts := rfl
    rw [haccept] at h
    cases hstep : Blocks.step blocks t with
    | error fault =>
      rw [hstep] at h
      cases h
    | ok blocks' =>
      rw [hstep] at h
      refine List.forall_mem_cons.2 ⟨?_, ih h⟩
      cases t with
      | tag tag span =>
        cases tag with
        | param => cases hstep
        | _ => rfl
      | _ => rfl

theorem nearTexts_append_declaration (ts : List Token) (slice : Slice) (span : Span)
    (us : List Token) : nearTexts (ts ++ .tag (.param slice) span :: us) = nearTexts ts := by
  induction ts with
  | nil => rfl
  | cons t ts ih =>
    cases t with
    | text s => exact congrArg (s :: ·) ih
    | interpolation => rfl
    | tag tag span =>
      cases tag with
      | comment => exact ih
      | _ => rfl

-- A list cut behind one of its members.
theorem exists_of_append_cons_eq {α : Type} {d : α} {xs ys us vs : List α}
    (h : xs ++ d :: ys = us ++ vs) (hd : d ∉ vs) : ∃ ws, us = xs ++ d :: ws ∧ ys = ws ++ vs := by
  rcases List.append_eq_append_iff.1 h with ⟨ws, hus, hcons⟩ | ⟨ws, -, hvs⟩
  · rcases List.cons_eq_append_iff.1 hcons with ⟨-, hvs⟩ | ⟨ws, rfl, hys⟩
    · exact absurd (hvs ▸ List.mem_cons_self) hd
    · exact ⟨ws, hus, hys⟩
  · exact absurd (hvs ▸ List.mem_append_right _ List.mem_cons_self) hd

-- Tokens behind the last declaration are read behind the header.
theorem exists_behindHeader_append {ts front rest : List Token} (hts : ts = front ++ rest)
    (hdecl : ∀ t ∈ rest, isDeclaration t = false) : ∃ before, front = header ts ++ before ∧
      behindHeader ts = before ++ rest ∧ nearTexts before.reverse = nearTexts front.reverse := by
  have hwhole : header ts ++ behindHeader ts = front ++ rest :=
    (header_append_behindHeader ts).trans hts
  rcases header_closed ts with hnone | ⟨init, slice, span, hheader⟩
  · rw [hnone, List.nil_append] at hwhole
    exact ⟨front, by rw [hnone, List.nil_append], hwhole, rfl⟩
  · rw [hheader, List.append_assoc, List.singleton_append] at hwhole
    obtain ⟨before, hfront, hbehind⟩ :=
      exists_of_append_cons_eq hwhole fun hmem => nomatch hdecl _ hmem
    refine ⟨before, by rw [hheader, hfront, List.append_assoc]; rfl, hbehind, ?_⟩
    rw [hfront, List.reverse_append, List.reverse_cons, List.append_assoc, List.singleton_append,
      nearTexts_append_declaration]

-- The body of a template is the row of what is read behind the header.
theorem exists_row_of_ofTokens {ts : List Token} {t : Template} (hordered : Builder.Ordered ts)
    (hof : ofTokens ts = .ok t) : ∃ n row m, readTokens n (behindHeader ts) = .ok (row, m) ∧
      (∀ token ∈ behindHeader ts, isDeclaration token = false) ∧
      Node.itemsOfAll t.body = mergeTexts row := by
  rcases ofTokens_cases hordered with ⟨fault, hfault, -⟩ | ⟨t', row, hof', hread, hitems⟩
  · cases hfault.symm.trans hof
  · cases hof'.symm.trans hof
    obtain ⟨n, -, haccept, hread⟩ := readTemplate_eq_ok_iff.1 hread
    exact ⟨n, row, t.idCount, hread, not_declaration_of_accept haccept, hitems⟩

theorem textsApart_of_ofTokens {ts : List Token} {t : Template} (hordered : Builder.Ordered ts)
    (hof : ofTokens ts = .ok t) : ∀ block ∈ t.blocks, Node.TextsApart block := by
  obtain ⟨n, row, m, -, -, hitems⟩ := exists_row_of_ofTokens hordered hof
  refine Node.textsApart_blocksOfAll ?_
  rw [hitems]
  exact isChain_mergeTexts row

-- The body of a template whose last declaration stands before some texts: the row has those texts
-- in it, with the texts beside them.
theorem exists_items_around {ts front behind : List Token} {slices : List Slice} {t : Template}
    (hordered : Builder.Ordered ts) (hof : ofTokens ts = .ok t)
    (hts : ts = front ++ (slices.map .text ++ behind))
    (hdecl : ∀ token ∈ behind, isDeclaration token = false) :
    ∃ first last, Node.itemsOfAll t.body = mergeTexts first ++
        mergeTexts (((nearTexts front.reverse).reverse ++ (slices ++ nearTexts behind)).map
          .ofSlice) ++ mergeTexts last ∧
      (∀ content span, .text content span ∈ first → ∃ s, .text s ∈ front ∧ span = s.span) ∧
      (∀ content span, .text content span ∈ last → ∃ s, .text s ∈ behind ∧ span = s.span) := by
  obtain ⟨n, row, m, hread, hbody, hitems⟩ := exists_row_of_ofTokens hordered hof
  have hrest : ∀ token ∈ slices.map .text ++ behind, isDeclaration token = false := by
    intro token htoken
    rcases List.mem_append.1 htoken with htoken | htoken
    · obtain ⟨s, -, rfl⟩ := List.mem_map.1 htoken
      rfl
    · exact hdecl token htoken
  obtain ⟨before, hfront, hbehind, hnear⟩ := exists_behindHeader_append hts hrest
  rw [hbehind] at hread hbody
  obtain ⟨first, last, hmerged, hfirst, hlast⟩ := exists_mergeTexts_around hread
    (fun token htoken => hbody token (List.mem_append_left _ htoken)) hdecl
  rw [hnear] at hmerged
  refine ⟨first, last, hitems.trans hmerged, fun content span hmem => ?_, hlast⟩
  obtain ⟨s, hs, hspan⟩ := hfirst content span hmem
  exact ⟨s, hfront ▸ List.mem_append_right _ hs, hspan⟩

-- What stands before a declaration has no part in the body.
theorem span_of_declared {ts front behind : List Token} {slice : Slice} {place : Span}
    {t : Template} (hordered : Builder.Ordered ts) (hof : ofTokens ts = .ok t)
    (hts : ts = front ++ .tag (.param slice) place :: behind) {P : Span → Prop}
    (hcover : ∀ a b, P a → P b → P (a.cover b)) (hP : ∀ s, .text s ∈ behind → P s.span)
    {content : String} {span : Span} (hmem : .text content span ∈ Node.itemsOfAll t.body) :
    P span := by
  obtain ⟨n, row, m, hread, hbody, hitems⟩ := exists_row_of_ofTokens hordered hof
  have hwhole := hts.symm.trans (header_append_behindHeader ts).symm
  obtain ⟨middle, -, hbehind⟩ :=
    exists_of_append_cons_eq hwhole fun hmem => nomatch hbody _ hmem
  rw [hitems] at hmem
  refine span_of_mem_mergeTexts hcover (fun content span hmem => ?_) hmem
  obtain ⟨s, hs, rfl⟩ := exists_text_of_read hread hbody hmem
  exact hP s (hbehind ▸ List.mem_append_right _ hs)

end Template

end Stencil
