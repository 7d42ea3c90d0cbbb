import Stencil.Proofs.Expr.Extents
import Stencil.Proofs.Template.Places
import Stencil.Proofs.Template.Texts

/-!
What the parts of a template take of its source. Declarations, tags and interpolations follow one
another, and the code in each lies in it.
-/

namespace Stencil

open Stencil.Span

variable {source : List Char} {good : Nat → Prop} {lo hi a b : Nat}

-- An expression in its source: each part of it takes some characters there, the operands of a part
-- lie in it, one behind the other, and a name is what it takes.
structure Expr.Mapped (source : List Char) (e : Expr) : Prop where
  intro ::
  spans : ∀ part ∈ e.parts, part.span.LiesIn source
  nested : e.Nested (Boundary 0 source)
  names : ∀ mark ident, .name mark ident ∈ e.parts →
    sliceBytes? mark.span.start mark.span.stop source = some ident.toList

namespace Code

variable {es : List Expr} {read ts : List Placed} {slice : Slice}

-- Each token has its word in the source where its span says.
theorem exists_word_of_liesIn (hlies : slice.LiesIn source)
    (h : tokens slice.start slice.chars = .ok ts) {t : Placed} (ht : t ∈ ts) :
    ∃ before word after, source = before ++ word ++ after ∧ Written t.token.word word ∧
      t.span = ⟨byteLength before, byteLength before + byteLength word⟩ := by
  obtain ⟨x, y, hsource, hstart⟩ := hlies
  obtain ⟨before, word, after, hchars, hword, hspan⟩ := exists_word_of_mem_tokens h ht
  refine ⟨x ++ before, word, after ++ y, ?_, hword, ?_⟩
  · rw [hsource, hchars]
    simp
  · rw [hspan, hstart, byteLength_append]

-- Expressions that are read from a slice of the source lie in it, one behind the other.
theorem Among.mapped (h : Among es read) (hlies : slice.LiesIn source)
    (hts : tokens slice.start slice.chars = .ok ts) (hsub : read.Sublist ts) :
    Row (Boundary 0 source) slice.start slice.stop (es.map Expr.span) ∧
      ∀ e ∈ es, e.Mapped source := by
  have hrow := row_of_tokens (fun n hn => hlies.boundary hn) hts
  obtain ⟨hes, hnested⟩ := h.rows _ _ _ (hrow.sublist (hsub.map _))
  refine ⟨hes, fun e he => ⟨?_, hnested e he, fun mark ident hname => ?_⟩⟩
  · refine h.spans (·.LiesIn source) (fun _ _ => LiesIn.cover) (fun t ht => ?_) e he
    obtain ⟨before, word, after, hsource, -, hspan⟩ :=
      exists_word_of_liesIn hlies hts (hsub.subset ht)
    rw [hsource, hspan]
    exact liesIn_of_append
  · have hmem := hsub.subset (h.names e he mark ident hname)
    obtain ⟨before, word, after, hsource, hword, hspan⟩ := exists_word_of_liesIn hlies hts hmem
    have hstart : mark.span.start = byteLength before := congrArg Span.start hspan
    have hstop : mark.span.stop = byteLength before + byteLength word := congrArg Span.stop hspan
    cases hword with
    | ident =>
      rw [String.toList_ofList, hstart, hstop]
      exact sliceBytes?_eq_some_iff.mpr ⟨before, after, hsource, rfl, rfl⟩

end Code

namespace Markup

-- What a token takes, if it is no text.
def Token.extent? : Token → Option Span
  | .text _ => none
  | .interpolation _ _ span | .tag _ span => some span

theorem Opener.byteLength_pos {opener : List Char} {tag : Slice → Tag} (h : Opener opener tag) :
    0 < byteLength opener := by
  cases h with
  | inclusion =>
    have hname : 0 < byteLength "@template.".toList := by decide
    simp only [byteLength_append]
    omega
  | _ => decide

-- An interpolation or a tag with code, from byte `a` to byte `b`. The code stands behind the
-- opener, up to the closer that the search for one comes to, and the expressions lie in the code.
structure Encloses (source : List Char) (a b : Nat) (opener : List Char) (d : Delimiters)
    (es : List Expr) : Prop where
  intro ::
  code : ∃ before inner after, source = before ++ opener ++ inner ++ d.closer :: after ∧
    a = byteLength before ∧ b = byteLength (before ++ opener ++ inner ++ [d.closer]) ∧
    d.Closes inner after ∧
    Row (Boundary 0 source) (byteLength (before ++ opener))
      (byteLength (before ++ opener ++ inner)) (es.map Expr.span)
  mapped : ∀ e ∈ es, e.Mapped source

theorem Encloses.row {opener : List Char} {d : Delimiters} {es : List Expr}
    (h : Encloses source a b opener d es) :
    Row (Boundary 0 source) (a + byteLength opener) b (es.map Expr.span) := by
  obtain ⟨before, inner, after, -, rfl, rfl, -, hrow⟩ := h.code
  refine hrow.widen ?_ ?_ <;> simp

theorem Encloses.boundary {opener : List Char} {d : Delimiters} {es : List Expr}
    (h : Encloses source a b opener d es) : Boundary 0 source a := by
  obtain ⟨before, inner, after, rfl, rfl, -⟩ := h.code
  exact ⟨before, opener ++ inner ++ d.closer :: after, by simp, by simp⟩

-- What a reader makes of the code between the two.
theorem encloses_of_runOn {α : Type} {reader : Code.Reader α} {es : α → List Expr}
    {before opener inner after : List Char} {d : Delimiters} {slice : Slice} {n m : Nat} {x : α}
    (hreader : ∀ ts, Code.Consumes reader ts fun x read => Code.Among (es x) read)
    (hsource : source = before ++ (opener ++ inner ++ [d.closer]) ++ after)
    (hslice : slice = ⟨byteLength before + byteLength opener, inner⟩)
    (hcloses : d.Closes inner after) (h : reader.runOn slice n = .ok (x, m)) :
    Encloses source (byteLength before) (byteLength (before ++ (opener ++ inner ++ [d.closer])))
      opener d (es x) := by
  subst hslice
  obtain ⟨ts, read, htokens, hsub, hamong⟩ := Code.exists_read_of_runOn hreader h
  have hlies : Slice.LiesIn ⟨byteLength before + byteLength opener, inner⟩ source :=
    ⟨before ++ opener, d.closer :: after, by simp [hsource], by simp⟩
  obtain ⟨hrow, hmapped⟩ := hamong.mapped hlies htokens hsub
  refine ⟨⟨before, inner, after, by simp [hsource], rfl, by simp, hcloses, ?_⟩, hmapped⟩
  rw [byteLength_append _ inner, byteLength_append]
  exact hrow

-- The line of a declaration.
theorem Extent.exists_line {pos : Nat} {m : List Char} {slice : Slice} {span : Span}
    (h : Extent pos m (.tag (.param slice) span)) : ∃ line tail,
      m = "@param".toList ++ line ++ tail ∧ '\n' ∉ line ∧ slice = ⟨pos + 6, dropReturns line⟩ ∧
        span = ⟨pos, pos + 6 + byteLength line⟩ := by
  generalize htoken : Token.tag (.param slice) span = token at h
  cases h with
  | text => cases htoken
  | piece hm =>
    cases hm with
    | @param line hline =>
      cases htoken
      exact ⟨line, ['\n'], rfl, hline, rfl, rfl⟩
    | bare hword => cases hword <;> cases htoken
    | enclosed hopener => cases hopener <;> cases htoken
    | raw | interpolation => cases htoken
  | last hm =>
    cases hm with
    | @param line hline =>
      cases htoken
      exact ⟨line, [], by simp, hline, rfl, rfl⟩

end Markup

-- A declaration takes its line, without the break at the end of it, and its default lies there.
structure ParamDecl.At (source : List Char) (a b : Nat) (decl : ParamDecl) : Prop where
  intro ::
  span_eq : decl.span = ⟨a, b⟩
  line : ∃ before line after, source = before ++ ("@param".toList ++ line) ++ after ∧
    a = byteLength before ∧ b = byteLength (before ++ ("@param".toList ++ line)) ∧ '\n' ∉ line
  default : Row (Boundary 0 source) (a + byteLength "@param".toList) b
    (decl.default.toList.map Expr.span)
  mapped : ∀ e ∈ decl.default, e.Mapped source

namespace Template

open Markup

-- The expressions in an item.
def Item.exprs : Item → List Expr
  | .interpolation _ value _ => [value]
  | .inclusion _ _ args _ => args.map Argument.value
  | .condition test _ | .elseCondition test => [test]
  | .loop header _ => [header.2.2]
  | .text _ _ | .otherwise | .close _ => []

-- What an item has to itself besides its expressions: an inclusion has the `@` that it begins with.
def Item.mark : Item → List Span
  | .inclusion _ _ _ span => [⟨span.start, span.start + 1⟩]
  | _ => []

def Item.spans (item : Item) : List Span := item.mark ++ item.exprs.map Expr.span

namespace Item

-- Items in a row, with the operands of their expressions in rows as well.
structure InRow (good : Nat → Prop) (lo hi : Nat) (items : List Item) : Prop where
  row : Row good lo hi (items.flatMap spans)
  nested : ∀ item ∈ items, ∀ e ∈ item.exprs, e.Nested good

namespace InRow

variable {mid : Nat} {items others : List Item}

theorem widen {lo' hi' : Nat} (h : InRow good lo hi items) (hlo : lo' ≤ lo) (hhi : hi ≤ hi') :
    InRow good lo' hi' items :=
  ⟨h.row.widen hlo hhi, h.nested⟩

theorem exists_of_append (h : InRow good lo hi (items ++ others)) :
    ∃ mid, InRow good lo mid items ∧ InRow good mid hi others := by
  obtain ⟨hrow, hnested⟩ := h
  rw [List.flatMap_append] at hrow
  obtain ⟨mid, hfirst, hsecond⟩ := hrow.exists_of_append
  obtain ⟨hitems, hothers⟩ := List.forall_mem_append.mp hnested
  exact ⟨mid, ⟨hfirst, hitems⟩, hsecond, hothers⟩

theorem exists_of_cons {item : Item} (h : InRow good lo hi (item :: items)) :
    ∃ mid, InRow good lo mid [item] ∧ InRow good mid hi items := by
  rw [← List.singleton_append] at h
  exact h.exists_of_append

-- An item with one expression.
theorem expr {item : Item} {e : Expr} (h : InRow good lo hi [item]) (hitem : item.exprs = [e]) :
    Row good lo hi [e.span] ∧ e.Nested good := by
  obtain ⟨hrow, hnested⟩ := h
  rw [List.forall_mem_singleton, hitem, List.forall_mem_singleton] at hnested
  rw [List.flatMap_singleton, spans, hitem] at hrow
  exact ⟨hrow.sublist (List.sublist_append_right _ _), hnested⟩

theorem inclusion {id : Nat} {target : String} {args : List Argument} {span : Span}
    (h : InRow good lo hi [.inclusion id target args span]) :
    good span.start ∧ lo ≤ span.start ∧
      Row good (span.start + 1) hi ((args.map Argument.value).map Expr.span) ∧
        ∀ arg ∈ args, arg.value.Nested good := by
  obtain ⟨hrow, hnested⟩ := h
  rw [List.forall_mem_singleton] at hnested
  rw [List.flatMap_singleton] at hrow
  obtain ⟨hgood, hle, -, hargs⟩ := hrow
  exact ⟨hgood, hle, hargs, fun arg harg => hnested arg.value (List.mem_map_of_mem harg)⟩

-- The tags of a block hold nothing but what opens it.
theorem otherwise {nodes : Option (List Node)}
    (h : InRow good lo hi (Node.itemsOfOtherwise nodes)) :
    InRow good lo hi (Node.itemsOfAll (nodes.getD [])) := by
  cases nodes with
  | none => exact h
  | some nodes => exact ⟨h.row, fun item hitem => h.nested item (List.mem_cons_of_mem _ hitem)⟩

theorem conditional {arms : List Arm} {nodes : Option (List Node)} {span : Span}
    (h : InRow good lo hi (Node.conditional arms nodes span).items) :
    ∃ mid, InRow good lo mid (Node.itemsOfArms (.condition · span.start) arms) ∧
      InRow good mid hi (Node.itemsOfAll (nodes.getD [])) := by
  rw [Node.items_conditional] at h
  obtain ⟨last, hbodies, hclose⟩ := h.exists_of_append
  obtain ⟨mid, harms, hrest⟩ := hbodies.exists_of_append
  exact ⟨mid, harms, hrest.otherwise.widen (Nat.le_refl _) hclose.row.le⟩

theorem loop {element : Binding} {index : Option Binding} {iterable : Expr} {body : List Node}
    {nodes : Option (List Node)} {span : Span}
    (h : InRow good lo hi (Node.loop element index iterable body nodes span).items) :
    ∃ mid last, InRow good lo mid [.loop (element, index, iterable) span.start] ∧
      InRow good mid last (Node.itemsOfAll body) ∧
        InRow good last hi (Node.itemsOfAll (nodes.getD [])) := by
  rw [Node.items_loop] at h
  obtain ⟨next, hbodies, hclose⟩ := h.exists_of_append
  obtain ⟨last, hblock, hrest⟩ := hbodies.exists_of_append
  obtain ⟨mid, hheader, hbody⟩ := hblock.exists_of_cons
  exact ⟨mid, last, hheader, hbody, hrest.otherwise.widen (Nat.le_refl _) hclose.row.le⟩

end InRow

end Item

-- Where an item stands in its source, and what stands there.
inductive Item.At (source : List Char) (a b : Nat) : Item → Prop where
  | text {content : String} (h : LiesIn ⟨a, b⟩ source) : At source a b (.text content ⟨a, b⟩)
  | interpolation {raw : Bool} {value : Expr}
      (h : Encloses source a b (interpolationOpener raw) .braces [value]) :
      At source a b (.interpolation raw value ⟨a, b⟩)
  | inclusion {id : Nat} {target : String} {args : List Argument} {opener : List Char}
      (hopener : Opener opener (.inclusion target))
      (h : Encloses source a b opener .parens (args.map Argument.value)) :
      At source a b (.inclusion id target args ⟨a, b⟩)
  | condition {test : Expr} (h : Encloses source a b "@if(".toList .parens [test]) :
      At source a b (.condition test a)
  | elseCondition {test : Expr} (h : Encloses source a b "@elseif(".toList .parens [test]) :
      At source a b (.elseCondition test)
  | loop {header : Binding × Option Binding × Expr}
      (h : Encloses source a b "@for(".toList .parens (loopExprs header)) :
      At source a b (.loop header a)
  | otherwise (h : sliceBytes? a b source = some "@else".toList) : At source a b .otherwise
  | close {word : List Char} (hword : Bare word .close) (h : sliceBytes? a b source = some word) :
      At source a b (.close b)

theorem Item.At.inRow {item : Item} (hle : a ≤ b) (h : item.At source a b) :
    Row (Boundary 0 source) a b item.spans ∧
      ∀ e ∈ item.exprs, e.Nested (Boundary 0 source) := by
  cases h with
  | text | otherwise | close => exact ⟨.nil hle, by simp [Item.exprs]⟩
  | interpolation h | condition h | elseCondition h =>
    exact ⟨h.row.widen (Nat.le_add_right _ _) (Nat.le_refl _), fun e he => (h.mapped e he).nested⟩
  | loop h =>
    have hsub : ∀ header : Binding × Option Binding × Expr,
        [header.2.2].Sublist (loopExprs header) := fun header => List.sublist_append_right _ _
    refine ⟨?_, fun e he => (h.mapped e ((hsub _).subset he)).nested⟩
    exact (h.row.sublist ((hsub _).map _)).widen (Nat.le_add_right _ _) (Nat.le_refl _)
  | inclusion hopener h =>
    have hpos := hopener.byteLength_pos
    refine ⟨⟨h.boundary, Nat.le_refl _, Nat.lt_succ_self _, ?_⟩, fun e he =>
      (h.mapped e he).nested⟩
    exact h.row.widen (Nat.add_le_add_left hpos a) (Nat.le_refl _)

-- Items that follow one another in a source are in a row.
theorem Item.InRow.of_inTurn {items : List Item} (h : InTurn (Item.At source) lo hi items) :
    Item.InRow (Boundary 0 source) lo hi items where
  row := h.row_flatMap fun _ _ _ hle hat => (hat.inRow hle).1
  nested item hitem := by
    obtain ⟨a, b, -, hle, -, hat⟩ := h.of_mem hitem
    exact (hat.inRow hle).2

-- Declarations in a row. The default of each lies in it.
structure ParamsInRow (good : Nat → Prop) (lo hi : Nat) (params : List ParamDecl) : Prop where
  row : Row good lo hi (params.map ParamDecl.span)
  default : ∀ decl ∈ params, ∀ e ∈ decl.default,
    Row good decl.span.start decl.span.stop [e.span]

theorem ParamsInRow.of_inTurn {params : List ParamDecl}
    (h : InTurn (ParamDecl.At source) lo hi params) :
    ParamsInRow (Boundary 0 source) lo hi params where
  row := by
    rw [List.map_eq_flatMap]
    refine h.row_flatMap fun a b decl _ hat => ?_
    obtain ⟨before, line, after, hsource, rfl, rfl, -⟩ := hat.line
    have hparam : 0 < byteLength "@param".toList := by decide
    rw [hat.span_eq]
    refine .singleton ⟨before, "@param".toList ++ line ++ after, ?_, (Nat.zero_add _).symm⟩
      (Nat.le_refl _) ?_ (Nat.le_refl _)
    · rw [hsource, List.append_assoc]
    · simp only [byteLength_append]
      omega
  default decl hdecl e he := by
    obtain ⟨a, b, -, -, -, hat⟩ := h.of_mem hdecl
    have hdefault := hat.default
    rw [Option.mem_def.mp he] at hdefault
    rw [hat.span_eq]
    exact hdefault.widen (Nat.le_add_right _ _) (Nat.le_refl _)

-- Merging texts leaves the other items.
theorem flatMap_mergeTexts {β : Type} (f : Item → List β)
    (htext : ∀ content span, f (.text content span) = []) (items : List Item) :
    (mergeTexts items).flatMap f = items.flatMap f := by
  induction items with
  | nil => rfl
  | cons item items ih =>
    have hcons : mergeTexts (item :: items) = item.before (mergeTexts items) := rfl
    rw [hcons, List.flatMap_cons, ← ih]
    unfold Item.before
    split
    · next hmerged =>
      rw [hmerged]
      simp [htext]
    · rfl

-- A text made of two takes what is between them as well.
theorem inTurn_mergeTexts {items : List Item} (h : InTurn (Item.At source) lo hi items) :
    InTurn (Item.At source) lo hi (mergeTexts items) := by
  induction items generalizing lo with
  | nil => exact h
  | cons item items ih =>
    obtain ⟨a, b, hlo, hle, hat, hrest⟩ := h
    have hmerged := ih hrest
    have hcons : mergeTexts (item :: items) = item.before (mergeTexts items) := rfl
    rw [hcons]
    unfold Item.before
    split
    · next content span content' span' rest heq =>
      rw [heq] at hmerged
      obtain ⟨a', b', hlo', hle', hat', hrest'⟩ := hmerged
      cases hat with
      | text hlies =>
        cases hat' with
        | text hlies' =>
          have hcover : Span.cover ⟨a, b⟩ ⟨a', b'⟩ = ⟨a, b'⟩ := by
            rw [Span.cover, Nat.min_eq_left (hle.trans hlo'), Nat.max_eq_right (hlo'.trans hle')]
          have hwhole := hlies.cover hlies'
          rw [hcover] at hwhole ⊢
          exact ⟨a, b', hlo, hle.trans (hlo'.trans hle'), .text hwhole, hrest'⟩
    · exact ⟨a, b, hlo, hle, hat, hmerged⟩

section Reading

variable {n m : Nat} {ts : List Token} {row : List Item}

theorem Item.At.inTurn {item : Item} (hle : a ≤ b) (h : item.At source a b) :
    InTurn (Item.At source) a b [item] :=
  .singleton (Nat.le_refl _) hle h (Nat.le_refl _)

section Tags

variable {before after inner : List Char}

theorem inTurn_of_bare {word : List Char} {tag : Tag} (hword : Bare word tag)
    (hsource : source = before ++ word ++ after)
    (h : readToken n (.tag tag ⟨byteLength before, byteLength (before ++ word)⟩) = .ok (row, m)) :
    InTurn (Item.At source) (byteLength before) (byteLength (before ++ word)) row := by
  have hle : byteLength before ≤ byteLength (before ++ word) := by simp
  have hplace : sliceBytes? (byteLength before) (byteLength (before ++ word)) source = some word :=
    sliceBytes?_eq_some_iff.mpr ⟨before, after, hsource, rfl, by simp⟩
  cases tag with
  | comment =>
    obtain ⟨rfl, -⟩ := Prod.mk.inj (Except.ok.inj h)
    exact hle
  | otherwise =>
    obtain ⟨rfl, -⟩ := Prod.mk.inj (Except.ok.inj h)
    cases hword
    exact Item.At.inTurn hle (.otherwise hplace)
  | close =>
    obtain ⟨rfl, -⟩ := Prod.mk.inj (Except.ok.inj h)
    exact Item.At.inTurn hle (.close hword hplace)
  | _ => cases hword

theorem inTurn_of_enclosed {opener : List Char} {tag : Slice → Tag} (hopener : Opener opener tag)
    (hsource : source = before ++ (opener ++ inner ++ [')']) ++ after)
    (hcloses : Delimiters.parens.Closes inner after)
    (h : readToken n (.tag (tag ⟨byteLength before + byteLength opener, inner⟩)
      ⟨byteLength before, byteLength (before ++ (opener ++ inner ++ [')']))⟩) = .ok (row, m)) :
    InTurn (Item.At source) (byteLength before)
      (byteLength (before ++ (opener ++ inner ++ [')']))) row := by
  have hle : byteLength before ≤ byteLength (before ++ (opener ++ inner ++ [')'])) := by simp
  cases hopener with
  | condition =>
    obtain ⟨⟨test, k⟩, hrun, hrow⟩ := exists_of_map_eq_ok h
    obtain ⟨rfl, -⟩ := Prod.mk.inj hrow
    exact Item.At.inTurn hle (.condition
      (encloses_of_runOn (fun _ => Code.consumes_completeExpression) hsource rfl hcloses hrun))
  | elseCondition =>
    obtain ⟨⟨test, k⟩, hrun, hrow⟩ := exists_of_map_eq_ok h
    obtain ⟨rfl, -⟩ := Prod.mk.inj hrow
    exact Item.At.inTurn hle (.elseCondition
      (encloses_of_runOn (fun _ => Code.consumes_completeExpression) hsource rfl hcloses hrun))
  | loop =>
    obtain ⟨⟨header, k⟩, hrun, hrow⟩ := exists_of_map_eq_ok h
    obtain ⟨rfl, -⟩ := Prod.mk.inj hrow
    exact Item.At.inTurn hle (.loop
      (encloses_of_runOn (fun _ => Code.consumes_loopHeader) hsource rfl hcloses hrun))
  | inclusion hname hchars =>
    obtain ⟨⟨args, k⟩, hrun, hrow⟩ := exists_of_map_eq_ok h
    obtain ⟨rfl, -⟩ := Prod.mk.inj hrow
    exact Item.At.inTurn hle (.inclusion (.inclusion hname hchars)
      (encloses_of_runOn (fun _ => Code.consumes_inclusionArgs) hsource rfl hcloses hrun))

end Tags

theorem inTurn_of_readToken {t : Token} (hle : a ≤ b) (ht : t.At source a b)
    (h : readToken n t = .ok (row, m)) : InTurn (Item.At source) a b row := by
  cases ht with
  | text hs hspan =>
    obtain ⟨rfl, -⟩ := Prod.mk.inj (Except.ok.inj h)
    obtain ⟨before, after, hsource, hstart⟩ := hs
    refine Item.At.inTurn hle ?_
    rw [hspan]
    refine .text ?_
    rw [← hspan, hsource, Slice.span, Slice.stop, hstart]
    exact liesIn_of_append
  | @piece before m' after _ htext hsource ha hb hm hcloses =>
    subst ha hb
    cases hm with
    | text => exact absurd rfl (htext _)
    | last hm =>
      cases hm
      obtain ⟨rfl, -⟩ := Prod.mk.inj (Except.ok.inj h)
      exact hle
    | piece hm =>
      cases hm with
      | raw => exact absurd rfl (htext _)
      | param =>
        obtain ⟨rfl, -⟩ := Prod.mk.inj (Except.ok.inj h)
        exact hle
      | bare hword =>
        rw [← byteLength_append] at h
        exact inTurn_of_bare hword hsource h
      | @enclosed opener tag hopener inner =>
        have hcode := hcloses .parens ⟨byteLength before + byteLength opener, inner⟩
          (by cases hopener <;> rfl)
        rw [← byteLength_append before (opener ++ inner ++ [')'])] at h
        exact inTurn_of_enclosed hopener hsource hcode h
      | interpolation raw inner =>
        obtain ⟨⟨value, k⟩, hrun, hrow⟩ := exists_of_map_eq_ok h
        obtain ⟨rfl, -⟩ := Prod.mk.inj hrow
        rw [← byteLength_append before]
        exact Item.At.inTurn hle (.interpolation (encloses_of_runOn
          (fun _ => Code.consumes_completeExpression) hsource rfl (hcloses _ _ rfl) hrun))

theorem inTurn_of_readTokens (hts : InTurn (Token.At source) lo hi ts)
    (h : readTokens n ts = .ok (row, m)) : InTurn (Item.At source) lo hi row := by
  induction ts generalizing n lo row with
  | nil =>
    obtain ⟨rfl, -⟩ := Prod.mk.inj (Except.ok.inj h)
    exact hts
  | cons t ts ih =>
    obtain ⟨first, k, rest, hfirst, hrest, rfl⟩ := readTokens_cons h
    obtain ⟨a, b, hlo, hle, hat, hbehind⟩ := hts
    have hitems := inTurn_of_readToken hle hat hfirst
    exact (hitems.widen hlo (Nat.le_refl _)).append (ih hbehind hrest)

-- A declaration stands where its span says.
theorem at_of_paramDecl {slice : Slice} {span : Span} {decl : ParamDecl}
    (ht : (Token.tag (.param slice) span).At source a b)
    (h : (Code.paramDecl span).runOn slice n = .ok (decl, m)) :
    span.start = a ∧ span.start ≤ span.stop ∧ span.stop ≤ b ∧
      decl.At source span.start span.stop := by
  cases ht with
  | @piece before m' after _ htext hsource ha hb hm hcloses =>
    obtain ⟨line, tail, rfl, hline, rfl, rfl⟩ := hm.exists_line
    subst ha hb
    have hparam : byteLength "@param".toList = 6 := by decide
    obtain ⟨returns, hreturns⟩ := exists_append_dropReturns line
    have hlength := congrArg byteLength hreturns
    have hsplit : "@param".toList ++ line = "@param".toList ++ dropReturns line ++ returns := by
      rw [List.append_assoc, ← hreturns]
    rw [byteLength_append] at hlength
    have hlies : Slice.LiesIn ⟨byteLength before + 6, dropReturns line⟩ source := by
      refine ⟨before ++ "@param".toList, returns ++ tail ++ after, ?_, ?_⟩
      · rw [hsource, hsplit]
        simp only [List.append_assoc]
      · rw [byteLength_append, hparam]
    obtain ⟨ts, read, htokens, hsub, hspan, hamong⟩ :=
      Code.exists_read_of_runOn (fun _ => Code.consumes_paramDecl _) h
    obtain ⟨hrow, hmapped⟩ := hamong.mapped hlies htokens hsub
    refine ⟨rfl, ?_, ?_, hspan, ⟨before, line, tail ++ after, ?_, rfl, ?_, hline⟩, ?_, ?_⟩
    · rw [Nat.add_assoc]
      exact Nat.le_add_right _ _
    · simp only [byteLength_append, hparam]
      omega
    · rw [hsource]
      simp only [List.append_assoc]
    · simp only [byteLength_append, hparam, Nat.add_assoc]
    · rw [hparam]
      refine hrow.widen (Nat.le_refl _) ?_
      simp only [Slice.stop]
      omega
    · intro e he
      exact hmapped e (Option.mem_toList.mpr he)

theorem inTurn_of_readHeader {params : List ParamDecl} (hts : InTurn (Token.At source) lo hi ts)
    (h : readHeader n ts = .ok (params, m)) :
    InTurn (ParamDecl.At source) lo hi params := by
  induction ts generalizing n lo params m with
  | nil =>
    obtain ⟨rfl, -⟩ := Prod.mk.inj (Except.ok.inj h)
    exact hts
  | cons t ts ih =>
    obtain ⟨a, b, hlo, hle, hat, hbehind⟩ := hts
    -- What is no declaration says nothing.
    have hskip (hread : readHeader n ts = .ok (params, m)) :
        InTurn (ParamDecl.At source) lo hi params :=
      (ih hbehind hread).widen (hlo.trans hle) (Nat.le_refl _)
    cases t with
    | tag tag span =>
      cases tag with
      | param inner =>
        obtain ⟨decl, k, others, hparam, hrest, rfl⟩ := readHeader_cons h
        obtain ⟨hstart, hne, hstop, hdecl⟩ := at_of_paramDecl hat hparam
        exact ⟨span.start, span.stop, hstart ▸ hlo, hne, hdecl,
          (ih hbehind hrest).widen hstop (Nat.le_refl _)⟩
      | _ => exact hskip h
    | _ => exact hskip h

end Reading

-- What is read from a source stands in it: the declarations, and the items of the body behind them.
theorem inTurn_of_parse {source : String} {trimLines : Bool} {t : Template}
    (h : parse source trimLines = .ok t) : ∃ mid,
      InTurn (ParamDecl.At source.toList) 0 mid t.params ∧
        InTurn (Item.At source.toList) mid (byteLength source.toList) (Node.itemsOfAll t.body) := by
  obtain ⟨tokens, ts, hlex, hts, hof⟩ := exists_tokens_of_parse h
  have hturn : InTurn (Token.At source.toList) 0 (byteLength source.toList) ts := by
    rcases hts with rfl | rfl
    · exact inTurn_of_tokens hlex
    · exact inTurn_trim (inTurn_of_tokens hlex)
  rcases ofTokens_cases (.of_tokens hlex hts) with
    ⟨fault, hfault, -⟩ | ⟨t', row, hok, hread, hitems⟩
  · cases hfault.symm.trans hof
  · obtain rfl := Except.ok.inj (hok.symm.trans hof)
    obtain ⟨n, hheader, -, htokens⟩ := readTemplate_eq_ok_iff.mp hread
    rw [← header_append_behindHeader ts] at hturn
    obtain ⟨mid, hfirst, hsecond⟩ := hturn.exists_of_append
    refine ⟨mid, inTurn_of_readHeader hfirst hheader, ?_⟩
    rw [hitems]
    exact inTurn_mergeTexts (inTurn_of_readTokens hsecond htokens)

-- A template in its source: the declarations are in a row, and so is the body behind them.
def InRow (good : Nat → Prop) (t : Template) : Prop :=
  ∃ lo mid hi, ParamsInRow good lo mid t.params ∧ Item.InRow good mid hi (Node.itemsOfAll t.body)

theorem inRow_of_parse {source : String} {trimLines : Bool} {t : Template}
    (h : parse source trimLines = .ok t) : t.InRow (Boundary 0 source.toList) := by
  obtain ⟨mid, hparams, hitems⟩ := inTurn_of_parse h
  exact ⟨0, mid, _, .of_inTurn hparams, .of_inTurn hitems⟩

end Template

end Stencil
