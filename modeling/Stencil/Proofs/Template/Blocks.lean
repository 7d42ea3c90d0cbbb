import Stencil.Proofs.Effects
import Stencil.Proofs.Template.Automaton
import Stencil.Proofs.Template.Trimming

/-!
The reader of bodies does what the automaton does: it stops at the same token with the same fault,
or gives nodes that are, as a row of items, what the tokens say one by one.
-/

namespace Stencil

namespace Template

open Markup

namespace Reading

theorem after_nil (reading : Reading) : reading.after [] = reading := by
  cases reading <;> rfl

theorem after_after (reading : Reading) (items items' : List Item) :
    (reading.after items').after items = reading.after (items ++ items') := by
  cases reading with
  | error fault => rfl
  | ok read => simp [after, Except.map]

end Reading

def Item.isText : Item → Bool
  | .text _ _ => true
  | _ => false

theorem mergeTexts_cons {item : Item} (h : item.isText = false) (items : List Item) :
    mergeTexts (item :: items) = item :: mergeTexts items := by
  cases item with
  | text => cases h
  | _ => rfl

theorem Item.before_append_cons {item : Item} (h : item.isText = false) (first : Item)
    (items after : List Item) :
    first.before (items ++ item :: after) = first.before items ++ item :: after := by
  cases items with
  | cons second items => cases first <;> cases second <;> rfl
  | nil =>
    cases item with
    | text => cases h
    | _ => cases first <;> rfl

-- Text is not merged across anything else.
theorem mergeTexts_append_cons {item : Item} (h : item.isText = false) (before after : List Item) :
    mergeTexts (before ++ item :: after) = mergeTexts before ++ item :: mergeTexts after := by
  induction before with
  | nil => exact mergeTexts_cons h after
  | cons first before ih =>
    calc
      mergeTexts (first :: before ++ item :: after)
      _ = first.before (mergeTexts before ++ item :: mergeTexts after) := congrArg first.before ih
      _ = mergeTexts (first :: before) ++ item :: mergeTexts after :=
        Item.before_append_cons h first _ _

end Template

open Template

namespace Node

def itemsOfOtherwise : Option (List Node) → List Item
  | none => []
  | some otherwise => .otherwise :: itemsOfAll otherwise

theorem items_conditional (arms : List Arm) (otherwise : Option (List Node)) (span : Span) :
    (conditional arms otherwise span).items =
      itemsOfArms (.condition · span.start) arms ++ itemsOfOtherwise otherwise ++
        [.close span.stop] := by
  cases otherwise <;> simp [items, itemsOfOtherwise]

theorem items_loop (element : Binding) (index : Option Binding) (iterable : Expr)
    (body : List Node) (otherwise : Option (List Node)) (span : Span) :
    (loop element index iterable body otherwise span).items =
      .loop (element, index, iterable) span.start :: itemsOfAll body ++
        itemsOfOtherwise otherwise ++ [.close span.stop] := by
  cases otherwise <;> simp [items, itemsOfOtherwise]

end Node

mutual

-- A node and all nodes in it.
def Node.parts : Node → List Node
  | .text content span => [.text content span]
  | .interpolation raw value span => [.interpolation raw value span]
  | .conditional arms none span => .conditional arms none span :: Node.partsOfArms arms
  | .conditional arms (some otherwise) span =>
    .conditional arms (some otherwise) span :: Node.partsOfArms arms ++ Node.partsOfAll otherwise
  | .loop element index iterable body none span =>
    .loop element index iterable body none span :: Node.partsOfAll body
  | .loop element index iterable body (some otherwise) span =>
    .loop element index iterable body (some otherwise) span :: Node.partsOfAll body ++
      Node.partsOfAll otherwise
  | .inclusion id target args span => [.inclusion id target args span]

def Node.partsOfAll : List Node → List Node
  | [] => []
  | node :: nodes => node.parts ++ Node.partsOfAll nodes

def Node.partsOfArms : List Arm → List Node
  | [] => []
  | .mk _ body :: arms => Node.partsOfAll body ++ Node.partsOfArms arms

end

-- All nodes of the body, however deep.
def Template.nodes (t : Template) : List Node := Node.partsOfAll t.body

theorem Node.parts_conditional (arms : List Arm) (otherwise : Option (List Node)) (span : Span) :
    (Node.conditional arms otherwise span).parts =
      .conditional arms otherwise span ::
        (Node.partsOfArms arms ++ Node.partsOfAll (otherwise.getD [])) := by
  cases otherwise <;> simp [Node.parts, Node.partsOfAll]

theorem Node.parts_loop (element : Binding) (index : Option Binding) (iterable : Expr)
    (body : List Node) (otherwise : Option (List Node)) (span : Span) :
    (Node.loop element index iterable body otherwise span).parts =
      .loop element index iterable body otherwise span ::
        (Node.partsOfAll body ++ Node.partsOfAll (otherwise.getD [])) := by
  cases otherwise <;> simp [Node.parts, Node.partsOfAll]

namespace Template

open Markup

namespace Builder

theorem itemsOfAll_consText (s : Slice) (nodes : List Node) :
    Node.itemsOfAll (consText s nodes) =
      (Item.text s.text s.span).before (Node.itemsOfAll nodes) := by
  cases nodes with
  | nil => rfl
  | cons node nodes =>
    cases node with
    | text => rfl
    | conditional arms otherwise span =>
      cases arms with
      | nil => cases otherwise <;> rfl
      | cons arm arms => cases otherwise <;> cases arm <;> rfl
    | loop element index iterable body otherwise span => cases otherwise <;> rfl
    | _ => rfl

-- A reader that begins where the automaton stands fails as the automaton does; or both go on, the
-- automaton having read some items.
def Tracks {α : Type} (x : Builder α) (p : Progress) (reading : Reading)
    (post : α → Progress → List Item → Reading → Prop) : Prop :=
  (∃ fault, x.run p = .error fault ∧ reading = .error fault) ∨
    ∃ a p' items rest, x.run p = .ok (a, p') ∧ reading = Reading.after items rest ∧
      post a p' items rest

namespace Tracks

variable {α β : Type} {x : Builder α} {p : Progress} {reading : Reading}
  {post : α → Progress → List Item → Reading → Prop}

theorem pure {a : α} (h : post a p [] reading) : Tracks (Pure.pure a) p reading post :=
  .inr ⟨a, p, [], reading, rfl, reading.after_nil.symm, h⟩

theorem bind {f : α → Builder β} {post' : β → Progress → List Item → Reading → Prop}
    (h : Tracks x p reading post)
    (hnext : ∀ a p' items rest, post a p' items rest →
      Tracks (f a) p' rest fun b p'' items' rest' => post' b p'' (items ++ items') rest') :
    Tracks (x >>= f) p reading post' := by
  rcases h with ⟨fault, hx, hreading⟩ | ⟨a, p', items, rest, hx, hreading, hpost⟩
  · exact .inl ⟨fault, run_bind_of_error hx, hreading⟩
  · have hxf : (x >>= f).run p = (f a).run p' := run_bind_of_ok hx
    rcases hnext a p' items rest hpost with
      ⟨fault, hf, hrest⟩ | ⟨b, p'', items', rest', hf, hrest, hpost'⟩
    · refine .inl ⟨fault, hxf.trans hf, ?_⟩
      rw [hreading, hrest]
      rfl
    · refine .inr ⟨b, p'', items ++ items', rest', hxf.trans hf, ?_, hpost'⟩
      rw [hreading, hrest, Reading.after_after]

theorem weaken {post' : α → Progress → List Item → Reading → Prop}
    (h : Tracks x p reading post)
    (himp : ∀ a p' items rest, post a p' items rest → post' a p' items rest) :
    Tracks x p reading post' := by
  rcases h with h | ⟨a, p', items, rest, hx, hreading, hpost⟩
  · exact .inl h
  · exact .inr ⟨a, p', items, rest, hx, hreading, himp a p' items rest hpost⟩

-- The automaton has read a tag alone.
theorem after {row : List Item}
    (h : Tracks x p reading fun a p' items rest => post a p' (row ++ items) rest) :
    Tracks x p (reading.after row) post := by
  rcases h with ⟨fault, hx, hreading⟩ | ⟨a, p', items, rest, hx, hreading, hpost⟩
  · exact .inl ⟨fault, hx, by rw [hreading]; rfl⟩
  · exact .inr ⟨a, p', row ++ items, rest, hx, by rw [hreading, Reading.after_after], hpost⟩

theorem of_run (y : Builder α) (q : Progress) (hrun : x.run p = y.run q)
    (h : Tracks y q reading post) : Tracks x p reading post := by
  unfold Tracks
  rwa [hrun]

end Tracks

end Builder

namespace Blocks

-- A token with code that the automaton lets pass.
theorem run_code {α : Type} {blocks blocks' : List OpenBlock} {n : Nat} {t : Token}
    {reader : Code.Reader α} (slice : Slice) (item : α → Item)
    (hstep : step blocks t = .ok blocks') (hread : readToken n t = .code reader slice n item)
    (ts : List Token) :
    run blocks n (t :: ts) =
      (reader.runOn slice n).bind fun (a, n) => (run blocks' n ts).after [item a] := by
  rw [run_eq_bind, hstep, hread]
  unfold Reading.code
  cases reader.runOn slice n <;> rfl

-- A token without code.
theorem run_plain {blocks blocks' : List OpenBlock} {n : Nat} {t : Token} (items : List Item)
    (hstep : step blocks t = .ok blocks') (hread : readToken n t = .ok (items, n))
    (ts : List Token) : run blocks n (t :: ts) = (run blocks' n ts).after items := by
  rw [run_eq_bind, hstep, hread]
  rfl

-- An inclusion takes a number of its own, behind those of its arguments.
theorem run_inclusion (blocks : List OpenBlock) (n : Nat) (target : String) (slice : Slice)
    (span : Span) (ts : List Token) :
    run blocks n (.tag (.inclusion target slice) span :: ts) =
      (Code.inclusionArgs.runOn slice n).bind fun (args, n) =>
        (run blocks (n + 1) ts).after [.inclusion n target args span] := by
  have hstep : step blocks (.tag (.inclusion target slice) span) = .ok blocks := rfl
  rw [run_eq_bind, hstep]
  simp only [readToken]
  cases Code.inclusionArgs.runOn slice n <;> rfl

theorem run_error {blocks : List OpenBlock} {n : Nat} {t : Token} {fault : Fault}
    (hstep : step blocks t = .error fault) (ts : List Token) :
    run blocks n (t :: ts) = .error fault := by
  rw [run_eq_bind, hstep]
  rfl

end Blocks

namespace Builder

-- The tag that ended a body.
def Stop.tokens : Stop → List Token
  | .endOfSource => []
  | .elseCondition test span => [.tag (.elseCondition test) span]
  | .otherwise span => [.tag .otherwise span]
  | .close span => [.tag .close span]

-- What follows a tag begins and ends behind it.
def Ordered (ts : List Token) : Prop :=
  ts.Pairwise fun t u => ∀ tag span tag' span', t = .tag tag span → u = .tag tag' span' →
    span.cover span' = ⟨span.start, span'.stop⟩

-- A body that was read from `p` on, within some open blocks. The tag that ended it is still to be
-- read by the automaton.
structure ReadBody (blocks : List OpenBlock) (p : Progress) (read : List Node × Stop)
    (p' : Progress) (items : List Item) (rest : Reading) : Prop where
  items : mergeTexts items = Node.itemsOfAll read.1
  rest : rest = Blocks.run blocks p'.nextId (read.2.tokens ++ p'.tokens)
  used : ∃ consumed, p.tokens = consumed ++ (read.2.tokens ++ p'.tokens)
  ended : read.2 = .endOfSource → p'.tokens = []

-- A reader of bodies that does what the automaton does within some open blocks.
def Follows (blocks : List OpenBlock) (body : BodyReader) : Prop :=
  ∀ p, Ordered p.tokens →
    Tracks body p (Blocks.run blocks p.nextId p.tokens) (ReadBody blocks p)

variable {blocks outer : List OpenBlock} {p : Progress}

theorem tracks_code {α : Type} (reader : Code.Reader α) (slice : Slice) (item : α → Nat → Item)
    (next : Nat → Reading) :
    Tracks (code reader slice) p
      ((reader.runOn slice p.nextId).bind fun (a, n) => (next n).after [item a n])
      fun a p' items rest => ∃ n, p' = ⟨p.tokens, n⟩ ∧ items = [item a n] ∧ rest = next n := by
  unfold Tracks
  rw [run_code]
  unfold Code.Reader.runOn
  cases Code.tokens slice.start slice.chars with
  | error fault => exact .inl ⟨fault, rfl, rfl⟩
  | ok tokens =>
    cases hread : reader.run ⟨tokens, slice.stop, p.nextId⟩ with
    | error fault =>
      refine .inl ⟨fault, ?_, ?_⟩ <;> simp only [bind, Except.bind, hread]
    | ok read =>
      obtain ⟨a, cursor⟩ := read
      refine .inr ⟨a, ⟨p.tokens, cursor.nextId⟩, [item a cursor.nextId], next cursor.nextId,
        ?_, ?_, cursor.nextId, rfl, rfl, rfl⟩
      · simp only [bind, Except.bind, hread]
        rfl
      · simp only [bind, Except.bind, hread]
        rfl

-- The end of a block. The automaton has the tag that ended its last body still before it; the tag
-- is none that the block may go on with.
theorem tracks_closed {kind : BlockKind} {opener : Span} {seen : Bool} {stop : Stop}
    (hended : stop = .endOfSource → p.tokens = [])
    (hlast : seen = true ∨ (∀ span, stop ≠ .otherwise span) ∧
      (kind = .loop ∨ ∀ test span, stop ≠ .elseCondition test span))
    (hcover : ∀ span, stop = .close span → opener.cover span = ⟨opener.start, span.stop⟩) :
    Tracks (closed kind opener stop) p
      (Blocks.run (⟨kind, opener.start, seen⟩ :: outer) p.nextId (stop.tokens ++ p.tokens))
      fun span p' items rest => p' = p ∧ items = [.close span.stop] ∧
        span.start = opener.start ∧ rest = Blocks.run outer p.nextId p.tokens := by
  cases stop with
  | close span =>
    refine .inr ⟨opener.cover span, p, [.close span.stop], _, rfl, Blocks.run_plain _ rfl rfl _,
      rfl, ?_, ?_, rfl⟩
    · rw [hcover span rfl]
    · rw [hcover span rfl]
  | endOfSource =>
    refine .inl ⟨⟨.unclosedBlock kind, opener.start⟩, rfl, ?_⟩
    rw [hended rfl]
    rfl
  | elseCondition test span =>
    refine .inl ⟨⟨.unexpectedTag .elseIf, span.start⟩, rfl, Blocks.run_error ?_ _⟩
    rcases hlast with rfl | ⟨-, rfl | hnever⟩
    · cases kind <;> rfl
    · rfl
    · exact absurd rfl (hnever test span)
  | otherwise span =>
    refine .inl ⟨⟨.unexpectedTag .otherwise, span.start⟩, rfl, Blocks.run_error ?_ _⟩
    rcases hlast with rfl | ⟨hnever, -⟩
    · rfl
    · exact absurd rfl (hnever span)

theorem Ordered.of_suffix {ts us : List Token} (h : Ordered ts) (hsuffix : us <:+ ts) :
    Ordered us :=
  List.Pairwise.sublist hsuffix.sublist h

theorem ReadBody.suffix {read : List Node × Stop} {p' : Progress} {items : List Item}
    {rest : Reading} (h : ReadBody blocks p read p' items rest) : p'.tokens <:+ p.tokens := by
  obtain ⟨consumed, hused⟩ := h.used
  rw [hused, ← List.append_assoc]
  exact List.suffix_append _ _

theorem ReadBody.close_mem {read : List Node × Stop} {p' : Progress} {items : List Item}
    {rest : Reading} (h : ReadBody blocks p read p' items rest) {span : Span}
    (hstop : read.2 = .close span) : .tag .close span ∈ p.tokens := by
  obtain ⟨consumed, hused⟩ := h.used
  rw [hused, hstop]
  simp [Stop.tokens]

-- The last body of a block, behind its `@else`.
theorem tracks_last {α : Type} {body : BodyReader} {kind : BlockKind} {opener : Span}
    {k : List Node → Span → Builder α} {post : α → Progress → List Item → Reading → Prop}
    (hbody : Follows (⟨kind, opener.start, true⟩ :: outer) body) (hordered : Ordered p.tokens)
    (hcover : ∀ span, .tag .close span ∈ p.tokens →
      opener.cover span = ⟨opener.start, span.stop⟩)
    (hk : ∀ last span p' items, mergeTexts items = Node.itemsOfAll last →
      span.start = opener.start → p'.tokens <:+ p.tokens →
      Tracks (k last span) p' (Blocks.run outer p'.nextId p'.tokens)
        fun a p'' items' rest => post a p'' (items ++ .close span.stop :: items') rest) :
    Tracks (do
        let read ← body
        k read.1 (← closed kind opener read.2)) p
      (Blocks.run (⟨kind, opener.start, true⟩ :: outer) p.nextId p.tokens) post := by
  refine .bind (hbody p hordered) ?_
  rintro read p₁ items _ hread
  obtain rfl := hread.rest
  refine .bind (tracks_closed hread.ended (.inl rfl)
    fun span hstop => hcover span (hread.close_mem hstop)) ?_
  rintro span _ _ _ ⟨rfl, rfl, hstart, rfl⟩
  exact hk read.1 span _ _ hread.items hstart hread.suffix

-- A row that begins with the first tag of a block and ends with its last.
structure Enclosed (items : List Item) : Prop where
  first : ∃ item rest, items = item :: rest ∧ item.isText = false
  last : ∃ rest item, items = rest ++ [item] ∧ item.isText = false

theorem Enclosed.mergeTexts_before {items : List Item} (h : Enclosed items) (before : List Item) :
    mergeTexts (before ++ items) = mergeTexts before ++ mergeTexts items := by
  obtain ⟨item, rest, rfl, hitem⟩ := h.first
  rw [mergeTexts_append_cons hitem, mergeTexts_cons hitem]

theorem Enclosed.mergeTexts_after {items : List Item} (h : Enclosed items) (after : List Item) :
    mergeTexts (items ++ after) = mergeTexts items ++ mergeTexts after := by
  obtain ⟨rest, item, rfl, hitem⟩ := h.last
  rw [List.append_assoc, List.singleton_append, mergeTexts_append_cons hitem,
    mergeTexts_append_cons hitem, List.append_assoc]
  rfl

-- What the reader of a block leaves: the items of its tokens are, with texts merged, a given row.
structure ReadBlock (outer : List OpenBlock) (p : Progress) (row : List Item) (p' : Progress)
    (items : List Item) (rest : Reading) : Prop where
  merged : mergeTexts items = row
  enclosed : Enclosed items
  rest : rest = Blocks.run outer p'.nextId p'.tokens
  used : p'.tokens <:+ p.tokens

-- The row of the arms of a conditional, from the item that `first` makes of the first test to the
-- closing tag.
abbrev rowOfArms (first : Expr → Item) (read : List Arm × Option (List Node) × Span) : List Item :=
  Node.itemsOfArms first read.1 ++ Node.itemsOfOtherwise read.2.1 ++ [.close read.2.2.stop]

-- The tag with the test was met, and its code is still to be read on both sides.
theorem tracks_arms {body : BodyReader} {opener : Span}
    (hbody : ∀ seen, Follows (⟨.conditional, opener.start, seen⟩ :: outer) body) (fuel : Nat)
    (test : Slice) (first : Expr → Item) (hfirst : ∀ e, (first e).isText = false)
    (hordered : Ordered p.tokens) (hfuel : p.tokens.length < fuel)
    (hcover : ∀ span, .tag .close span ∈ p.tokens →
      opener.cover span = ⟨opener.start, span.stop⟩) :
    Tracks (arms body opener fuel test) p
      ((Code.completeExpression.runOn test p.nextId).bind fun (test, n) =>
        (Blocks.run (⟨.conditional, opener.start, false⟩ :: outer) n p.tokens).after [first test])
      fun read p' items rest => read.2.2.start = opener.start ∧
        ReadBlock outer p (rowOfArms first read) p' items rest := by
  induction fuel generalizing test first p with
  | zero => exact absurd hfuel (Nat.not_lt_zero _)
  | succ fuel ih =>
    refine .bind (tracks_code Code.completeExpression test (fun test _ => first test)
      (Blocks.run (⟨.conditional, opener.start, false⟩ :: outer) · p.tokens)) ?_
    rintro test _ _ _ ⟨n, rfl, rfl, rfl⟩
    refine .bind (hbody false ⟨p.tokens, n⟩ hordered) ?_
    rintro ⟨nodes, stop⟩ p₁ items _ hread
    obtain rfl := hread.rest
    have hitems : mergeTexts items = Node.itemsOfAll nodes := hread.items
    have hsuffix : p₁.tokens <:+ p.tokens := hread.suffix
    cases stop with
    | elseCondition next span =>
      obtain ⟨consumed, hused⟩ := hread.used
      have hlength := congrArg List.length hused
      simp only [Stop.tokens, List.length_append, List.length_cons, List.length_nil] at hlength
      simp only [Stop.tokens, List.cons_append, List.nil_append]
      rw [Blocks.run_code next .elseCondition rfl rfl]
      refine .bind (ih next .elseCondition (fun _ => rfl) (hordered.of_suffix hsuffix) (by omega)
        fun span hclose => hcover span (hsuffix.subset hclose)) ?_
      rintro ⟨rest, otherwise, span⟩ p₂ items' _ ⟨hstart, hitems', henclosed, rfl, hsuffix'⟩
      obtain ⟨front, item, hlast, hitem⟩ := henclosed.last
      refine .pure ⟨hstart, ?_, ⟨⟨_, _, rfl, hfirst test⟩, first test :: items ++ front, item, ?_,
        hitem⟩, rfl, hsuffix'.trans hsuffix⟩
      case refine_2 => simp [hlast]
      rw [List.append_nil]
      rw [mergeTexts_cons (hfirst test), henclosed.mergeTexts_before, hitems, hitems']
      simp [rowOfArms, Node.itemsOfArms]
    | otherwise span =>
      simp only [Stop.tokens, List.cons_append, List.nil_append]
      rw [Blocks.run_plain [.otherwise] rfl rfl]
      refine .after (tracks_last (k := fun last span => pure ([Arm.mk test nodes], some last, span))
        (hbody true) (hordered.of_suffix hsuffix)
        (fun span hclose => hcover span (hsuffix.subset hclose)) ?_)
      intro last span p₂ items' hitems' hstart hsuffix'
      refine .pure ⟨hstart, ?_, ⟨⟨_, _, rfl, hfirst test⟩,
        first test :: items ++ .otherwise :: items', .close span.stop, ?_, rfl⟩, rfl,
        hsuffix'.trans hsuffix⟩
      case refine_2 => simp
      change mergeTexts (first test :: (items ++ .otherwise :: (items' ++ [.close span.stop]))) = _
      rw [mergeTexts_cons (hfirst test), mergeTexts_append_cons rfl, mergeTexts_append_cons rfl,
        hitems, hitems']
      simp [rowOfArms, Node.itemsOfArms, Node.itemsOfOtherwise, mergeTexts]
    | endOfSource | close =>
      refine .bind (tracks_closed hread.ended (.inr ⟨by simp, .inr (by simp)⟩)
        fun span hstop => hcover span (hread.close_mem hstop)) ?_
      rintro span _ _ _ ⟨rfl, rfl, hstart, rfl⟩
      refine .pure ⟨hstart, ?_, ⟨⟨_, _, rfl, hfirst test⟩, first test :: items,
        .close span.stop, ?_, rfl⟩, rfl, hsuffix⟩
      case refine_2 => simp
      change mergeTexts (first test :: (items ++ [.close span.stop])) = _
      rw [mergeTexts_cons (hfirst test), mergeTexts_append_cons rfl, hitems]
      simp [rowOfArms, Node.itemsOfArms, Node.itemsOfOtherwise, mergeTexts]

theorem tracks_conditional {body : BodyReader} {opener : Span}
    (hbody : ∀ seen, Follows (⟨.conditional, opener.start, seen⟩ :: outer) body) (test : Slice)
    (hordered : Ordered p.tokens)
    (hcover : ∀ span, .tag .close span ∈ p.tokens →
      opener.cover span = ⟨opener.start, span.stop⟩) :
    Tracks (conditional body opener test) p
      ((Code.completeExpression.runOn test p.nextId).bind fun (test, n) =>
        (Blocks.run (⟨.conditional, opener.start, false⟩ :: outer) n p.tokens).after
          [.condition test opener.start])
      fun node p' items rest => ReadBlock outer p node.items p' items rest := by
  refine .of_run
    (do
      let read ← arms body opener (p.tokens.length + 1) test
      return .conditional read.1 read.2.1 read.2.2)
    p rfl (.bind (tracks_arms hbody _ test (.condition · opener.start)
      (fun _ => rfl) hordered (Nat.lt_succ_self _) hcover) ?_)
  rintro ⟨arms, otherwise, span⟩ p' items rest ⟨hstart, hread⟩
  refine .pure ?_
  rw [List.append_nil, Node.items_conditional, hstart]
  exact hread

theorem tracks_loop {body : BodyReader} {opener : Span}
    (hbody : ∀ seen, Follows (⟨.loop, opener.start, seen⟩ :: outer) body) (header : Slice)
    (hordered : Ordered p.tokens)
    (hcover : ∀ span, .tag .close span ∈ p.tokens →
      opener.cover span = ⟨opener.start, span.stop⟩) :
    Tracks (loop body opener header) p
      ((Code.loopHeader.runOn header p.nextId).bind fun (header, n) =>
        (Blocks.run (⟨.loop, opener.start, false⟩ :: outer) n p.tokens).after
          [.loop header opener.start])
      fun node p' items rest => ReadBlock outer p node.items p' items rest := by
  refine .bind (tracks_code Code.loopHeader header (fun header _ => .loop header opener.start)
    (Blocks.run (⟨.loop, opener.start, false⟩ :: outer) · p.tokens)) ?_
  rintro ⟨element, index, iterable⟩ _ _ _ ⟨n, rfl, rfl, rfl⟩
  refine .bind (hbody false ⟨p.tokens, n⟩ hordered) ?_
  rintro ⟨nodes, stop⟩ p₁ items _ hread
  obtain rfl := hread.rest
  have hitems : mergeTexts items = Node.itemsOfAll nodes := hread.items
  have hsuffix : p₁.tokens <:+ p.tokens := hread.suffix
  cases stop with
  | otherwise span =>
    simp only [Stop.tokens, List.cons_append, List.nil_append]
    rw [Blocks.run_plain [.otherwise] rfl rfl]
    refine .after (tracks_last
      (k := fun last span => pure (Node.loop element index iterable nodes (some last) span))
      (hbody true) (hordered.of_suffix hsuffix)
      (fun span hclose => hcover span (hsuffix.subset hclose)) ?_)
    intro last span p₂ items' hitems' hstart hsuffix'
    refine .pure ⟨?_, ⟨⟨_, _, rfl, rfl⟩, .loop (element, index, iterable) opener.start :: items ++
      .otherwise :: items', .close span.stop, by simp, rfl⟩, rfl, hsuffix'.trans hsuffix⟩
    change mergeTexts (_ :: (items ++ .otherwise :: (items' ++ [.close span.stop]))) = _
    rw [mergeTexts_cons rfl, mergeTexts_append_cons rfl, mergeTexts_append_cons rfl, hitems,
      hitems', Node.items_loop, hstart]
    simp [Node.itemsOfOtherwise, mergeTexts]
  | endOfSource | elseCondition | close =>
    refine .bind (tracks_closed hread.ended (.inr ⟨by simp, .inl rfl⟩)
      fun span hstop => hcover span (hread.close_mem hstop)) ?_
    rintro span _ _ _ ⟨rfl, rfl, hstart, rfl⟩
    refine .pure ⟨?_, ⟨⟨_, _, rfl, rfl⟩, .loop (element, index, iterable) opener.start :: items,
      .close span.stop, by simp, rfl⟩, rfl, hsuffix⟩
    change mergeTexts (_ :: (items ++ [.close span.stop])) = _
    rw [mergeTexts_cons rfl, mergeTexts_append_cons rfl, hitems, Node.items_loop, hstart]
    simp [Node.itemsOfOtherwise, mergeTexts]

-- The reader of the bodies of further blocks. There is none where so many blocks are open that the
-- automaton opens no more.
def Nests (blocks : List OpenBlock) : Option BodyReader → Prop
  | none => ¬ blocks.length < maxNesting
  | some body => blocks.length < maxNesting ∧ ∀ block, Follows (block :: blocks) body

-- The rest of a body, behind what was read on the way from `p` to `q`.
theorem tracks_rest {body : BodyReader} {q : Progress} {row : List Item}
    {add : List Node → List Node}
    (hbody : Tracks body q (Blocks.run blocks q.nextId q.tokens) (ReadBody blocks q))
    (hsuffix : q.tokens <:+ p.tokens)
    (hadd : ∀ items nodes, mergeTexts items = Node.itemsOfAll nodes →
      mergeTexts (row ++ items) = Node.itemsOfAll (add nodes)) :
    Tracks (do
        let read ← body
        return (add read.1, read.2)) q (Blocks.run blocks q.nextId q.tokens)
      fun read p' items rest => ReadBody blocks p read p' (row ++ items) rest := by
  refine .bind hbody ?_
  rintro ⟨nodes, stop⟩ p' items rest hread
  obtain ⟨consumed, hused⟩ := hread.used
  obtain ⟨front, hfront⟩ := hsuffix
  refine .pure ⟨?_, hread.rest, ⟨front ++ consumed, ?_⟩, hread.ended⟩
  · rw [List.append_nil]
    exact hadd items nodes hread.items
  · rw [List.append_assoc, ← hused, hfront]

-- A node is added to the rest.
theorem mergeTexts_node {node : Node} {row : List Item}
    (hrow : ∀ items, mergeTexts (row ++ items) = node.items ++ mergeTexts items)
    (items : List Item) (nodes : List Node) (hitems : mergeTexts items = Node.itemsOfAll nodes) :
    mergeTexts (row ++ items) = Node.itemsOfAll (node :: nodes) := by
  rw [hrow, hitems]
  rfl

-- A block is read, and what follows it.
theorem tracks_block {x : Builder Node} {body : BodyReader} {reading : Reading}
    (hx : Tracks x p reading fun node p' items rest => ReadBlock blocks p node.items p' items rest)
    (hbody : ∀ q : Progress, q.tokens <:+ p.tokens →
      Tracks body q (Blocks.run blocks q.nextId q.tokens) (ReadBody blocks q)) :
    Tracks (do followedBy body (← x)) p reading (ReadBody blocks p) := by
  refine .bind hx ?_
  rintro node q row rest ⟨hmerged, henclosed, rfl, hsuffix⟩
  refine tracks_rest (hbody q hsuffix) hsuffix (mergeTexts_node fun items => ?_)
  rw [henclosed.mergeTexts_after, hmerged]

theorem ReadBody.of_suffix {q p' : Progress} {read : List Node × Stop} {items : List Item}
    {rest : Reading} (h : ReadBody blocks q read p' items rest) (hsuffix : q.tokens <:+ p.tokens) :
    ReadBody blocks p read p' items rest := by
  obtain ⟨consumed, hused⟩ := h.used
  obtain ⟨front, hfront⟩ := hsuffix
  exact ⟨h.items, h.rest, ⟨front ++ consumed, by rw [List.append_assoc, ← hused, hfront]⟩, h.ended⟩

-- A tag, given that what is behind it is read as the automaton reads it.
theorem tracks_tag {inner : Option BodyReader} (hinner : Nests blocks inner) (tag : Tag)
    (span : Span) {ts : List Token} {i fuel : Nat} (hordered : Ordered (.tag tag span :: ts))
    (hrest : ∀ q : Progress, q.tokens <:+ ts →
      Tracks (nodes inner fuel) q (Blocks.run blocks q.nextId q.tokens) (ReadBody blocks q)) :
    Tracks (nodes inner (fuel + 1)) ⟨.tag tag span :: ts, i⟩
      (Blocks.run blocks i (.tag tag span :: ts)) (ReadBody blocks ⟨.tag tag span :: ts, i⟩) := by
  have hsuffix : ts <:+ .tag tag span :: ts := List.suffix_cons _ _
  have hcover : ∀ span', .tag .close span' ∈ ts → span.cover span' = ⟨span.start, span'.stop⟩ :=
    fun span' hmem => List.rel_of_pairwise_cons hordered hmem _ _ _ _ rfl rfl
  cases tag with
  | comment =>
    refine .of_run (nodes inner fuel) ⟨ts, i⟩ rfl ?_
    rw [Blocks.run_plain [] rfl rfl, Reading.after_nil]
    exact (hrest ⟨ts, i⟩ List.suffix_rfl).weaken fun _ _ _ _ hread => hread.of_suffix hsuffix
  | param declaration => exact .inl ⟨_, rfl, Blocks.run_error rfl _⟩
  | condition test =>
    cases inner with
    | none =>
      have hstep : Blocks.step blocks (.tag (.condition test) span) =
        .error ⟨.nestingTooDeep, span.start⟩ := if_neg hinner
      exact .inl ⟨_, rfl, Blocks.run_error hstep _⟩
    | some body =>
      have hstep : Blocks.step blocks (.tag (.condition test) span) =
        .ok (⟨.conditional, span.start, false⟩ :: blocks) := if_pos hinner.1
      rw [Blocks.run_code test (.condition · span.start) hstep rfl]
      refine .of_run (do followedBy (nodes (some body) fuel) (← conditional body span test))
        ⟨ts, i⟩ rfl ?_
      exact (tracks_block (tracks_conditional (fun seen => hinner.2 _) test
        (hordered.of_suffix hsuffix) hcover) hrest).weaken fun _ _ _ _ hread =>
          hread.of_suffix hsuffix
  | loop header =>
    cases inner with
    | none =>
      have hstep : Blocks.step blocks (.tag (.loop header) span) =
        .error ⟨.nestingTooDeep, span.start⟩ := if_neg hinner
      exact .inl ⟨_, rfl, Blocks.run_error hstep _⟩
    | some body =>
      have hstep : Blocks.step blocks (.tag (.loop header) span) =
        .ok (⟨.loop, span.start, false⟩ :: blocks) := if_pos hinner.1
      rw [Blocks.run_code header (.loop · span.start) hstep rfl]
      refine .of_run (do followedBy (nodes (some body) fuel) (← loop body span header))
        ⟨ts, i⟩ rfl ?_
      exact (tracks_block (tracks_loop (fun seen => hinner.2 _) header
        (hordered.of_suffix hsuffix) hcover) hrest).weaken fun _ _ _ _ hread =>
          hread.of_suffix hsuffix
  | inclusion target slice =>
    rw [Blocks.run_inclusion]
    refine .of_run
      (do
        let args ← code Code.inclusionArgs slice
        followedBy (nodes inner fuel) (.inclusion (← freshId) target args span))
      ⟨ts, i⟩ rfl (.bind (tracks_code Code.inclusionArgs slice
        (fun args n => .inclusion n target args span) fun n => Blocks.run blocks (n + 1) ts) ?_)
    rintro args _ _ _ ⟨n, rfl, rfl, rfl⟩
    refine .of_run (followedBy (nodes inner fuel) (.inclusion n target args span))
      ⟨ts, n + 1⟩ rfl ?_
    exact tracks_rest (hrest ⟨ts, n + 1⟩ List.suffix_rfl) hsuffix
      (mergeTexts_node fun items => mergeTexts_cons rfl items)
  | elseCondition test =>
    exact .of_run (pure ([], .elseCondition test span)) ⟨ts, i⟩ rfl
      (.pure ⟨rfl, rfl, ⟨[], rfl⟩, by simp⟩)
  | otherwise =>
    exact .of_run (pure ([], .otherwise span)) ⟨ts, i⟩ rfl
      (.pure ⟨rfl, rfl, ⟨[], rfl⟩, by simp⟩)
  | close =>
    exact .of_run (pure ([], .close span)) ⟨ts, i⟩ rfl
      (.pure ⟨rfl, rfl, ⟨[], rfl⟩, by simp⟩)

-- The induction is on the bound for what is left. A block may leave any end of it.
theorem tracks_nodes {inner : Option BodyReader} (hinner : Nests blocks inner) {fuel : Nat}
    (hordered : Ordered p.tokens) (hfuel : p.tokens.length < fuel) :
    Tracks (nodes inner fuel) p (Blocks.run blocks p.nextId p.tokens) (ReadBody blocks p) := by
  induction fuel generalizing p with
  | zero => exact absurd hfuel (Nat.not_lt_zero _)
  | succ fuel ih =>
    obtain ⟨ts, i⟩ := p
    cases ts with
    | nil =>
      exact .of_run (pure ([], .endOfSource)) ⟨[], i⟩ rfl
        (.pure ⟨rfl, rfl, ⟨[], rfl⟩, fun _ => rfl⟩)
    | cons t ts =>
      have hsuffix : ts <:+ t :: ts := List.suffix_cons _ _
      have hrest (q : Progress) (hq : q.tokens <:+ ts) :
          Tracks (nodes inner fuel) q (Blocks.run blocks q.nextId q.tokens) (ReadBody blocks q) :=
        ih (hordered.of_suffix (hq.trans hsuffix))
          (Nat.lt_of_le_of_lt hq.length_le (Nat.lt_of_succ_lt_succ hfuel))
      cases t with
      | text s =>
        rw [Blocks.run_plain [.text s.text s.span] rfl rfl]
        refine .of_run (followedByText (nodes inner fuel) s) ⟨ts, i⟩ rfl (.after ?_)
        refine tracks_rest (hrest ⟨ts, i⟩ List.suffix_rfl) hsuffix fun items nodes hitems => ?_
        rw [itemsOfAll_consText, ← hitems]
        rfl
      | interpolation raw slice span =>
        rw [Blocks.run_code slice (.interpolation raw · span) rfl rfl]
        refine .of_run
          (do
            let value ← code Code.completeExpression slice
            followedBy (nodes inner fuel) (.interpolation raw value span))
          ⟨ts, i⟩ rfl (.bind (tracks_code Code.completeExpression slice
            (fun value _ => .interpolation raw value span) (Blocks.run blocks · ts)) ?_)
        rintro value _ _ _ ⟨n, rfl, rfl, rfl⟩
        exact tracks_rest (hrest ⟨ts, n⟩ List.suffix_rfl) hsuffix
          (mergeTexts_node fun items => mergeTexts_cons rfl items)
      | tag tag span => exact tracks_tag hinner tag span hordered hrest

theorem follows_nodes {inner : Option BodyReader} (hinner : Nests blocks inner) :
    Follows blocks (do nodes inner ((← tokenCount) + 1)) := fun p hordered =>
  .of_run (nodes inner (p.tokens.length + 1)) p rfl
    (tracks_nodes hinner hordered (Nat.lt_succ_self _))

-- As many blocks may still be opened as are missing to the limit.
theorem follows_bodyAt {depth : Nat} (h : blocks.length + depth = maxNesting) :
    Follows blocks (bodyAt depth) := by
  induction depth generalizing blocks with
  | zero =>
    have hfull : ¬ blocks.length < maxNesting := by omega
    exact follows_nodes (show Nests blocks none from hfull)
  | succ depth ih =>
    have hroom : blocks.length < maxNesting := by omega
    have hnests : Nests blocks (some (bodyAt depth)) := by
      refine ⟨hroom, fun block => ih ?_⟩
      rw [List.length_cons]
      omega
    exact follows_nodes hnests

theorem tracks_wholeBody (hordered : Ordered p.tokens) :
    Tracks wholeBody p (Blocks.run [] p.nextId p.tokens) fun nodes p' items rest =>
      mergeTexts items = Node.itemsOfAll nodes ∧ rest = .ok ([], p'.nextId) := by
  have hfollows : Follows [] (bodyAt maxNesting) := follows_bodyAt (Nat.zero_add _)
  refine .bind (hfollows p hordered) ?_
  rintro ⟨nodes, stop⟩ p' items _ ⟨hitems, rfl, -, hended⟩
  cases stop with
  | endOfSource =>
    refine .pure ⟨by rwa [List.append_nil], ?_⟩
    rw [hended rfl]
    rfl
  | _ => exact .inl ⟨_, rfl, Blocks.run_error rfl _⟩

end Builder

end Template

end Stencil
