import Stencil.Proofs.Template.Extents

/-!
The spans of a template are a map of its source. Each begins and ends between two characters;
a block has its tags and the nodes of its bodies in it, one behind the other; and a tag or an
interpolation has its expressions between its opener and its closer.
-/

namespace Stencil

open Stencil.Span Markup Template

variable {source : List Char} {lo hi a b : Nat}

namespace Span.InTurn

variable {α : Type} {At : Nat → Nat → α → Prop} {x : α} {xs : List α} {n : Nat}

-- Where the first thing is known to begin, all begin there.
theorem fromHead (h : InTurn At lo hi (x :: xs)) (hx : ∀ a b, At a b x → a = n) :
    lo ≤ n ∧ InTurn At n hi (x :: xs) := by
  obtain ⟨a, b, hlo, hle, hat, hrest⟩ := h
  obtain rfl := hx a b hat
  exact ⟨hlo, a, b, Nat.le_refl _, hle, hat, hrest⟩

-- Where the last thing is known to end, all end there.
theorem upToLast (h : InTurn At lo hi (xs ++ [x])) (hx : ∀ a b, At a b x → b = n) :
    n ≤ hi ∧ InTurn At lo n (xs ++ [x]) := by
  obtain ⟨mid, hfirst, a, b, hmid, hle, hat, hhi⟩ := h.exists_of_append
  obtain rfl := hx a b hat
  exact ⟨hhi, hfirst.append (.singleton hmid hle hat (Nat.le_refl _))⟩

end Span.InTurn

-- What stands in a node: tags and other items, and the nodes of its bodies.
inductive Landmark where
  | item (item : Item)
  | node (node : Node)

namespace Landmark

def At (source : List Char) (a b : Nat) : Landmark → Prop
  | .item i => i.At source a b
  | .node n => n.span = ⟨a, b⟩

-- A tag and the body behind it.
def ofBody (tag : Item) (nodes : List Node) : List Landmark := item tag :: nodes.map node

def ofArms (opener : Expr → Item) : List Arm → List Landmark
  | [] => []
  | .mk test body :: arms => ofBody (opener test) body ++ ofArms .elseCondition arms

def ofOtherwise : Option (List Node) → List Landmark
  | none => []
  | some nodes => ofBody .otherwise nodes

end Landmark

open Landmark (ofBody ofArms ofOtherwise)

-- What stands in a node itself, from its first character to its last.
def Node.landmarks : Node → List Landmark
  | .text content span => [.item (.text content span)]
  | .interpolation raw value span => [.item (.interpolation raw value span)]
  | .inclusion id target args span => [.item (.inclusion id target args span)]
  | .conditional arms otherwise span =>
    ofArms (.condition · span.start) arms ++ ofOtherwise otherwise ++ [.item (.close span.stop)]
  | .loop element index iterable body otherwise span =>
    ofBody (.loop (element, index, iterable) span.start) body ++ ofOtherwise otherwise ++
      [.item (.close span.stop)]

-- A node in its source.
structure Node.Mapped (source : List Char) (node : Node) : Prop where
  intro ::
  span : node.span.LiesIn source
  landmarks : InTurn (Landmark.At source) node.span.start node.span.stop node.landmarks

-- A template in its source: the declarations come first, and then the nodes of the body.
structure Template.Mapped (source : List Char) (t : Template) : Prop where
  intro ::
  inTurn : ∃ mid, InTurn (ParamDecl.At source) 0 mid t.params ∧
    InTurn (Landmark.At source) mid (byteLength source) (t.body.map .node)
  params : ∀ decl ∈ t.params, decl.span.LiesIn source
  nodes : ∀ node ∈ t.nodes, node.Mapped source

-- A conditional that no tag opens. The reader makes none.
def Node.isUnopened : Node → Bool
  | .conditional [] _ _ => true
  | _ => false

-- How many more blocks items open than they close.
def Template.Item.weights : Item → List Int
  | .condition _ _ | .loop _ _ => [1]
  | .close _ => [-1]
  | _ => []

def Template.balance (items : List Item) : Int :=
  (items.flatMap Item.weights).foldr (· + ·) 0

def Markup.Token.weight : Token → Int
  | .tag (.condition _) _ | .tag (.loop _) _ => 1
  | .tag .close _ => -1
  | _ => 0

section Balance

theorem balance_append (items others : List Item) :
    balance (items ++ others) = balance items + balance others := by
  have hfrom (weights : List Int) (start : Int) :
      weights.foldr (· + ·) start = weights.foldr (· + ·) 0 + start :=
    calc weights.foldr (· + ·) start = weights.foldr (· + ·) (0 + start) := by rw [Int.zero_add]
      _ = weights.foldr (· + ·) 0 + start := List.foldr_assoc
  rw [balance, List.flatMap_append, List.foldr_append, hfrom]
  rfl

variable {blocks blocks' : List OpenBlock} {t : Token} {ts : List Token} {n m : Nat}
  {row : List Item}

theorem length_of_step (h : Blocks.step blocks t = .ok blocks') :
    (blocks'.length : Int) = blocks.length + t.weight := by
  have entered {kind : BlockKind} {start : Nat}
      (h : Blocks.enter blocks kind start = .ok blocks') :
      (blocks'.length : Int) = blocks.length + 1 := by
    unfold Blocks.enter at h
    split at h
    · obtain rfl := Except.ok.inj h
      rfl
    · cases h
  have same (h : (.ok blocks : Except Fault _) = .ok blocks') :
      (blocks'.length : Int) = blocks.length + 0 := by
    obtain rfl := Except.ok.inj h
    exact (Int.add_zero _).symm
  cases t with
  | text | interpolation => exact same h
  | tag tag span =>
    cases tag with
    | comment | inclusion => exact same h
    | param => cases h
    | condition | loop => exact entered h
    | elseCondition =>
      simp only [Blocks.step] at h
      split at h
      · exact same h
      · cases h
    | otherwise =>
      simp only [Blocks.step] at h
      split at h
      · obtain rfl := Except.ok.inj h
        exact (Int.add_zero _).symm
      · cases h
    | close =>
      simp only [Blocks.step] at h
      split at h
      · obtain rfl := Except.ok.inj h
        exact (Int.add_neg_cancel_right _ 1).symm
      · cases h

theorem balance_of_readToken (h : readToken n t = .ok (row, m)) : balance row = t.weight := by
  cases t with
  | text =>
    obtain ⟨rfl, -⟩ := Prod.mk.inj (Except.ok.inj h)
    rfl
  | interpolation =>
    obtain ⟨⟨value, k⟩, -, hrow⟩ := exists_of_map_eq_ok h
    obtain ⟨rfl, -⟩ := Prod.mk.inj hrow
    rfl
  | tag tag span =>
    cases tag with
    | condition | elseCondition | loop | inclusion =>
      obtain ⟨⟨code, k⟩, -, hrow⟩ := exists_of_map_eq_ok h
      obtain ⟨rfl, -⟩ := Prod.mk.inj hrow
      rfl
    | comment | param | otherwise | close =>
      obtain ⟨rfl, -⟩ := Prod.mk.inj (Except.ok.inj h)
      rfl

-- What the automaton accepts closes all that it opens.
theorem balance_of_accept (haccept : Blocks.accept blocks ts = .ok ())
    (hread : readTokens n ts = .ok (row, m)) : blocks.length + balance row = 0 := by
  induction ts generalizing blocks n row with
  | nil =>
    obtain ⟨rfl, -⟩ := Prod.mk.inj (Except.ok.inj hread)
    cases blocks with
    | nil => rfl
    | cons block blocks => cases haccept
  | cons t ts ih =>
    obtain ⟨first, k, rest, hfirst, hrest, rfl⟩ := readTokens_cons hread
    have hbind : Blocks.accept blocks (t :: ts) =
        (Blocks.step blocks t).bind fun blocks => Blocks.accept blocks ts := rfl
    rw [hbind] at haccept
    cases hstep : Blocks.step blocks t with
    | error fault =>
      rw [hstep] at haccept
      cases haccept
    | ok blocks' =>
      rw [hstep] at haccept
      rw [balance_append, ← Int.add_assoc, balance_of_readToken hfirst, ← length_of_step hstep]
      exact ih haccept hrest

end Balance

mutual

-- A node closes one block more than it opens for each conditional in it that is unopened.
theorem Node.balance_items : ∀ node : Node,
    balance node.items = -(node.parts.countP Node.isUnopened : Int)
  | .text _ _ | .interpolation _ _ _ | .inclusion _ _ _ _ => rfl
  | .conditional arms otherwise span => by
    have harms := Node.balance_itemsOfArms arms (.condition · span.start) 1 fun _ => rfl
    have hclose : balance [.close span.stop] = -1 := rfl
    rw [Node.items_conditional, Node.parts_conditional, balance_append, balance_append, harms,
      Node.balance_itemsOfOtherwise otherwise, hclose, List.countP_cons, List.countP_append]
    cases arms <;> simp [Node.isUnopened] <;> omega
  | .loop element index iterable body otherwise span => by
    have hclose : balance [.close span.stop] = -1 := rfl
    have hopener : balance [.loop (element, index, iterable) span.start] = 1 := rfl
    rw [Node.items_loop, Node.parts_loop, balance_append, balance_append, ← List.singleton_append,
      balance_append, hopener, Node.balance_itemsOfAll body,
      Node.balance_itemsOfOtherwise otherwise, hclose, List.countP_cons, List.countP_append]
    simp [Node.isUnopened]
    omega

theorem Node.balance_itemsOfAll : ∀ nodes : List Node,
    balance (Node.itemsOfAll nodes) = -((Node.partsOfAll nodes).countP Node.isUnopened : Int)
  | [] => rfl
  | node :: nodes => by
    rw [Node.itemsOfAll, Node.partsOfAll, balance_append, Node.balance_items node,
      Node.balance_itemsOfAll nodes, List.countP_append]
    omega

theorem Node.balance_itemsOfOtherwise : ∀ otherwise : Option (List Node),
    balance (Node.itemsOfOtherwise otherwise) =
      -((Node.partsOfAll (otherwise.getD [])).countP Node.isUnopened : Int)
  | none => rfl
  | some nodes => by
    have hopener : balance [.otherwise] = 0 := rfl
    rw [Node.itemsOfOtherwise, ← List.singleton_append, balance_append, hopener, Int.zero_add]
    exact Node.balance_itemsOfAll nodes

theorem Node.balance_itemsOfArms : ∀ (arms : List Arm) (opener : Expr → Item) (w : Int),
    (∀ test, balance [opener test] = w) →
      balance (Node.itemsOfArms opener arms) =
        (if arms = [] then 0 else w) - ((Node.partsOfArms arms).countP Node.isUnopened : Int)
  | [], _, _, _ => rfl
  | .mk test body :: arms, opener, w, hopener => by
    have harms := Node.balance_itemsOfArms arms .elseCondition 0 fun _ => rfl
    rw [Node.itemsOfArms, Node.partsOfArms, ← List.singleton_append, balance_append,
      balance_append, hopener, Node.balance_itemsOfAll body, harms, List.countP_append, ite_self,
      if_neg (List.cons_ne_nil _ _)]
    omega

end

-- Every conditional that is read has a first arm.
theorem Template.opened_of_parse {source : String} {trimLines : Bool} {t : Template}
    (h : parse source trimLines = .ok t) : ∀ node ∈ t.nodes, ¬ node.isUnopened := by
  obtain ⟨tokens, ts, hlex, hts, hof⟩ := exists_tokens_of_parse h
  rcases ofTokens_cases (.of_tokens hlex hts) with
    ⟨fault, hfault, -⟩ | ⟨t', row, hok, hread, hitems⟩
  · cases hfault.symm.trans hof
  · obtain rfl := Except.ok.inj (hok.symm.trans hof)
    obtain ⟨n, -, haccept, htokens⟩ := readTemplate_eq_ok_iff.mp hread
    have hrow := balance_of_accept haccept htokens
    have hbalance := Node.balance_itemsOfAll t'.body
    rw [hitems, balance, flatMap_mergeTexts Item.weights fun _ _ => rfl] at hbalance
    have hnone : (Node.partsOfAll t'.body).countP Node.isUnopened = 0 := by
      unfold balance at hrow
      simp only [List.length_nil] at hrow
      omega
    exact List.countP_eq_zero.mp hnone

theorem Markup.Encloses.liesIn {opener : List Char} {d : Delimiters} {es : List Expr}
    (h : Encloses source a b opener d es) : LiesIn ⟨a, b⟩ source := by
  obtain ⟨before, inner, after, hsource, rfl, rfl, -⟩ := h.code
  have hlies : LiesIn ⟨byteLength before,
      byteLength before + byteLength (opener ++ inner ++ [d.closer])⟩
      (before ++ (opener ++ inner ++ [d.closer]) ++ after) := liesIn_of_append
  have hsplit : source = before ++ (opener ++ inner ++ [d.closer]) ++ after := by simp [hsource]
  rw [← hsplit, ← byteLength_append] at hlies
  simpa using hlies

-- An item stands between two places between characters.
theorem Template.Item.At.liesIn {item : Item} (h : item.At source a b) :
    LiesIn ⟨a, b⟩ source := by
  have word {cs : List Char} (h : sliceBytes? a b source = some cs) : LiesIn ⟨a, b⟩ source := by
    obtain ⟨before, after, rfl, rfl, rfl⟩ := sliceBytes?_eq_some_iff.mp h
    exact liesIn_of_append
  cases h with
  | text h => exact h
  | interpolation h | inclusion _ h | condition h | elseCondition h | loop h => exact h.liesIn
  | otherwise h | close _ h => exact word h

namespace Node

theorem mem_parts (node : Node) : node ∈ node.parts := by
  cases node with
  | conditional => simp [parts_conditional]
  | loop => simp [parts_loop]
  | _ => exact List.mem_singleton_self _

variable {node : Node}

-- A node in its source between two bytes, and all nodes in it.
structure Placed (source : List Char) (lo hi : Nat) (node : Node) : Prop where
  intro ::
  start_le : lo ≤ node.span.start
  stop_le : node.span.stop ≤ hi
  parts : ∀ part ∈ node.parts, part.Mapped source

theorem placed_leaf {item : Item} (hparts : node.parts = [node])
    (hlandmarks : node.landmarks = [.item item])
    (hspan : ∀ a b, item.At source a b → node.span = ⟨a, b⟩)
    (h : InTurn (Item.At source) lo hi [item]) : node.Placed source lo hi := by
  obtain ⟨a, b, hlo, hle, hat, hhi⟩ := h
  have hnode := hspan a b hat
  refine ⟨?_, ?_, ?_⟩
  · rwa [hnode]
  · rwa [hnode]
  · rw [hparts, List.forall_mem_singleton]
    constructor
    · rw [hnode]
      exact hat.liesIn
    · rw [hnode, hlandmarks]
      exact .singleton (Nat.le_refl _) hle hat (Nat.le_refl _)

-- A block runs from its first tag to its last.
theorem mapped_block {first : Item} {front rest : List Landmark}
    (hfirst : node.landmarks = .item first :: rest)
    (hlast : node.landmarks = front ++ [.item (.close node.span.stop)])
    (hstart : ∀ a b, first.At source a b → a = node.span.start)
    (h : InTurn (Landmark.At source) lo hi node.landmarks) :
    lo ≤ node.span.start ∧ node.span.stop ≤ hi ∧ node.Mapped source := by
  have hclose : ∀ a b, Item.At source a b (.close node.span.stop) → b = node.span.stop := by
    intro a b hat
    cases hat
    rfl
  rw [hlast] at h
  obtain ⟨hhi, h⟩ := h.upToLast hclose
  rw [← hlast, hfirst] at h
  obtain ⟨hlo, h⟩ := h.fromHead hstart
  rw [← hfirst] at h
  obtain ⟨a, b, -, -, -, hopener⟩ := h.of_mem (x := .item first) (by simp [hfirst])
  obtain ⟨c, d, -, -, -, hcloser⟩ :=
    h.of_mem (x := .item (.close node.span.stop)) (by simp [hlast])
  have hopener : first.At source a b := hopener
  have hcloser : Item.At source c d (.close node.span.stop) := hcloser
  obtain rfl := hstart a b hopener
  obtain rfl := hclose c d hcloser
  have hwithin := hcloser.liesIn.within
  exact ⟨hlo, hhi, ⟨h.le, hopener.liesIn.start, hcloser.liesIn.stop, hwithin⟩, h⟩

theorem inTurn_ofBody {tag : Item} {body : List Node}
    (hbody : ∀ lo, InTurn (Item.At source) lo hi (itemsOfAll body) →
      InTurn (Landmark.At source) lo hi (body.map .node))
    (h : InTurn (Item.At source) lo hi (tag :: itemsOfAll body)) :
    InTurn (Landmark.At source) lo hi (ofBody tag body) := by
  obtain ⟨a, b, hlo, hle, hat, hrest⟩ := h
  exact ⟨a, b, hlo, hle, hat, hbody b hrest⟩

-- Nodes all of whose conditionals are opened by a tag.
abbrev Opened (nodes : List Node) : Prop := ∀ node ∈ nodes, ¬ node.isUnopened

mutual

-- Where the items of a node follow one another, all that is in the node has its place.
theorem placed_of_items : ∀ (node : Node) {lo hi : Nat}, Opened node.parts →
    InTurn (Item.At source) lo hi node.items → node.Placed source lo hi
  | .text _ _, _, _, _, h => placed_leaf rfl rfl (fun a b hat => by cases hat; rfl) h
  | .interpolation _ _ _, _, _, _, h => placed_leaf rfl rfl (fun a b hat => by cases hat; rfl) h
  | .inclusion _ _ _ _, _, _, _, h => placed_leaf rfl rfl (fun a b hat => by cases hat; rfl) h
  | .conditional arms otherwise span, lo, hi, hopened, h => by
    rw [items_conditional] at h
    rw [Opened, parts_conditional, List.forall_mem_cons, List.forall_mem_append] at hopened
    obtain ⟨hsome, hopenedArms, hopenedRest⟩ := hopened
    obtain ⟨next, hbodies, hclose⟩ := h.exists_of_append
    obtain ⟨mid, harms, hrest⟩ := hbodies.exists_of_append
    obtain ⟨hlandmarks, hparts⟩ := inTurn_ofArms arms hopenedArms harms
    obtain ⟨hlandmarks', hparts'⟩ := inTurn_ofOtherwise otherwise hopenedRest hrest
    have hwhole : InTurn (Landmark.At source) lo hi
        (Node.conditional arms otherwise span).landmarks :=
      (hlandmarks.append hlandmarks').append hclose
    cases arms with
    | nil => exact absurd rfl hsome
    | cons arm arms =>
      obtain ⟨test, body⟩ := arm
      have hstart : ∀ a b, Item.At source a b (.condition test span.start) → a = span.start :=
        fun a b hat => by cases hat; rfl
      obtain ⟨hlo, hhi, hmapped⟩ := mapped_block rfl rfl hstart hwhole
      refine ⟨hlo, hhi, ?_⟩
      rw [parts_conditional, List.forall_mem_cons, List.forall_mem_append]
      exact ⟨hmapped, hparts, hparts'⟩
  | .loop element index iterable body otherwise span, lo, hi, hopened, h => by
    rw [items_loop] at h
    rw [Opened, parts_loop, List.forall_mem_cons, List.forall_mem_append] at hopened
    obtain ⟨-, hopenedBody, hopenedRest⟩ := hopened
    obtain ⟨next, hbodies, hclose⟩ := h.exists_of_append
    obtain ⟨mid, hbody, hrest⟩ := hbodies.exists_of_append
    have hall {lo : Nat} := @inTurn_nodes body lo mid hopenedBody
    obtain ⟨hlandmarks', hparts'⟩ := inTurn_ofOtherwise otherwise hopenedRest hrest
    have hwhole : InTurn (Landmark.At source) lo hi
        (Node.loop element index iterable body otherwise span).landmarks :=
      ((inTurn_ofBody (fun lo h => (hall h).1) hbody).append hlandmarks').append hclose
    have hstart : ∀ a b, Item.At source a b (.loop (element, index, iterable) span.start) →
        a = span.start := fun a b hat => by cases hat; rfl
    obtain ⟨hlo, hhi, hmapped⟩ := mapped_block rfl rfl hstart hwhole
    obtain ⟨a, b, -, -, -, hinner⟩ := hbody
    refine ⟨hlo, hhi, ?_⟩
    rw [parts_loop, List.forall_mem_cons, List.forall_mem_append]
    exact ⟨hmapped, (hall hinner).2, hparts'⟩

theorem inTurn_nodes : ∀ (nodes : List Node) {lo hi : Nat}, Opened (partsOfAll nodes) →
    InTurn (Item.At source) lo hi (itemsOfAll nodes) →
      InTurn (Landmark.At source) lo hi (nodes.map .node) ∧
        ∀ part ∈ partsOfAll nodes, part.Mapped source
  | [], _, _, _, h => ⟨h, List.forall_mem_nil _⟩
  | node :: nodes, lo, hi, hopened, h => by
    rw [Opened, partsOfAll, List.forall_mem_append] at hopened
    obtain ⟨hfirst, hrest⟩ := hopened
    obtain ⟨mid, hitems, hitems'⟩ := h.exists_of_append
    have hnode := placed_of_items node hfirst hitems
    obtain ⟨hnodes, hparts⟩ := inTurn_nodes nodes hrest hitems'
    have hspan := (hnode.parts node node.mem_parts).span
    refine ⟨⟨node.span.start, node.span.stop, hnode.start_le, hspan.le, rfl,
      hnodes.widen hnode.stop_le (Nat.le_refl _)⟩, ?_⟩
    rw [partsOfAll, List.forall_mem_append]
    exact ⟨hnode.parts, hparts⟩

theorem inTurn_ofOtherwise : ∀ (otherwise : Option (List Node)) {lo hi : Nat},
    Opened (partsOfAll (otherwise.getD [])) →
      InTurn (Item.At source) lo hi (itemsOfOtherwise otherwise) →
        InTurn (Landmark.At source) lo hi (ofOtherwise otherwise) ∧
          ∀ part ∈ partsOfAll (otherwise.getD []), part.Mapped source
  | none, _, _, _, h => ⟨h, List.forall_mem_nil _⟩
  | some nodes, lo, hi, hopened, h => by
    have hall {lo : Nat} := @inTurn_nodes nodes lo hi hopened
    obtain ⟨a, b, -, -, -, hinner⟩ := id h
    exact ⟨inTurn_ofBody (fun lo h => (hall h).1) h, (hall hinner).2⟩

theorem inTurn_ofArms : ∀ (arms : List Arm) {opener : Expr → Item} {lo hi : Nat},
    Opened (partsOfArms arms) → InTurn (Item.At source) lo hi (itemsOfArms opener arms) →
      InTurn (Landmark.At source) lo hi (ofArms opener arms) ∧
        ∀ part ∈ partsOfArms arms, part.Mapped source
  | [], _, _, _, _, h => ⟨h, List.forall_mem_nil _⟩
  | .mk test body :: arms, opener, lo, hi, hopened, h => by
    rw [Opened, partsOfArms, List.forall_mem_append] at hopened
    obtain ⟨hopenedBody, hopenedRest⟩ := hopened
    obtain ⟨mid, hbody, hrest⟩ := h.exists_of_append
    have hall {lo : Nat} := @inTurn_nodes body lo mid hopenedBody
    obtain ⟨hlandmarks, hparts⟩ := inTurn_ofArms arms hopenedRest hrest
    have hfirst := inTurn_ofBody (fun lo h => (hall h).1) hbody
    obtain ⟨a, b, -, -, -, hinner⟩ := hbody
    refine ⟨hfirst.append hlandmarks, ?_⟩
    rw [partsOfArms, List.forall_mem_append]
    exact ⟨(hall hinner).2, hparts⟩

end

end Node

namespace Template

-- The spans of a template that is read map its source.
theorem mapped_of_parse {source : String} {trimLines : Bool} {t : Template}
    (h : parse source trimLines = .ok t) : t.Mapped source.toList := by
  obtain ⟨mid, hparams, hitems⟩ := inTurn_of_parse h
  obtain ⟨hbody, hparts⟩ := Node.inTurn_nodes t.body (opened_of_parse h) hitems
  refine ⟨⟨mid, hparams, hbody⟩, fun decl hdecl => ?_, hparts⟩
  obtain ⟨a, b, -, -, -, hat⟩ := hparams.of_mem hdecl
  obtain ⟨before, line, after, hsource, rfl, rfl, -⟩ := hat.line
  rw [hat.span_eq, hsource, byteLength_append]
  exact liesIn_of_append

-- A default, a comment between texts, a name after a dot, and every tag, with a character of two
-- bytes before most of them.
def landscape : String :=
  "@param int n = 1\n@if((n + 1) * 2 > 3)\n  é<%-- --%>!\n@elseif(ok)\n" ++
    "@template.a.b(n, x = [n, -n])\n@else\n@for(x, i in xs)$unsafe\x7bx.f(i)\x7d@endfor\n@end\nend"

theorem mapped_of_parse_landscape : ∃ t, parse landscape true = .ok t ∧
    t.params.map ParamDecl.span = [⟨0, 16⟩] ∧
    t.nodes.map Node.span = [⟨17, 144⟩, ⟨37, 53⟩, ⟨65, 94⟩, ⟨94, 95⟩, ⟨101, 139⟩, ⟨117, 132⟩,
      ⟨139, 140⟩, ⟨145, 148⟩] ∧
    t.Mapped landscape.toList := by
  have hany : (parse landscape true).toOption.any fun t =>
      t.params.map ParamDecl.span = [⟨0, 16⟩] ∧
        t.nodes.map Node.span = [⟨17, 144⟩, ⟨37, 53⟩, ⟨65, 94⟩, ⟨94, 95⟩, ⟨101, 139⟩, ⟨117, 132⟩,
          ⟨139, 140⟩, ⟨145, 148⟩] := by
    decide +kernel
  obtain ⟨t, ht, hdecided⟩ := (Option.any_eq_true _ _).mp hany
  obtain ⟨hparams, hnodes⟩ := of_decide_eq_true hdecided
  have hparse := eq_ok_of_toOption ht
  exact ⟨t, hparse, hparams, hnodes, mapped_of_parse hparse⟩

end Template

end Stencil
