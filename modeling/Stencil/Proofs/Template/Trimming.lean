import Stencil.Proofs.Markup.Trimming
import Stencil.Proofs.Template.Numbers

/-!
Trimming changes nothing in a template but its literal white space. The two readings of a source,
with and without trimming, are followed side by side: they fail alike or give the same nodes, apart
from text.
-/

namespace Stencil

open Markup

mutual

-- A node without the text in its blocks.
def Node.bare : Node → Node
  | .text content span => .text content span
  | .interpolation raw value span => .interpolation raw value span
  | .conditional arms none span => .conditional (Node.bareArms arms) none span
  | .conditional arms (some otherwise) span =>
    .conditional (Node.bareArms arms) (some (Node.bareAll otherwise)) span
  | .loop element index iterable body none span =>
    .loop element index iterable (Node.bareAll body) none span
  | .loop element index iterable body (some otherwise) span =>
    .loop element index iterable (Node.bareAll body) (some (Node.bareAll otherwise)) span
  | .inclusion id target args span => .inclusion id target args span

-- The nodes of a block that are no text, each without the text in its own blocks.
def Node.bareAll : List Node → List Node
  | [] => []
  | .text _ _ :: nodes => Node.bareAll nodes
  | node :: nodes => node.bare :: Node.bareAll nodes

def Node.bareArms : List Arm → List Arm
  | [] => []
  | .mk test body :: arms => .mk test (Node.bareAll body) :: Node.bareArms arms

end

mutual

-- All blocks inside a node, at every depth, in the order of the source.
def Node.blocks : Node → List (List Node)
  | .text _ _ | .interpolation _ _ _ | .inclusion _ _ _ _ => []
  | .conditional arms none _ => Node.blocksOfArms arms
  | .conditional arms (some otherwise) _ =>
    Node.blocksOfArms arms ++ otherwise :: Node.blocksOfAll otherwise
  | .loop _ _ _ body none _ => body :: Node.blocksOfAll body
  | .loop _ _ _ body (some otherwise) _ =>
    body :: Node.blocksOfAll body ++ otherwise :: Node.blocksOfAll otherwise

def Node.blocksOfAll : List Node → List (List Node)
  | [] => []
  | node :: nodes => node.blocks ++ Node.blocksOfAll nodes

def Node.blocksOfArms : List Arm → List (List Node)
  | [] => []
  | .mk _ body :: arms => body :: Node.blocksOfAll body ++ Node.blocksOfArms arms

end

-- All blocks of a template, the body first.
def Template.blocks (t : Template) : List (List Node) := t.body :: Node.blocksOfAll t.body

def Node.isText : Node → Bool
  | .text _ _ => true
  | _ => false

-- The literal text of a block before, between and after the nodes that are no text.
def Node.gaps : List Node → List (List Char)
  | [] => [[]]
  | .text content _ :: nodes => (Node.gaps nodes).modifyHead (content.toList ++ ·)
  | _ :: nodes => [] :: Node.gaps nodes

namespace Node

-- The text around and between the nodes of one block is thinner in the other.
abbrev GapsThin (full thin : List Node) : Prop := List.Forall₂ Thins (gaps full) (gaps thin)

-- The same blocks, but for their text, which is thinner in the second.
structure Thinned (full thin : List Node) : Prop where
  bare : bareAll full = bareAll thin
  gaps : GapsThin full thin
  blocks : List.Forall₂ GapsThin (blocksOfAll full) (blocksOfAll thin)

-- The same for nodes that are no text, and for the arms of a conditional.
structure ThinnedNode (full thin : Node) : Prop where
  notText : full.isText = false ∧ thin.isText = false
  bare : full.bare = thin.bare
  blocks : List.Forall₂ GapsThin full.blocks thin.blocks

structure ThinnedArms (full thin : List Arm) : Prop where
  bare : bareArms full = bareArms thin
  blocks : List.Forall₂ GapsThin (blocksOfArms full) (blocksOfArms thin)

theorem bareAll_cons {node : Node} (h : node.isText = false) (nodes : List Node) :
    bareAll (node :: nodes) = node.bare :: bareAll nodes := by
  cases node with
  | text => cases h
  | _ => rfl

theorem gaps_cons {node : Node} (h : node.isText = false) (nodes : List Node) :
    gaps (node :: nodes) = [] :: gaps nodes := by
  cases node with
  | text => cases h
  | _ => rfl

namespace Thinned

variable {full thin : List Node}

theorem nil : Thinned [] [] := ⟨rfl, .cons .nil .nil, .nil⟩

theorem cons {node node' : Node} (hnode : ThinnedNode node node') (hrest : Thinned full thin) :
    Thinned (node :: full) (node' :: thin) where
  bare := by
    rw [bareAll_cons hnode.notText.1, bareAll_cons hnode.notText.2, hnode.bare, hrest.bare]
  gaps := by
    unfold GapsThin
    rw [gaps_cons hnode.notText.1, gaps_cons hnode.notText.2]
    exact .cons .nil hrest.gaps
  blocks := List.rel_append hnode.blocks hrest.blocks

end Thinned

theorem ThinnedArms.cons {full thin : List Node} {arms arms' : List Arm} (test : Expr)
    (hbody : Thinned full thin) (harms : ThinnedArms arms arms') :
    ThinnedArms (⟨test, full⟩ :: arms) (⟨test, thin⟩ :: arms') where
  bare := by simp only [bareArms, hbody.bare, harms.bare]
  blocks := .cons hbody.gaps (List.rel_append hbody.blocks harms.blocks)

-- The body that is shown when nothing else is, where there is one.
inductive ThinnedOption : Option (List Node) → Option (List Node) → Prop where
  | none : ThinnedOption none none
  | some {full thin : List Node} (h : Thinned full thin) : ThinnedOption (some full) (some thin)

theorem ThinnedArms.conditional {arms arms' : List Arm} {otherwise otherwise' : Option (List Node)}
    (harms : ThinnedArms arms arms') (ho : ThinnedOption otherwise otherwise') (span : Span) :
    ThinnedNode (.conditional arms otherwise span) (.conditional arms' otherwise' span) := by
  cases ho with
  | none => exact ⟨⟨rfl, rfl⟩, by simp only [Node.bare, harms.bare], harms.blocks⟩
  | some ho =>
    exact ⟨⟨rfl, rfl⟩, by simp only [Node.bare, harms.bare, ho.bare],
      List.rel_append harms.blocks (.cons ho.gaps ho.blocks)⟩

theorem Thinned.loop {full thin : List Node} {otherwise otherwise' : Option (List Node)}
    (hbody : Thinned full thin) (ho : ThinnedOption otherwise otherwise') (element : Binding)
    (index : Option Binding) (iterable : Expr) (span : Span) :
    ThinnedNode (.loop element index iterable full otherwise span)
      (.loop element index iterable thin otherwise' span) := by
  cases ho with
  | none => exact ⟨⟨rfl, rfl⟩, by simp only [Node.bare, hbody.bare], .cons hbody.gaps hbody.blocks⟩
  | some ho =>
    exact ⟨⟨rfl, rfl⟩, by simp only [Node.bare, hbody.bare, ho.bare],
      .cons hbody.gaps (List.rel_append hbody.blocks (.cons ho.gaps ho.blocks))⟩

end Node

namespace Template

namespace Builder

open Node

theorem bareAll_consText (s : Slice) (nodes : List Node) :
    bareAll (consText s nodes) = bareAll nodes := by
  unfold consText
  split <;> simp only [bareAll]

theorem blocksOfAll_consText (s : Slice) (nodes : List Node) :
    blocksOfAll (consText s nodes) = blocksOfAll nodes := by
  unfold consText
  split <;> simp only [blocksOfAll, Node.blocks, List.nil_append]

theorem gaps_consText (s : Slice) (nodes : List Node) :
    gaps (consText s nodes) = (gaps nodes).modifyHead (s.chars ++ ·) := by
  unfold consText
  split
  · simp only [gaps, Slice.text, String.toList_append, String.toList_ofList,
      List.modifyHead_modifyHead]
    congr 1
    funext text
    exact List.append_assoc _ _ _
  · simp only [gaps, Slice.text, String.toList_ofList]

theorem gapsThin_modifyHead {f g : List (List Char)} {a b : List Char} (h : Thins a b)
    (hf : List.Forall₂ Thins f g) :
    List.Forall₂ Thins (f.modifyHead (a ++ ·)) (g.modifyHead (b ++ ·)) := by
  cases hf with
  | nil => exact .nil
  | cons hhead htail => exact .cons (h.append hhead) htail

theorem thinned_consText {s s' : Slice} {full thin : List Node} (hs : Thins s.chars s'.chars)
    (h : Thinned full thin) : Thinned (consText s full) (consText s' thin) where
  bare := by rw [bareAll_consText, bareAll_consText, h.bare]
  gaps := by
    unfold GapsThin
    rw [gaps_consText, gaps_consText]
    exact gapsThin_modifyHead hs h.gaps
  blocks := by
    rw [blocksOfAll_consText, blocksOfAll_consText]
    exact h.blocks

-- Text that is gone leaves the gap it stood in thinner.
theorem thinned_gone {s : Slice} {full thin : List Node} (hs : Thins s.chars [])
    (h : Thinned full thin) : Thinned (consText s full) thin where
  bare := by rw [bareAll_consText, h.bare]
  gaps := by
    unfold GapsThin
    rw [gaps_consText]
    have hgap := gapsThin_modifyHead hs h.gaps
    have hid : (Node.gaps thin).modifyHead (([] : List Char) ++ ·) = Node.gaps thin := by
      cases Node.gaps thin <;> rfl
    rwa [hid] at hgap
  blocks := by
    rw [blocksOfAll_consText]
    exact h.blocks

-- Two readers fail alike, or both give results and go on in states that `post` relates.
def Alike {α β : Type} (x : Builder α) (y : Builder β) (p q : Progress)
    (post : α → β → Progress → Progress → Prop) : Prop :=
  (∃ fault, x.run p = .error fault ∧ y.run q = .error fault) ∨
    ∃ a b p' q', x.run p = .ok (a, p') ∧ y.run q = .ok (b, q') ∧ post a b p' q'

namespace Alike

variable {α β γ δ : Type} {p q : Progress}

theorem pure {a : α} {b : β} {post : α → β → Progress → Progress → Prop} (h : post a b p q) :
    Alike (Pure.pure a : Builder α) (Pure.pure b : Builder β) p q post :=
  .inr ⟨a, b, p, q, rfl, rfl, h⟩

theorem throw (fault : Fault) {post : α → β → Progress → Progress → Prop} :
    Alike (MonadExcept.throw fault : Builder α) (MonadExcept.throw fault : Builder β) p q post :=
  .inl ⟨fault, rfl, rfl⟩

theorem bind {x : Builder α} {y : Builder β} {f : α → Builder γ} {g : β → Builder δ}
    {mid : α → β → Progress → Progress → Prop} {post : γ → δ → Progress → Progress → Prop}
    (h : Alike x y p q mid)
    (hnext : ∀ a b p' q', mid a b p' q' → Alike (f a) (g b) p' q' post) :
    Alike (x >>= f) (y >>= g) p q post := by
  rcases h with ⟨fault, hx, hy⟩ | ⟨a, b, p', q', hx, hy, hmid⟩
  · exact .inl ⟨fault, by rw [StateT.run_bind, hx]; rfl, by rw [StateT.run_bind, hy]; rfl⟩
  · have hxf : (x >>= f).run p = (f a).run p' := by rw [StateT.run_bind, hx]; rfl
    have hyg : (y >>= g).run q = (g b).run q' := by rw [StateT.run_bind, hy]; rfl
    unfold Alike
    rw [hxf, hyg]
    exact hnext a b p' q' hmid

-- Each run may be replaced by one that comes to the same.
theorem of_run {x u : Builder α} {y v : Builder β} {p' q' : Progress}
    {post : α → β → Progress → Progress → Prop} (hx : x.run p = u.run p')
    (hy : y.run q = v.run q') (h : Alike u v p' q' post) : Alike x y p q post := by
  unfold Alike
  rwa [hx, hy]

theorem weaken {x : Builder α} {y : Builder β} {post post' : α → β → Progress → Progress → Prop}
    (h : Alike x y p q post) (himp : ∀ a b p' q', post a b p' q' → post' a b p' q') :
    Alike x y p q post' := by
  rcases h with h | ⟨a, b, p', q', hx, hy, hpost⟩
  · exact .inl h
  · exact .inr ⟨a, b, p', q', hx, hy, himp a b p' q' hpost⟩

end Alike

-- Where the two readings stand: the same numbers are free, what is left to read differs by
-- trimming only, and is within the bounds.
structure Near (k l : Nat) (p q : Progress) : Prop where
  tokens : ThinAll p.tokens q.tokens
  nextId : p.nextId = q.nextId
  left : p.tokens.length < k
  right : q.tokens.length < l

-- Two bodies that were read alike. A tag that ended them is gone from what is left.
structure ReadAlike (k l : Nat) (full thin : List Node × Stop) (p q : Progress) : Prop where
  nodes : Thinned full.1 thin.1
  stop : full.2 = thin.2
  near : Near k l p q
  used : full.2 ≠ .endOfSource → Near (k - 1) (l - 1) p q

-- A reader of bodies that is not misled by trimming.
def Steady (body : BodyReader) : Prop :=
  ∀ k l p q, Near k l p q → Alike body body p q (ReadAlike k l)

variable {k l : Nat} {p q : Progress}

theorem alike_code {α : Type} (reader : Code.Reader α) (slice : Slice) (h : Near k l p q) :
    Alike (code reader slice) (code reader slice) p q fun a b p' q' => a = b ∧ Near k l p' q' := by
  unfold Alike
  rw [run_code, run_code, h.nextId]
  cases Code.tokens slice.start slice.chars with
  | error fault => exact .inl ⟨fault, rfl, rfl⟩
  | ok tokens =>
    cases hread : reader.run ⟨tokens, slice.stop, q.nextId⟩ with
    | error fault =>
      refine .inl ⟨fault, ?_, ?_⟩ <;> simp only [bind, Except.bind, hread]
    | ok read =>
      obtain ⟨a, cursor⟩ := read
      refine .inr ⟨a, a, ⟨p.tokens, cursor.nextId⟩, ⟨q.tokens, cursor.nextId⟩, ?_, ?_, rfl, ?_⟩
      · simp only [bind, Except.bind, hread]
        rfl
      · simp only [bind, Except.bind, hread]
        rfl
      · exact ⟨h.tokens, rfl, h.left, h.right⟩

theorem alike_freshId (h : Near k l p q) :
    Alike freshId freshId p q fun i j p' q' => i = j ∧ Near k l p' q' :=
  .inr ⟨p.nextId, q.nextId, ⟨p.tokens, p.nextId + 1⟩, ⟨q.tokens, q.nextId + 1⟩, rfl, rfl, h.nextId,
    ⟨h.tokens, congrArg (· + 1) h.nextId, h.left, h.right⟩⟩

theorem alike_tokenCount :
    Alike tokenCount tokenCount p q fun m n p' q' =>
      m = p.tokens.length ∧ n = q.tokens.length ∧ p' = p ∧ q' = q :=
  .inr ⟨_, _, p, q, rfl, rfl, rfl, rfl, rfl, rfl⟩

theorem alike_closed (kind : BlockKind) (opener : Span) (stop : Stop) :
    Alike (closed kind opener stop) (closed kind opener stop) p q fun s t p' q' =>
      s = t ∧ p' = p ∧ q' = q := by
  cases stop with
  | close span => exact .pure ⟨rfl, rfl, rfl⟩
  | _ => exact .throw _

-- What the readers of nested parts leave: a node and the place behind it.
abbrev NodesAlike (k l : Nat) (full thin : Node) (p q : Progress) : Prop :=
  ThinnedNode full thin ∧ Near k l p q

-- The arms of a conditional, with the block for when none holds and the span.
structure ArmsAlike (k l : Nat) (full thin : List Arm × Option (List Node) × Span)
    (p q : Progress) : Prop where
  arms : ThinnedArms full.1 thin.1
  otherwise : ThinnedOption full.2.1 thin.2.1
  span : full.2.2 = thin.2.2
  near : Near k l p q

theorem Near.mono {k' l' : Nat} (h : Near k l p q) (hk : k ≤ k') (hl : l ≤ l') :
    Near k' l' p q :=
  ⟨h.tokens, h.nextId, Nat.lt_of_lt_of_le h.left hk, Nat.lt_of_lt_of_le h.right hl⟩

theorem alike_arms {body : BodyReader} (hbody : Steady body) (opener : Span) (test : Slice)
    (h : Near k l p q) :
    Alike (arms body opener k test) (arms body opener l test) p q (ArmsAlike k l) := by
  induction k generalizing l p q test with
  | zero => exact absurd h.left (Nat.not_lt_zero _)
  | succ k ih =>
    cases l with
    | zero => exact absurd h.right (Nat.not_lt_zero _)
    | succ l =>
      refine .bind (alike_code Code.completeExpression test h) ?_
      rintro test _ p q ⟨rfl, h⟩
      refine .bind (hbody _ _ _ _ h) ?_
      rintro ⟨nodes, stop⟩ ⟨nodes', _⟩ p q ⟨hnodes, rfl, hnear, hused⟩
      dsimp only at hnodes hused ⊢
      cases stop with
      | elseCondition next span =>
        refine .bind (ih next (hused (by simp))) ?_
        rintro ⟨rest, otherwise, span⟩ ⟨rest', otherwise', _⟩ p q ⟨harms, ho, rfl, hnear⟩
        exact .pure ⟨.cons test hnodes harms, ho, rfl, hnear.mono (by omega) (by omega)⟩
      | otherwise span =>
        refine .bind (hbody _ _ _ _ hnear) ?_
        rintro ⟨last, stop⟩ ⟨last', _⟩ p q ⟨hlast, rfl, hnear, -⟩
        refine .bind (alike_closed _ opener stop) ?_
        rintro span _ p q ⟨rfl, rfl, rfl⟩
        exact .pure ⟨.cons test hnodes ⟨rfl, .nil⟩, .some hlast, rfl, hnear⟩
      | endOfSource | close =>
        refine .bind (alike_closed _ opener _) ?_
        rintro span _ p q ⟨rfl, rfl, rfl⟩
        exact .pure ⟨.cons test hnodes ⟨rfl, .nil⟩, .none, rfl, hnear⟩

theorem alike_conditional {body : BodyReader} (hbody : Steady body) (opener : Span) (test : Slice)
    (h : Near k l p q) :
    Alike (conditional body opener test) (conditional body opener test) p q (NodesAlike k l) := by
  refine .bind alike_tokenCount ?_
  rintro m n p q ⟨rfl, rfl, rfl, rfl⟩
  have hown : Near (p.tokens.length + 1) (q.tokens.length + 1) p q :=
    ⟨h.tokens, h.nextId, Nat.lt_succ_self _, Nat.lt_succ_self _⟩
  refine .bind (alike_arms hbody opener test hown) ?_
  rintro ⟨arms, otherwise, span⟩ ⟨arms', otherwise', _⟩ p' q' ⟨harms, ho, rfl, hnear⟩
  exact .pure ⟨harms.conditional ho span,
    hnear.mono (Nat.succ_le_of_lt h.left) (Nat.succ_le_of_lt h.right)⟩

theorem alike_loop {body : BodyReader} (hbody : Steady body) (opener : Span) (header : Slice)
    (h : Near k l p q) :
    Alike (loop body opener header) (loop body opener header) p q (NodesAlike k l) := by
  refine .bind (alike_code Code.loopHeader header h) ?_
  rintro ⟨element, index, iterable⟩ _ p q ⟨rfl, h⟩
  refine .bind (hbody _ _ _ _ h) ?_
  rintro ⟨nodes, stop⟩ ⟨nodes', _⟩ p q ⟨hnodes, rfl, hnear, -⟩
  dsimp only at hnodes ⊢
  cases stop with
  | otherwise span =>
    refine .bind (hbody _ _ _ _ hnear) ?_
    rintro ⟨last, stop⟩ ⟨last', _⟩ p q ⟨hlast, rfl, hnear, -⟩
    refine .bind (alike_closed _ opener stop) ?_
    rintro span _ p q ⟨rfl, rfl, rfl⟩
    exact .pure ⟨hnodes.loop (.some hlast) element index iterable span, hnear⟩
  | _ =>
    refine .bind (alike_closed _ opener _) ?_
    rintro span _ p q ⟨rfl, rfl, rfl⟩
    exact .pure ⟨hnodes.loop .none element index iterable span, hnear⟩

theorem ReadAlike.mono {k' l' : Nat} {full thin : List Node × Stop}
    (h : ReadAlike k l full thin p q) (hk : k ≤ k') (hl : l ≤ l') :
    ReadAlike k' l' full thin p q where
  nodes := h.nodes
  stop := h.stop
  near := h.near.mono hk hl
  used := fun hstop => (h.used hstop).mono (by omega) (by omega)

-- Reads on behind a node, and behind text.
def followedBy (rest : BodyReader) (node : Node) : BodyReader := do
  let (nodes, stop) ← rest
  return (node :: nodes, stop)

def followedByText (rest : BodyReader) (s : Slice) : BodyReader := do
  let (nodes, stop) ← rest
  return (consText s nodes, stop)

theorem alike_followedBy {rest rest' : BodyReader} {node node' : Node}
    (hnode : ThinnedNode node node') (hrest : Alike rest rest' p q (ReadAlike k l)) :
    Alike (followedBy rest node) (followedBy rest' node') p q (ReadAlike (k + 1) (l + 1)) := by
  refine .bind hrest ?_
  rintro ⟨rest, stop⟩ ⟨rest', _⟩ p q ⟨hnodes, rfl, hnear, hused⟩
  have hread : ReadAlike k l (node :: rest, stop) (node' :: rest', stop) p q :=
    ⟨.cons hnode hnodes, rfl, hnear, hused⟩
  exact .pure (hread.mono (by omega) (by omega))

theorem alike_stop (stop : Stop) (h : Near k l p q) :
    Alike (pure ([], stop) : BodyReader) (pure ([], stop)) p q (ReadAlike (k + 1) (l + 1)) :=
  .pure ⟨.nil, rfl, h.mono (by omega) (by omega), fun _ => h⟩

-- A tag that both texts still have, given that what is behind it is read alike.
theorem alike_tag {inner : Option BodyReader} (hinner : ∀ body ∈ inner, Steady body) (tag : Tag)
    (span : Span) {ts us : List Token} {i j : Nat} (h : Near k l ⟨ts, i⟩ ⟨us, j⟩)
    (hrest : ∀ {p q}, Near k l p q → Alike (nodes inner k) (nodes inner l) p q (ReadAlike k l)) :
    Alike (nodes inner (k + 1)) (nodes inner (l + 1)) ⟨.tag tag span :: ts, i⟩
      ⟨.tag tag span :: us, j⟩ (ReadAlike (k + 1) (l + 1)) := by
  cases tag with
  | comment =>
    refine .of_run (u := nodes inner k) (v := nodes inner l) rfl rfl ?_
    exact (hrest h).weaken fun _ _ _ _ hread => hread.mono (by omega) (by omega)
  | param declaration => exact .inl ⟨_, rfl, rfl⟩
  | condition test =>
    cases inner with
    | none => exact .inl ⟨_, rfl, rfl⟩
    | some body =>
      refine .of_run (u := do followedBy (nodes (some body) k) (← conditional body span test))
        (v := do followedBy (nodes (some body) l) (← conditional body span test)) rfl rfl
        (.bind (alike_conditional (hinner body rfl) span test h) ?_)
      rintro node node' p q ⟨hnode, hnear⟩
      exact alike_followedBy hnode (hrest hnear)
  | loop header =>
    cases inner with
    | none => exact .inl ⟨_, rfl, rfl⟩
    | some body =>
      refine .of_run (u := do followedBy (nodes (some body) k) (← loop body span header))
        (v := do followedBy (nodes (some body) l) (← loop body span header)) rfl rfl
        (.bind (alike_loop (hinner body rfl) span header h) ?_)
      rintro node node' p q ⟨hnode, hnear⟩
      exact alike_followedBy hnode (hrest hnear)
  | inclusion target slice =>
    refine .of_run
      (u := do
        let args ← code Code.inclusionArgs slice
        followedBy (nodes inner k) (.inclusion (← freshId) target args span))
      (v := do
        let args ← code Code.inclusionArgs slice
        followedBy (nodes inner l) (.inclusion (← freshId) target args span))
      rfl rfl (.bind (alike_code Code.inclusionArgs slice h) ?_)
    rintro args _ p q ⟨rfl, hnear⟩
    refine .bind (alike_freshId hnear) ?_
    rintro id _ p q ⟨rfl, hnear⟩
    exact alike_followedBy ⟨⟨rfl, rfl⟩, rfl, .nil⟩ (hrest hnear)
  | elseCondition test => exact .of_run rfl rfl (alike_stop (.elseCondition test span) h)
  | otherwise => exact .of_run rfl rfl (alike_stop (.otherwise span) h)
  | close => exact .of_run rfl rfl (alike_stop (.close span) h)

-- The induction is on the bound for what is left of the text that is not trimmed. Only that one
-- moves on where its next token is text that the trimmed text has lost.
theorem alike_nodes {inner : Option BodyReader} (hinner : ∀ body ∈ inner, Steady body)
    (h : Near k l p q) : Alike (nodes inner k) (nodes inner l) p q (ReadAlike k l) := by
  induction k generalizing l p q with
  | zero => exact absurd h.left (Nat.not_lt_zero _)
  | succ k ih =>
    obtain ⟨ts, i⟩ := p
    obtain ⟨us, j⟩ := q
    obtain ⟨htokens, hid, hleft, hright⟩ := h
    dsimp only at htokens hid hleft hright
    cases htokens with
    | gone hs hrest =>
      have hnear : Near k l ⟨_, i⟩ ⟨us, j⟩ := ⟨hrest, hid, Nat.lt_of_succ_lt_succ hleft, hright⟩
      rw [← bind_pure (nodes inner l)]
      refine .of_run (u := followedByText (nodes inner k) _) rfl rfl (.bind (ih hnear) ?_)
      rintro ⟨rest, stop⟩ ⟨rest', _⟩ p q ⟨hnodes, rfl, hnear, hused⟩
      have hread : ReadAlike k l (consText _ rest, stop) (rest', stop) p q :=
        ⟨thinned_gone hs hnodes, rfl, hnear, hused⟩
      exact .pure (hread.mono (by omega) (by omega))
    | nil =>
      obtain ⟨l, rfl⟩ : ∃ m, l = m + 1 := ⟨l - 1, by omega⟩
      exact .inr ⟨_, _, _, _, rfl, rfl, .nil, rfl, ⟨.nil, hid, hleft, hright⟩, by simp⟩
    | text hs hrest =>
      obtain ⟨l, rfl⟩ : ∃ m, l = m + 1 := ⟨l - 1, by omega⟩
      have hnear : Near k l ⟨_, i⟩ ⟨_, j⟩ :=
        ⟨hrest, hid, Nat.lt_of_succ_lt_succ hleft, Nat.lt_of_succ_lt_succ hright⟩
      refine .of_run (u := followedByText (nodes inner k) _)
        (v := followedByText (nodes inner l) _) rfl rfl (.bind (ih hnear) ?_)
      rintro ⟨rest, stop⟩ ⟨rest', _⟩ p q ⟨hnodes, rfl, hnear, hused⟩
      have hread : ReadAlike k l (consText _ rest, stop) (consText _ rest', stop) p q :=
        ⟨thinned_consText hs hnodes, rfl, hnear, hused⟩
      exact .pure (hread.mono (by omega) (by omega))
    | interpolation raw slice span hrest =>
      obtain ⟨l, rfl⟩ : ∃ m, l = m + 1 := ⟨l - 1, by omega⟩
      have hnear : Near k l ⟨_, i⟩ ⟨_, j⟩ :=
        ⟨hrest, hid, Nat.lt_of_succ_lt_succ hleft, Nat.lt_of_succ_lt_succ hright⟩
      refine .of_run
        (u := do
          let value ← code Code.completeExpression slice
          followedBy (nodes inner k) (.interpolation raw value span))
        (v := do
          let value ← code Code.completeExpression slice
          followedBy (nodes inner l) (.interpolation raw value span))
        rfl rfl (.bind (alike_code Code.completeExpression slice hnear) ?_)
      rintro value _ p q ⟨rfl, hnear⟩
      exact alike_followedBy ⟨⟨rfl, rfl⟩, rfl, .nil⟩ (ih hnear)
    | tag tag span hrest =>
      obtain ⟨l, rfl⟩ : ∃ m, l = m + 1 := ⟨l - 1, by omega⟩
      exact alike_tag hinner tag span
        ⟨hrest, hid, Nat.lt_of_succ_lt_succ hleft, Nat.lt_of_succ_lt_succ hright⟩ ih

theorem steady_nodes {inner : Option BodyReader} (hinner : ∀ body ∈ inner, Steady body) :
    Steady (do nodes inner ((← tokenCount) + 1)) := by
  intro k l p q h
  refine .bind alike_tokenCount ?_
  rintro m n p q ⟨rfl, rfl, rfl, rfl⟩
  have hown : Near (p.tokens.length + 1) (q.tokens.length + 1) p q :=
    ⟨h.tokens, h.nextId, Nat.lt_succ_self _, Nat.lt_succ_self _⟩
  exact (alike_nodes hinner hown).weaken fun _ _ _ _ hread =>
    hread.mono (Nat.succ_le_of_lt h.left) (Nat.succ_le_of_lt h.right)

theorem steady_bodyAt : ∀ depth : Nat, Steady (bodyAt depth)
  | 0 => steady_nodes (by simp)
  | depth + 1 => steady_nodes (by simpa using steady_bodyAt depth)

theorem alike_wholeBody (h : Near k l p q) :
    Alike wholeBody wholeBody p q fun full thin p' q' => Thinned full thin ∧ Near k l p' q' := by
  refine .bind (steady_bodyAt maxNesting _ _ _ _ h) ?_
  rintro ⟨nodes, stop⟩ ⟨nodes', _⟩ p q ⟨hnodes, rfl, hnear, -⟩
  dsimp only at hnodes ⊢
  cases stop with
  | endOfSource => exact .pure ⟨hnodes, hnear⟩
  | _ => exact .throw _

theorem alike_params (params : List (Slice × Span)) (h : Near k l p q) :
    Alike (params.mapM fun (slice, span) => code (Code.paramDecl span) slice)
      (params.mapM fun (slice, span) => code (Code.paramDecl span) slice) p q
      fun a b p' q' => a = b ∧ Near k l p' q' := by
  induction params generalizing p q with
  | nil => exact .pure ⟨rfl, h⟩
  | cons param params ih =>
    rw [List.mapM_cons]
    refine .bind (alike_code (Code.paramDecl param.2) param.1 h) ?_
    rintro decl _ p q ⟨rfl, h⟩
    refine .bind (ih h) ?_
    rintro decls _ p q ⟨rfl, h⟩
    exact .pure ⟨rfl, h⟩

-- What trimming leaves of a template.
structure ThinnedTemplate (full thin : Template) : Prop where
  params : full.params = thin.params
  idCount : full.idCount = thin.idCount
  body : Thinned full.body thin.body

theorem alike_wholeTemplate (params : List (Slice × Span)) (h : Near k l p q) :
    Alike (wholeTemplate params) (wholeTemplate params) p q fun full thin _ _ =>
      ThinnedTemplate full thin := by
  refine .bind (alike_params params h) ?_
  rintro decls _ p q ⟨rfl, h⟩
  refine .bind (alike_wholeBody h) ?_
  rintro full thin p q ⟨hnodes, h⟩
  exact .inr ⟨_, _, p, q, rfl, rfl, rfl, h.nextId, hnodes⟩

end Builder

-- May the token stand before a declaration?
def isSkipped : Token → Bool
  | .tag .comment _ => true
  | .text s => s.chars.all Text.isBlank
  | _ => false

theorem splitHeader_skipped {t : Token} (h : isSkipped t) (rest : List Token) :
    splitHeader (t :: rest) =
      if (splitHeader rest).1 = [] then ([], t :: rest) else splitHeader rest := by
  cases t with
  | interpolation raw inner span => cases h
  | text s =>
    have hblank : s.chars.all Text.isBlank = true := h
    simp only [splitHeader, hblank, if_true]
    generalize splitHeader rest = read
    obtain ⟨params, body⟩ := read
    cases params <;> rfl
  | tag tag span =>
    cases tag with
    | comment =>
      simp only [splitHeader]
      generalize splitHeader rest = read
      obtain ⟨params, body⟩ := read
      cases params <;> rfl
    | _ => cases h

theorem splitHeader_text {s : Slice} (h : ¬ isSkipped (.text s)) (rest : List Token) :
    splitHeader (.text s :: rest) = ([], .text s :: rest) := by
  have hblank : s.chars.all Text.isBlank = false := by
    simpa only [isSkipped, Bool.not_eq_true] using h
  simp only [splitHeader, hblank, Bool.false_eq_true, if_false]

-- A header without declarations takes nothing off.
theorem splitHeader_of_nil {tokens : List Token} (h : (splitHeader tokens).1 = []) :
    splitHeader tokens = ([], tokens) := by
  cases tokens with
  | nil => rfl
  | cons t rest =>
    by_cases hskip : isSkipped t
    · rw [splitHeader_skipped hskip] at h ⊢
      by_cases hrest : (splitHeader rest).1 = []
      · rw [if_pos hrest]
      · rw [if_neg hrest] at h
        exact absurd h hrest
    · cases t with
      | interpolation => rfl
      | text s => exact splitHeader_text hskip rest
      | tag tag span =>
        cases tag with
        | comment => exact absurd rfl hskip
        | param slice => cases h
        | _ => rfl

-- The same declarations are taken off, for blank text stays blank and other text is not lost.
theorem thinAll_splitHeader {ts us : List Token} (h : ThinAll ts us) :
    (splitHeader ts).1 = (splitHeader us).1 ∧
      ThinAll (splitHeader ts).2 (splitHeader us).2 := by
  -- What may stand before a declaration is taken off on both sides, or on none.
  have skipped {t t' : Token} {ts us : List Token} (ht : isSkipped t) (ht' : isSkipped t')
      (hcons : ThinAll (t :: ts) (t' :: us))
      (ih : (splitHeader ts).1 = (splitHeader us).1 ∧
        ThinAll (splitHeader ts).2 (splitHeader us).2) :
      (splitHeader (t :: ts)).1 = (splitHeader (t' :: us)).1 ∧
        ThinAll (splitHeader (t :: ts)).2 (splitHeader (t' :: us)).2 := by
    rw [splitHeader_skipped ht, splitHeader_skipped ht', ← ih.1]
    by_cases hnone : (splitHeader ts).1 = []
    · rw [if_pos hnone, if_pos hnone]
      exact ⟨rfl, hcons⟩
    · rw [if_neg hnone, if_neg hnone]
      exact ih
  induction h with
  | nil => exact ⟨rfl, .nil⟩
  | interpolation raw inner span rest ih => exact ⟨rfl, .interpolation raw inner span rest⟩
  | tag tag span rest ih =>
    cases tag with
    | comment => exact skipped rfl rfl (.tag .comment span rest) ih
    | param slice => exact ⟨congrArg ((slice, span) :: ·) ih.1, ih.2⟩
    | _ => exact ⟨rfl, .tag _ span rest⟩
  | @text s s' hs ts us rest ih =>
    have hsame : isSkipped (.text s') = isSkipped (.text s) := hs.all_isBlank
    by_cases hskip : isSkipped (.text s)
    · exact skipped hskip (hsame.trans hskip) (.text hs rest) ih
    · rw [splitHeader_text hskip, splitHeader_text (hsame ▸ hskip)]
      exact ⟨rfl, .text hs rest⟩
  | @gone s hs ts us rest ih =>
    have hskip : isSkipped (.text s) := hs.all_isBlank.symm
    rw [splitHeader_skipped hskip]
    by_cases hnone : (splitHeader ts).1 = []
    · rw [if_pos hnone, splitHeader_of_nil (ih.1.symm.trans hnone)]
      exact ⟨rfl, .gone hs rest⟩
    · rw [if_neg hnone]
      exact ih

theorem ofTokens_thinAll {ts us : List Token} (h : ThinAll ts us) :
    (∃ fault, ofTokens ts = .error fault ∧ ofTokens us = .error fault) ∨
      ∃ full thin, ofTokens ts = .ok full ∧ ofTokens us = .ok thin ∧
        Builder.ThinnedTemplate full thin := by
  obtain ⟨hparams, hrest⟩ := thinAll_splitHeader h
  have hnear : Builder.Near ((splitHeader ts).2.length + 1) ((splitHeader us).2.length + 1)
      ⟨(splitHeader ts).2, 0⟩ ⟨(splitHeader us).2, 0⟩ :=
    ⟨hrest, rfl, Nat.lt_succ_self _, Nat.lt_succ_self _⟩
  have hrun (tokens : List Token) : ofTokens tokens = (do
      let read ← (Builder.wholeTemplate (splitHeader tokens).1).run ⟨(splitHeader tokens).2, 0⟩
      return read.1) := rfl
  rw [hrun ts, hrun us, ← hparams]
  rcases Builder.alike_wholeTemplate (splitHeader ts).1 hnear with
    ⟨fault, hts, hus⟩ | ⟨full, thin, p, q, hts, hus, hthin⟩
  · exact .inl ⟨fault, by rw [hts]; rfl, by rw [hus]; rfl⟩
  · exact .inr ⟨full, thin, by rw [hts]; rfl, by rw [hus]; rfl, hthin⟩

-- With and without trimming, a source is refused with the same error or gives templates that
-- differ in text only: in each block, what stands before, between and after the other nodes has
-- lost nothing but line breaks and line blanks.
theorem parse_trimmed (source : String) :
    (∃ e, parse source true = .error e ∧ parse source false = .error e) ∨
      ∃ trimmed full, parse source true = .ok trimmed ∧ parse source false = .ok full ∧
        trimmed.params = full.params ∧ trimmed.idCount = full.idCount ∧
        Node.bareAll trimmed.body = Node.bareAll full.body ∧
        List.Forall₂ (fun whole thin => List.Forall₂ Thins (Node.gaps whole) (Node.gaps thin))
          full.blocks trimmed.blocks := by
  cases htokens : Markup.tokens source.toList with
  | error fault =>
    have hparse (trimLines : Bool) :
        parse source trimLines = .error (.ofFault source fault) := by
      unfold parse
      rw [htokens]
      rfl
    exact .inl ⟨_, hparse true, hparse false⟩
  | ok tokens =>
    have hparse (trimLines : Bool) : parse source trimLines =
        (ofTokens (if trimLines then trim tokens else tokens)).mapError
          (SyntaxError.ofFault source) := by
      unfold parse
      rw [htokens]
      rfl
    rw [hparse true, hparse false, if_pos rfl, if_neg Bool.false_ne_true]
    rcases ofTokens_thinAll (thinAll_trim tokens) with
      ⟨fault, hfull, hthin⟩ | ⟨full, thin, hfull, hthin, h⟩
    · rw [hfull, hthin]
      exact .inl ⟨_, rfl, rfl⟩
    · rw [hfull, hthin]
      exact .inr ⟨thin, full, rfl, rfl, h.params.symm, h.idCount.symm, h.body.bare.symm,
        .cons h.body.gaps h.body.blocks⟩

end Template

end Stencil
