import Stencil.Proofs.Effects
import Stencil.Proofs.Expr.Descent

/-!
When a descent comes to an end at a place: unrolled far enough it gives an outcome that does not
change any more. It is what the plain reader gives for the tokens up to the next end, and as much is
open afterwards as before.
-/

namespace Stencil.Code

-- The tokens up to the first end, and the byte where that end begins.
def upToEnd : List (Option Token × Span) → List Placed
  | (some token, span) :: rest => ⟨token, span⟩ :: upToEnd rest
  | _ => []

def firstEnd : List (Option Token × Span) → Nat
  | (some _, _) :: rest => firstEnd rest
  | (none, span) :: _ => span.start
  | [] => 0

namespace Place

-- What a plain reader has before it.
def cursor (table : Table) (p : Place) : Cursor :=
  ⟨upToEnd (table.entries.drop p.index), firstEnd (table.entries.drop p.index), p.nextId⟩

def left (table : Table) (p : Place) : Nat := (p.cursor table).tokens.length

def next (p : Place) : Place := { p with index := p.index + 1 }

-- What stands at a place: a token, which is not the last entry, or an end.
inductive Sees (table : Table) (p : Place) : Prop
  | token (t : Placed) (entry : table.entries[p.index]? = some (some t.token, t.span))
    (inside : p.next.index < table.entries.length)
    (cursor : p.cursor table =
      { p.next.cursor table with tokens := t :: (p.next.cursor table).tokens })
  | ending (span : Span) (entry : table.entries[p.index]? = some (none, span))
    (cursor : p.cursor table = ⟨[], span.start, p.nextId⟩)

theorem sees {table : Table} {p : Place} (h : p.index < table.entries.length) : p.Sees table := by
  have hentry := List.getElem?_eq_getElem h
  have hdrop := List.drop_eq_getElem_cons h
  generalize table.entries[p.index] = e at hentry hdrop
  obtain ⟨_ | token, span⟩ := e
  · refine .ending span hentry ?_
    rw [cursor, hdrop]
    rfl
  · have hinside : p.index + 1 < table.entries.length := by
      refine Nat.lt_of_le_of_ne h fun hlast => ?_
      have hclosed := table.closed
      rw [List.getLast?_eq_getElem?, ← hlast, Nat.add_sub_cancel, hentry] at hclosed
      cases hclosed
    refine .token ⟨token, span⟩ hentry hinside ?_
    rw [cursor, hdrop]
    rfl

theorem left_eq_succ {table : Table} {p : Place} {t : Placed} (h : p.cursor table =
      { p.next.cursor table with tokens := t :: (p.next.cursor table).tokens }) :
    p.left table = p.next.left table + 1 := by
  rw [left, h]
  rfl

-- A place in the table and further on, with as much open. No end lies between.
structure Reaches (table : Table) (p q : Place) : Prop where
  depth : q.depth = p.depth
  forth : p.index ≤ q.index
  inside : q.index < table.entries.length
  sum : q.index + q.left table = p.index + p.left table

theorem Reaches.refl {table : Table} {p : Place} (h : p.index < table.entries.length) :
    p.Reaches table p := ⟨rfl, Nat.le_refl _, h, rfl⟩

theorem Reaches.trans {table : Table} {p q r : Place} (h : p.Reaches table q)
    (h' : q.Reaches table r) : p.Reaches table r :=
  ⟨h'.depth.trans h.depth, Nat.le_trans h.forth h'.forth, h'.inside, h'.sum.trans h.sum⟩

end Place

theorem upToEnd_table (ts : List Placed) (stop : Nat) :
    upToEnd (Bytewise.table ts stop) = ts ∧ firstEnd (Bytewise.table ts stop) = stop := by
  induction ts with
  | nil => exact ⟨rfl, rfl⟩
  | cons t ts ih => exact ⟨congrArg (t :: ·) ih.1, ih.2⟩

-- The table of code that was cut into tokens.
def Table.ofTokens (ts : List Placed) (stop : Nat) : Table where
  entries := Bytewise.table ts stop
  closed := by rw [Bytewise.table, List.getLast?_concat]; rfl

theorem Place.cursor_ofTokens {ts : List Placed} {stop : Nat} {p : Place}
    (h : p.index < (Table.ofTokens ts stop).entries.length) :
    p.cursor (.ofTokens ts stop) = ⟨ts.drop p.index, stop, p.nextId⟩ := by
  have hdrop : (Table.ofTokens ts stop).entries.drop p.index =
      Bytewise.table (ts.drop p.index) stop := by
    have hle : p.index ≤ (ts.map fun t => (some t.token, t.span)).length := by
      rw [List.length_map]
      exact Nat.le_of_lt_succ (Nat.lt_of_lt_of_eq h (Bytewise.length_table ts stop))
    change (Bytewise.table ts stop).drop p.index = _
    rw [Bytewise.table, List.drop_append_of_le_length hle, ← List.map_drop]
    rfl
  rw [cursor, hdrop, (upToEnd_table _ _).1, (upToEnd_table _ _).2]

-- An outcome at a place from where the descent began: where it is then, what is so if it read
-- something, and what a plain reader gives from the same tokens.
structure Halted {α : Type} (table : Table) (p : Place) (post : α → Place → Prop)
    (reader : Reader α) (out : Except Fault α × Place) : Prop where
  reaches : p.Reaches table out.2
  post : ∀ a, out.1 = .ok a → post a out.2
  plain : reader.run (p.cursor table) = out.1.map fun a => (a, out.2.cursor table)

-- Unrolled far enough, a descent gives one outcome.
def Halts {α : Type} (table : Table) (p : Place) (post : α → Place → Prop) (x : Nat → Descent α)
    (reader : Reader α) : Prop :=
  ∃ out, (∃ n, ∀ m, n ≤ m → (x m).runAt table p = some out) ∧ Halted table p post reader out

open Descent

section Run

variable {α β : Type} {table : Table} {p : Place}

theorem runAt_bind (x : Descent α) (f : α → Descent β) :
    (x >>= f).runAt table p =
      match x.runAt table p with
      | some (.ok a, q) => (f a).runAt table q
      | some (.error fault, q) => some (.error fault, q)
      | none => none := by
  change ((x.run table >>= fun a => (f a).run table).run).run p = _
  rw [ExceptT.run_bind]
  change Option.bind (x.runAt table p) _ = _
  rcases x.runAt table p with _ | ⟨_ | _, _⟩ <;> rfl

theorem runAt_bind_of_ok {x : Descent α} {f : α → Descent β} {a : α} {q : Place}
    (h : x.runAt table p = some (.ok a, q)) : (x >>= f).runAt table p = (f a).runAt table q := by
  rw [runAt_bind, h]

theorem runAt_entry {e : Option Token × Span} (h : table.entries[p.index]? = some e) :
    entry.runAt table p = some (.ok e, p) := by
  change (liftM table.entries[p.index]? : Descent _).runAt table p = _
  rw [h]
  rfl

end Run

namespace Halts

variable {α β : Type} {table : Table} {p : Place} {post : α → Place → Prop}
  {x : Nat → Descent α} {reader : Reader α}

-- Where the descent and the reader do what others do that halt.
theorem congr {x' : Nat → Descent α} {reader' : Reader α} (h : Halts table p post x' reader')
    (hx : ∀ m, (x m).runAt table p = (x' m).runAt table p)
    (hreader : reader.run (p.cursor table) = reader'.run (p.cursor table)) :
    Halts table p post x reader := by
  obtain ⟨out, ⟨n, hrun⟩, hends⟩ := h
  exact ⟨out, ⟨n, fun m hm => (hx m).trans (hrun m hm)⟩, hends.reaches, hends.post,
    hreader.trans hends.plain⟩

theorem imp {post' : α → Place → Prop} (h : Halts table p post x reader)
    (hpost : ∀ a q, p.Reaches table q → post a q → post' a q) : Halts table p post' x reader := by
  obtain ⟨out, hrun, hends⟩ := h
  exact ⟨out, hrun, hends.reaches, fun a ha => hpost a _ hends.reaches (hends.post a ha),
    hends.plain⟩

theorem pure {a : α} (hp : p.index < table.entries.length) (h : post a p) :
    Halts table p post (fun _ => Pure.pure a) (Pure.pure a) :=
  ⟨(.ok a, p), ⟨0, fun _ _ => rfl⟩, .refl hp, fun _ heq => Except.ok.inj heq ▸ h, rfl⟩

theorem throw {fault : Fault} (hp : p.index < table.entries.length) :
    Halts table p post (fun _ => MonadExcept.throw fault) (MonadExcept.throw fault) :=
  ⟨(.error fault, p), ⟨0, fun _ _ => rfl⟩, .refl hp, (fun _ heq => nomatch heq), rfl⟩

theorem bind {f : Nat → α → Descent β} {g : α → Reader β} {post' : β → Place → Prop}
    (h : Halts table p post x reader)
    (hrest : ∀ a q, p.Reaches table q → post a q →
      Halts table q post' (fun m => f m a) (g a)) :
    Halts table p post' (fun m => x m >>= f m) (reader >>= g) := by
  obtain ⟨⟨result, q⟩, ⟨n, hrun⟩, hends⟩ := h
  cases result with
  | error fault =>
    refine ⟨(.error fault, q), ⟨n, fun m hm => ?_⟩, hends.reaches, (fun _ heq => nomatch heq), ?_⟩
    · rw [runAt_bind, hrun m hm]
    · exact run_bind_of_error hends.plain
  | ok a =>
    obtain ⟨out, ⟨n', hrun'⟩, hends'⟩ := hrest a q hends.reaches (hends.post a rfl)
    refine ⟨out, ⟨max n n', fun m hm => ?_⟩, hends.reaches.trans hends'.reaches, hends'.post, ?_⟩
    · obtain ⟨hn, hn'⟩ := Nat.max_le.mp hm
      rw [runAt_bind_of_ok (hrun m hn), hrun' m hn']
    · exact (run_bind_of_ok hends.plain).trans hends'.plain

-- One call more.
theorem unroll (h : Halts table p post (fun m => x (m + 1)) reader) :
    Halts table p post x reader := by
  obtain ⟨out, ⟨n, hrun⟩, hends⟩ := h
  refine ⟨out, ⟨n + 1, fun m hm => ?_⟩, hends⟩
  obtain ⟨m, rfl⟩ : ∃ k, m = k + 1 := ⟨m - 1, by omega⟩
  exact hrun m (Nat.le_of_succ_le_succ hm)

-- A look that finds the same as the reader's takes nothing.
theorem of_look {y : Descent α} {a : α} (hp : p.index < table.entries.length)
    (hy : y.runAt table p = some (.ok a, p))
    (hreader : reader.run (p.cursor table) = .ok (a, p.cursor table)) :
    Halts table p (fun a' q => q = p ∧ a' = a) (fun _ => y) reader :=
  ⟨_, ⟨0, fun _ _ => hy⟩, .refl hp, (fun _ heq => ⟨rfl, (Except.ok.inj heq).symm⟩), hreader⟩

-- Where only the descent looks, or only the reader.

theorem looked {f : Nat → β → Descent α} {y : Descent β} {b : β}
    (hy : y.runAt table p = some (.ok b, p))
    (h : Halts table p post (fun m => f m b) reader) :
    Halts table p post (fun m => y >>= f m) reader :=
  h.congr (fun _ => runAt_bind_of_ok hy) rfl

theorem read {g : β → Reader α} {look : Reader β} {b : β}
    (hlook : look.run (p.cursor table) = .ok (b, p.cursor table))
    (h : Halts table p post x (g b)) : Halts table p post x (look >>= g) :=
  h.congr (fun _ => rfl) (run_bind_of_ok hlook)

theorem map {f : α → β} {post' : β → Place → Prop} (h : Halts table p post x reader)
    (hpost : ∀ a q, post a q → post' (f a) q) :
    Halts table p post' (fun m => f <$> x m) (f <$> reader) := by
  simp only [← bind_pure_comp]
  exact h.bind fun a q hq ha => .pure hq.inside (hpost a q ha)

-- Inside of one more operand or type, as long as there is room.
theorem nested (hroom : p.depth < maxNesting)
    (h : Halts table { p with depth := p.depth + 1 }
      (fun a q => post a { q with depth := q.depth - 1 }) x reader) :
    Halts table p post (fun m => (x m).nested) reader := by
  obtain ⟨⟨result, q⟩, ⟨n, hrun⟩, hends⟩ := h
  have hdepth : q.depth - 1 = p.depth := by
    rw [hends.reaches.depth, Nat.add_sub_cancel]
  refine ⟨(result, { q with depth := q.depth - 1 }), ⟨n, fun m hm => ?_⟩,
    ⟨hdepth, hends.reaches.forth, hends.reaches.inside, hends.reaches.sum⟩, hends.post,
    hends.plain⟩
  have hsteps : (x m).nested.runAt table p =
      ((x m).runAt table { p with depth := p.depth + 1 }).bind
        fun out => some (out.1, { out.2 with depth := out.2.depth - 1 }) := by
    change (if p.depth < maxNesting then _ else _ : StateT Place Option _).run p = _
    rw [if_pos hroom]
    rfl
  rw [hsteps, hrun m hm]
  rfl

end Halts

namespace Descent

section Primitives

variable {α : Type} {table : Table} {p : Place} {post : α → Place → Prop}

theorem runAt_next? (hp : p.index < table.entries.length) :
    next?.runAt table p = some (.ok ((p.cursor table).tokens.head?.map (·.token)), p) := by
  cases Place.sees hp with
  | token t hentry _ hcursor =>
    rw [hcursor]
    exact runAt_bind_of_ok (runAt_entry hentry)
  | ending span hentry hcursor =>
    rw [hcursor]
    exact runAt_bind_of_ok (runAt_entry hentry)

theorem runAt_next?_of_left (hp : p.index < table.entries.length) (h : p.left table = 0) :
    next?.runAt table p = some (.ok none, p) := by
  rw [runAt_next? hp, List.eq_nil_of_length_eq_zero h]
  rfl

-- What follows when the next token is seen, or that there is none.
theorem halts_next? {f : Nat → Option Token → Descent α} {g : Option Token → Reader α}
    (hp : p.index < table.entries.length)
    (hnone : Halts table p post (fun m => f m none) (g none))
    (hsome : ∀ token, 0 < p.left table →
      Halts table p post (fun m => f m (some token)) (g (some token))) :
    Halts table p post (fun m => next? >>= f m) (Reader.next? >>= g) := by
  refine .looked (runAt_next? hp) (.read rfl ?_)
  have hlength : p.left table = (p.cursor table).tokens.length := rfl
  cases htokens : (p.cursor table).tokens with
  | nil => exact hnone
  | cons t rest =>
    rw [htokens] at hlength
    exact hsome t.token (hlength ▸ Nat.succ_pos _)

theorem runAt_here {e : Option Token × Span} (h : table.entries[p.index]? = some e) :
    here.runAt table p = some (.ok e.2, p) := runAt_bind_of_ok (runAt_entry h)

-- The reader and the descent may see the same end in different places.
theorem halts_here {f : Nat → Span → Descent α} {g : Span → Reader α}
    (hp : p.index < table.entries.length)
    (h : ∀ span span', (0 < p.left table → span = span') →
      Halts table p post (fun m => f m span) (g span')) :
    Halts table p post (fun m => here >>= f m) (Reader.here >>= g) := by
  cases Place.sees hp with
  | token t hentry _ hcursor =>
    have hlook : Reader.here.run (p.cursor table) = .ok (t.span, p.cursor table) := by
      rw [hcursor]
      rfl
    exact .looked (runAt_here hentry) (.read hlook (h t.span t.span fun _ => rfl))
  | ending span hentry hcursor =>
    refine .looked (runAt_here hentry) (.read rfl (h span _ fun hleft => ?_))
    rw [Place.left, hcursor] at hleft
    cases hleft

theorem halts_fail {defect : Defect} (hp : p.index < table.entries.length) :
    Halts table p post (fun _ => fail defect) (Reader.fail defect) := by
  have hrun {e : Option Token × Span} (h : table.entries[p.index]? = some e) :
      (fail defect : Descent α).runAt table p = some (.error ⟨defect, e.2.start⟩, p) :=
    (runAt_bind_of_ok (runAt_here h)).trans rfl
  cases Place.sees hp with
  | token t hentry _ hcursor =>
    refine ⟨_, ⟨0, fun _ _ => hrun hentry⟩, .refl hp, (fun _ heq => nomatch heq), ?_⟩
    rw [hcursor]
    rfl
  | ending span hentry hcursor =>
    refine ⟨_, ⟨0, fun _ _ => hrun hentry⟩, .refl hp, (fun _ heq => nomatch heq), ?_⟩
    rw [hcursor]
    rfl

theorem halts_stop {β : Type} {defect : Defect} {f : Nat → β → Descent α} {g : β → Reader α}
    (hp : p.index < table.entries.length) :
    Halts table p post (fun m => fail defect >>= f m) (Reader.fail defect >>= g) := by
  have hfail : Halts table p (fun _ _ => False) (fun _ => fail defect)
    (Reader.fail defect : Reader β) := halts_fail hp
  exact hfail.bind fun _ _ _ h => h.elim

-- No more is opened where there is no room.
theorem halts_nested_full {x : Nat → Descent α} (hp : p.index < table.entries.length)
    (hfull : ¬ p.depth < maxNesting) :
    Halts table p post (fun m => nested (x m)) (Reader.fail .nestingTooDeep) := by
  refine (halts_fail hp).congr (fun m => ?_) rfl
  change (if p.depth < maxNesting then _ else _ : StateT Place Option _).run p = _
  rw [if_neg hfull]
  rfl

theorem halts_unexpected {expected : String} (hp : p.index < table.entries.length) :
    Halts table p post (fun _ => unexpected expected) (Reader.unexpected expected) :=
  halts_next? hp (halts_fail hp) fun _ _ => halts_fail hp

theorem halts_atSymbol {s : Symbol} (hp : p.index < table.entries.length) :
    Halts table p (fun found q => q = p ∧ (found = true → 0 < p.left table))
      (fun _ => atSymbol s) (Reader.atSymbol s) := by
  refine halts_next? hp (.pure hp ⟨rfl, nofun⟩) fun token hleft => ?_
  cases token with
  | symbol t => exact .pure hp ⟨rfl, fun _ => hleft⟩
  | _ => exact .pure hp ⟨rfl, fun _ => hleft⟩

theorem halts_skip_next (hp : p.index < table.entries.length) (hleft : 0 < p.left table) :
    Halts table p (fun _ q => q = p.next) (fun _ => skip) Reader.skip := by
  cases Place.sees hp with
  | ending span hentry hcursor =>
    rw [Place.left, hcursor] at hleft
    cases hleft
  | token t hentry hinside hcursor =>
    have hadvance : Bytewise.advance table.entries p.index = p.index + 1 :=
      if_pos (Nat.lt_sub_of_add_lt hinside)
    have hrun : skip.runAt table p = some (.ok (), p.next) := by
      refine (runAt_bind_of_ok (runAt_entry hentry)).trans ?_
      change some (Except.ok (), { p with index := Bytewise.advance table.entries p.index }) = _
      rw [hadvance]
      rfl
    have hsum : p.next.index + p.next.left table = p.index + p.left table := by
      rw [Place.left_eq_succ hcursor]
      exact Nat.add_right_comm p.index 1 _
    refine ⟨_, ⟨0, fun _ _ => hrun⟩, ⟨rfl, Nat.le_succ _, hinside, hsum⟩,
      (fun _ _ => rfl), ?_⟩
    rw [hcursor]
    rfl

theorem halts_skip (hp : p.index < table.entries.length) (hleft : 0 < p.left table) :
    Halts table p (fun _ q => p.index < q.index) (fun _ => skip) Reader.skip :=
  (halts_skip_next hp hleft).imp fun _ _ _ hq => hq ▸ Nat.lt_succ_self p.index

theorem halts_accept {s : Symbol} (hp : p.index < table.entries.length) :
    Halts table p (fun found q => found = true → p.index < q.index)
      (fun _ => accept s) (Reader.accept s) := by
  refine .bind (halts_atSymbol hp) ?_
  rintro found q - ⟨rfl, hfound⟩
  cases found with
  | false => exact .pure hp fun h => nomatch h
  | true =>
    refine .bind (halts_skip hp (hfound rfl)) fun _ r hr hlt => ?_
    exact .pure hr.inside fun _ => hlt

theorem halts_expect {s : Symbol} (hp : p.index < table.entries.length) :
    Halts table p (fun _ q => p.index < q.index) (fun _ => expect s) (Reader.expect s) := by
  refine .bind (halts_atSymbol hp) ?_
  rintro found q - ⟨rfl, hfound⟩
  cases found with
  | false => exact halts_unexpected hp
  | true =>
    refine halts_here hp fun span span' hsame => ?_
    obtain rfl := hsame (hfound rfl)
    refine .bind (halts_skip hp (hfound rfl)) fun _ r hr hlt => ?_
    exact .pure hr.inside hlt

theorem halts_expectIdent {what : String} (hp : p.index < table.entries.length) :
    Halts table p (fun _ q => p.index < q.index)
      (fun _ => expectIdent what) (Reader.expectIdent what) := by
  refine halts_next? hp (halts_unexpected hp) fun token hleft => ?_
  cases token with
  | ident name =>
    refine halts_here hp fun span span' hsame => ?_
    obtain rfl := hsame hleft
    refine .bind (halts_skip hp hleft) fun _ r hr hlt => ?_
    exact .pure hr.inside hlt
  | _ => exact halts_unexpected hp

theorem halts_expectEnd (hp : p.index < table.entries.length) :
    Halts table p (fun _ _ => True) (fun _ => expectEnd) Reader.expectEnd :=
  halts_next? hp (.pure hp trivial) fun _ _ => halts_unexpected hp

theorem halts_ensureNotEmpty (hp : p.index < table.entries.length) :
    Halts table p (fun _ q => q = p) (fun _ => ensureNotEmpty) Reader.ensureNotEmpty :=
  halts_next? hp (halts_fail hp) fun _ _ => .pure hp rfl

theorem halts_freshId (hp : p.index < table.entries.length) :
    Halts table p (fun _ _ => True) (fun _ => freshId) Reader.freshId :=
  ⟨(.ok p.nextId, { p with nextId := p.nextId + 1 }), ⟨0, fun _ _ => rfl⟩,
    ⟨rfl, Nat.le_refl _, hp, rfl⟩, (fun _ _ => trivial), rfl⟩

theorem halts_node {span : Span} {children : List Measured} {make : Mark → Expr}
    (hp : p.index < table.entries.length) :
    Halts table p (fun _ _ => True) (fun _ => node span children make)
      (Code.node span children make) := by
  by_cases hlimit : maxNesting < tallest children + 1
  · have hdescent : node span children make = throw ⟨.nestingTooDeep, span.start⟩ := if_pos hlimit
    have hreader : Code.node span children make = throw ⟨.nestingTooDeep, span.start⟩ :=
      if_pos hlimit
    rw [hdescent, hreader]
    exact .throw hp
  · unfold node Code.node
    simp only [if_neg hlimit]
    refine .bind (halts_freshId hp) fun id q hq _ => ?_
    exact .pure hq.inside trivial

theorem halts_literal {span : Span} {value : Literal} (hp : p.index < table.entries.length)
    (hleft : 0 < p.left table) :
    Halts table p (fun _ q => p.index < q.index) (fun _ => literal span value)
      (Code.literal span value) := by
  refine .bind (halts_skip hp hleft) fun _ q hq hlt => ?_
  exact (halts_node hq.inside).imp fun _ r hr _ => Nat.lt_of_lt_of_le hlt hr.forth

theorem halts_nextOperator? {looseness : Nat} (hp : p.index < table.entries.length) :
    Halts table p (fun op q => q = p ∧ (op.isSome = true → 0 < p.left table))
      (fun _ => nextOperator? looseness) (Code.nextOperator? looseness) := by
  refine halts_next? hp (.pure hp ⟨rfl, nofun⟩) fun token hleft => ?_
  cases token with
  | symbol s => exact .pure hp ⟨rfl, fun _ => hleft⟩
  | _ => exact .pure hp ⟨rfl, fun _ => hleft⟩

theorem halts_nextIdent? (hp : p.index < table.entries.length) :
    Halts table p (fun name q => q = p ∧ (name.isSome = true → 0 < p.left table))
      (fun _ => nextIdent?) Code.nextIdent? := by
  refine halts_next? hp (.pure hp ⟨rfl, nofun⟩) fun token hleft => ?_
  cases token with
  | ident name => exact .pure hp ⟨rfl, fun _ => hleft⟩
  | _ => exact .pure hp ⟨rfl, fun _ => hleft⟩

theorem halts_loopName (hp : p.index < table.entries.length) :
    Halts table p (fun _ _ => True) (fun _ => loopName) Code.loopName := by
  refine .bind (halts_nextIdent? hp) ?_
  rintro name q - ⟨rfl, hname⟩
  cases name with
  | none => exact halts_fail hp
  | some name =>
    by_cases hin : name = "in"
    · simp only [if_pos hin]
      exact halts_fail hp
    · simp only [if_neg hin]
      refine halts_here hp fun span span' hsame => ?_
      obtain rfl := hsame (hname rfl)
      refine .bind (halts_skip hp (hname rfl)) fun _ q hq _ => ?_
      refine .bind (halts_freshId hq.inside) fun id r hr _ => ?_
      exact .pure hr.inside trivial

-- The token behind one that is not the last entry.
theorem runAt_ahead? (h : p.next.index < table.entries.length) :
    (ahead? 1).runAt table p =
      some (.ok ((p.next.cursor table).tokens.head?.map (·.token)), p) := by
  have hahead : Bytewise.ahead table.entries p.index 1 = p.next.index :=
    Nat.min_eq_left (Nat.le_sub_one_of_lt h)
  have hrun {e : Option Token × Span} (hentry : table.entries[p.next.index]? = some e) :
      (ahead? 1).runAt table p = some (.ok e.1, p) := by
    have hfound : (liftM table.entries[Bytewise.ahead table.entries p.index 1]? :
        Descent _).runAt table p = some (.ok e, p) := by
      rw [hahead, hentry]
      rfl
    have hsteps : (ahead? 1).runAt table p =
        ((liftM table.entries[Bytewise.ahead table.entries p.index 1]? :
          Descent (Option Token × Span)) >>= fun e => Pure.pure e.1).runAt table p := rfl
    rw [hsteps, runAt_bind_of_ok hfound]
    rfl
  cases Place.sees h with
  | token t hentry _ hcursor =>
    rw [hrun hentry, hcursor]
    rfl
  | ending span hentry hcursor =>
    rw [hrun hentry, hcursor]
    rfl

theorem halts_leastIntLiteral? (hp : p.index < table.entries.length) :
    Halts table p (fun found q => q = p ∧ (found.isSome = true → 0 < p.left table))
      (fun _ => leastIntLiteral?) Code.leastIntLiteral? := by
  cases Place.sees hp with
  | ending span hentry hcursor =>
    have hrun : leastIntLiteral?.runAt table p = some (.ok none, p) :=
      (runAt_bind_of_ok (runAt_entry hentry)).trans rfl
    refine (Halts.of_look hp hrun (by rw [hcursor]; rfl)).imp ?_
    rintro found q - ⟨rfl, rfl⟩
    exact ⟨rfl, fun h => nomatch h⟩
  | token t hentry hinside hcursor =>
    have hleft : 0 < p.left table := Place.left_eq_succ hcursor ▸ Nat.succ_pos _
    obtain ⟨found, hrun, hreader⟩ : ∃ found, leastIntLiteral?.runAt table p = some (.ok found, p) ∧
        Code.leastIntLiteral?.run (p.cursor table) = .ok (found, p.cursor table) := by
      have hahead := runAt_ahead? hinside
      rw [hcursor]
      generalize (p.next.cursor table).tokens = following at hahead
      rw [leastIntLiteral?, runAt_bind_of_ok (runAt_entry hentry)]
      obtain ⟨token, span⟩ := t
      cases token with
      | int n digits =>
        dsimp only
        rw [runAt_bind_of_ok hahead]
        rcases following with _ | ⟨⟨behind, place⟩, rest⟩
        · exact ⟨_, rfl, rfl⟩
        · cases behind with
          | symbol s => cases s with
            | dot => exact ⟨_, rfl, rfl⟩
            | _ => exact ⟨_, rfl, rfl⟩
          | _ => exact ⟨_, rfl, rfl⟩
      | _ => exact ⟨_, rfl, rfl⟩
    refine (Halts.of_look hp hrun hreader).imp ?_
    rintro found q - ⟨rfl, -⟩
    exact ⟨rfl, fun _ => hleft⟩

-- Either both find no name, or both pass a name and a sign of assignment.
theorem argumentName?_cases (hp : p.index < table.entries.length) :
    (argumentName?.runAt table p = some (.ok none, p) ∧
      Code.argumentName?.run (p.cursor table) = .ok (none, p.cursor table)) ∨
    ∃ name, 1 < p.left table ∧
      argumentName?.runAt table p = (do skip; skip; return some name : Descent _).runAt table p ∧
      Code.argumentName?.run (p.cursor table) =
        (do Reader.skip; Reader.skip; return some name : Reader _).run (p.cursor table) := by
  have hnext := runAt_next? hp
  cases Place.sees hp with
  | ending span hentry hcursor =>
    rw [hcursor] at hnext ⊢
    exact .inl ⟨(runAt_bind_of_ok ((runAt_bind_of_ok hnext).trans rfl)).trans rfl, rfl⟩
  | token t hentry hinside hcursor =>
    have hahead := runAt_ahead? hinside
    rw [hcursor] at hnext
    rw [Place.left, hcursor]
    generalize (p.next.cursor table).tokens = following at hahead hnext
    obtain ⟨token, span⟩ := t
    cases token with
    | ident name =>
      have hname : nextIdent?.runAt table p = some (.ok (some name), p) :=
        (runAt_bind_of_ok hnext).trans rfl
      rw [argumentName?, runAt_bind_of_ok hname]
      dsimp only
      rw [runAt_bind_of_ok hahead]
      rcases following with _ | ⟨⟨behind, place⟩, rest⟩
      · exact .inl ⟨rfl, rfl⟩
      · cases behind with
        | symbol s => cases s with
          | assign => exact .inr ⟨name, Nat.le_add_left 2 _, rfl, rfl⟩
          | _ => exact .inl ⟨rfl, rfl⟩
        | _ => exact .inl ⟨rfl, rfl⟩
    | _ => exact .inl ⟨(runAt_bind_of_ok ((runAt_bind_of_ok hnext).trans rfl)).trans rfl, rfl⟩

theorem halts_argumentName? (hp : p.index < table.entries.length) :
    Halts table p (fun _ _ => True) (fun _ => argumentName?) Code.argumentName? := by
  rcases argumentName?_cases hp with ⟨hrun, hreader⟩ | ⟨name, hleft, hrun, hreader⟩
  · exact (Halts.of_look hp hrun hreader).imp fun _ _ _ _ => trivial
  · have hskips : Halts table p (fun _ _ => True)
        (fun _ => do skip; skip; return some name)
        (do Reader.skip; Reader.skip; return some name) := by
      refine .bind (halts_skip_next hp (Nat.lt_of_succ_lt hleft)) ?_
      rintro _ q hq rfl
      have hsum : p.index + 1 + p.next.left table = p.index + p.left table := hq.sum
      refine .bind (halts_skip hq.inside (by omega)) fun _ r hr _ => ?_
      exact .pure hr.inside trivial
    exact hskips.congr (fun _ => hrun) hreader

end Primitives

end Descent

end Stencil.Code
