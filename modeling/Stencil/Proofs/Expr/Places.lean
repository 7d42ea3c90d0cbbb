import Stencil.Proofs.Effects
import Stencil.Proofs.Expr.Tokens
import Stencil.Proofs.Text.Boundaries
import Stencil.Template.Header

/-!
Where faults in code are reported: at a token or at the end of the code, and where the code cannot
be cut into tokens, at a character of it.
-/

namespace Stencil.Code

-- All tokens that are left begin at good places, and the code ends at one.
structure Cursor.Placed (good : Nat → Prop) (c : Cursor) : Prop where
  token : ∀ t ∈ c.tokens, good t.span.start
  stop : good c.stop

-- From good places a reader reports its faults at good places, and the places of what it gives are
-- good as well. It only drops tokens from the front.
def Points {α : Type} (good : Nat → Prop) (reader : Reader α) (places : α → List Nat) : Prop :=
  ∀ c, c.Placed good →
    match reader.run c with
    | .error fault => good fault.offset
    | .ok (a, c') => (∀ n ∈ places a, good n) ∧ c'.tokens <:+ c.tokens ∧ c'.stop = c.stop

theorem Cursor.Placed.of_suffix {good : Nat → Prop} {c c' : Cursor} (h : c.Placed good)
    (hsuffix : c'.tokens <:+ c.tokens) (hstop : c'.stop = c.stop) : c'.Placed good :=
  ⟨fun t ht => h.token t (hsuffix.subset ht), hstop ▸ h.stop⟩

namespace Points

variable {α β : Type} {good : Nat → Prop} {x : Reader α} {f : α → Reader β} {places : α → List Nat}
  {places' : β → List Nat}

theorem pure {a : α} (h : ∀ n ∈ places a, good n) : Points good (Pure.pure a) places :=
  fun c _ => ⟨h, List.suffix_refl c.tokens, rfl⟩

-- Nothing is said of what has no place.
theorem done {a : α} : Points good (Pure.pure a) fun _ => [] := .pure (by simp)

theorem throw {fault : Fault} (h : good fault.offset) :
    Points good (MonadExcept.throw fault) places := fun _ _ => h

theorem bind (hx : Points good x places)
    (hf : ∀ a, (∀ n ∈ places a, good n) → Points good (f a) places') :
    Points good (x >>= f) places' := by
  intro c hc
  have hfirst := hx c hc
  cases hrun : x.run c with
  | error fault =>
    rw [run_bind_of_error hrun]
    rwa [hrun] at hfirst
  | ok p =>
    obtain ⟨a, c'⟩ := p
    rw [hrun] at hfirst
    obtain ⟨ha, hsuffix, hstop⟩ := hfirst
    have hsecond := hf a ha c' (hc.of_suffix hsuffix hstop)
    rw [run_bind_of_ok hrun]
    cases hrun' : (f a).run c' with
    | error fault => rwa [hrun'] at hsecond
    | ok p =>
      rw [hrun'] at hsecond
      exact ⟨hsecond.1, hsecond.2.1.trans hsuffix, hsecond.2.2.trans hstop⟩

-- The places of the result play no part.
theorem forget (h : Points good x places) : Points good x fun _ => [] := by
  intro c hc
  have hx := h c hc
  cases hrun : x.run c with
  | error fault => rwa [hrun] at hx
  | ok p =>
    rw [hrun] at hx
    exact ⟨by simp, hx.2⟩

theorem andThen (hx : Points good x fun _ => []) (hf : ∀ a, Points good (f a) places') :
    Points good (x >>= f) places' := hx.bind fun a _ => hf a

theorem map {g : α → β} (h : Points good x fun _ => []) :
    Points good (g <$> x) fun _ => [] := by
  rw [← bind_pure_comp]
  exact h.andThen fun _ => .done

end Points

variable {good : Nat → Prop}

-- Readers of parts that are no expressions.
namespace Reader

theorem points_next? : Points good next? fun _ => [] :=
  fun c _ => ⟨by simp, List.suffix_refl c.tokens, rfl⟩

theorem points_get : Points good get fun _ => [] :=
  fun c _ => ⟨by simp, List.suffix_refl c.tokens, rfl⟩

theorem points_freshId : Points good freshId fun _ => [] :=
  fun c _ => ⟨by simp, List.suffix_refl c.tokens, rfl⟩

theorem points_skip : Points good skip fun _ => [] :=
  fun c _ => ⟨by simp, List.tail_suffix c.tokens, rfl⟩

theorem points_here : Points good here fun span => [span.start] := by
  intro c hc
  refine ⟨?_, List.suffix_refl c.tokens, rfl⟩
  rw [List.forall_mem_singleton]
  obtain ⟨tokens, stop, n⟩ := c
  cases tokens with
  | nil => exact hc.stop
  | cons t ts => exact hc.token t List.mem_cons_self

theorem points_fail {α : Type} {defect : Defect} {places : α → List Nat} :
    Points good (fail defect) places :=
  .bind points_here fun span hspan => .throw (hspan span.start List.mem_cons_self)

theorem points_unexpected {α : Type} {expected : String} {places : α → List Nat} :
    Points good (unexpected expected) places :=
  .andThen points_next? fun _ => points_fail

theorem points_atSymbol {s : Symbol} : Points good (atSymbol s) fun _ => [] := by
  refine .andThen points_next? fun t => ?_
  split <;> exact .done

theorem points_accept {s : Symbol} : Points good (accept s) fun _ => [] := by
  refine .andThen points_atSymbol fun found => ?_
  split
  · exact .andThen points_skip fun _ => .done
  · exact .done

theorem points_expect {s : Symbol} : Points good (expect s) fun span => [span.start] := by
  refine .andThen points_atSymbol fun found => ?_
  split
  · exact .bind points_here fun span hspan => .andThen points_skip fun _ => .pure hspan
  · exact points_unexpected

theorem points_expectIdent {what : String} :
    Points good (expectIdent what) fun ident => [ident.2.start] := by
  refine .andThen points_next? fun t => ?_
  split
  · exact .bind points_here fun span hspan => .andThen points_skip fun _ => .pure hspan
  · exact points_unexpected

theorem points_expectEnd : Points good expectEnd fun _ => [] := by
  refine .andThen points_next? fun t => ?_
  split
  · exact points_unexpected
  · exact .done

theorem points_ensureNotEmpty : Points good ensureNotEmpty fun _ => [] := by
  refine .andThen points_next? fun t => ?_
  split
  · exact points_fail
  · exact .done

end Reader

open Reader

-- Where an expression begins.
abbrev Measured.place (e : Measured) : List Nat := [e.span.start]

theorem points_tokenCount : Points good tokenCount fun _ => [] :=
  .andThen points_get fun _ => .done

theorem points_nextOperator? {looseness : Nat} :
    Points good (nextOperator? looseness) fun _ => [] := by
  refine .andThen points_next? fun t => ?_
  split <;> exact .done

theorem points_leastIntLiteral? :
    Points good leastIntLiteral? fun found => (found.map (·.start)).toList := by
  intro c hc
  have hget : (get : Reader Cursor).run c = .ok (c, c) := rfl
  have hrun : ∃ found, leastIntLiteral?.run c = .ok (found, c) ∧
      ∀ span, found = some span → good span.start := by
    rw [leastIntLiteral?, run_bind_of_ok hget]
    split
    · next n digits span following htokens =>
      have hspan : good span.start := hc.token ⟨.int n digits, span⟩ (by simp [htokens])
      split
      · exact ⟨none, rfl, fun _ h => nomatch h⟩
      · split
        · exact ⟨some span, rfl, fun _ h => Option.some.inj h ▸ hspan⟩
        · exact ⟨none, rfl, fun _ h => nomatch h⟩
    · exact ⟨none, rfl, fun _ h => nomatch h⟩
  obtain ⟨found, hrun, hfound⟩ := hrun
  rw [hrun]
  refine ⟨fun n hn => ?_, List.suffix_refl _, rfl⟩
  obtain ⟨span, hspan, rfl⟩ := Option.map_eq_some_iff.1 (Option.mem_toList.1 hn)
  exact hfound span hspan

theorem points_node {span : Span} {children : List Measured} {make : Mark → Expr}
    (hspan : good span.start) (hmake : ∀ mark, (make mark).mark = mark) :
    Points good (node span children make) Measured.place := by
  simp only [node]
  split
  · exact .throw hspan
  · refine .andThen points_freshId fun id => .pure ?_
    rw [List.forall_mem_singleton, Measured.span, Expr.span, hmake]
    exact hspan

theorem points_literal {span : Span} {value : Literal} (hspan : good span.start) :
    Points good (literal span value) Measured.place :=
  .andThen points_skip fun _ => points_node hspan fun _ => rfl

theorem good_cover {a b : Span} (ha : good a.start) (hb : good b.start) :
    good (a.cover b).start := by
  rcases Nat.le_total a.start b.start with h | h
  · rwa [Span.cover, Nat.min_eq_left h]
  · rwa [Span.cover, Nat.min_eq_right h]

theorem points_chain {operand : Reader Measured} (hoperand : Points good operand Measured.place)
    (looseness : Nat) : ∀ (fuel : Nat) (lhs : Measured), good lhs.span.start →
      Points good (chain operand looseness fuel lhs) Measured.place
  | 0, lhs, hlhs => .pure (List.forall_mem_singleton.2 hlhs)
  | fuel + 1, lhs, hlhs => by
    refine .andThen points_nextOperator? fun op => ?_
    split
    · exact .pure (List.forall_mem_singleton.2 hlhs)
    · refine .andThen points_skip fun _ => .bind hoperand fun rhs hrhs => ?_
      have hcover := good_cover hlhs (List.forall_mem_singleton.1 hrhs)
      refine .bind (points_node hcover fun _ => rfl) fun whole hwhole => ?_
      exact points_chain hoperand looseness fuel whole (List.forall_mem_singleton.1 hwhole)

theorem points_binary {operand : Reader Measured} (hoperand : Points good operand Measured.place) :
    ∀ looseness, Points good (binary operand looseness) Measured.place
  | 0 => hoperand
  | looseness + 1 => by
    have hdeeper := points_binary hoperand looseness
    refine .bind hdeeper fun lhs hlhs => .andThen points_tokenCount fun count => ?_
    exact points_chain hdeeper (looseness + 1) count lhs (List.forall_mem_singleton.1 hlhs)

theorem points_commaSeparated {item : Reader Measured} (hitem : Points good item Measured.place) :
    ∀ fuel, Points good (commaSeparated item fuel) fun _ => []
  | 0 => .andThen hitem.forget fun _ => .done
  | fuel + 1 => by
    refine .andThen hitem.forget fun first => .andThen points_accept fun comma => ?_
    split
    · exact .andThen (points_commaSeparated hitem fuel) fun _ => .done
    · exact .done

theorem points_items {item : Reader Measured} (hitem : Points good item Measured.place)
    (close : Symbol) : Points good (items item close) fun _ => [] := by
  refine .andThen points_atSymbol fun found => ?_
  split
  · exact .done
  · exact .andThen points_tokenCount fun count => points_commaSeparated hitem count

theorem points_primary {expr : Reader Measured} (hexpr : Points good expr Measured.place) :
    Points good (primary expr) Measured.place := by
  refine .bind points_here fun span hspan => .andThen points_next? fun t => ?_
  have hspan := List.forall_mem_singleton.1 hspan
  split
  · split
    · exact points_literal hspan
    · exact points_fail
  · exact points_literal hspan
  · exact points_literal hspan
  · exact points_literal hspan
  · exact points_literal hspan
  · exact points_literal hspan
  · exact .andThen points_skip fun _ => points_node hspan fun _ => rfl
  · refine .andThen points_skip fun _ => .bind hexpr fun inner hinner => ?_
    exact .andThen points_expect.forget fun _ => .pure hinner
  · refine .andThen points_skip fun _ => .andThen (points_items hexpr _) fun es => ?_
    refine .bind points_expect fun close hclose => ?_
    exact points_node (good_cover hspan (List.forall_mem_singleton.1 hclose)) fun _ => rfl
  · exact points_unexpected

theorem points_memberChain {expr : Reader Measured} (hexpr : Points good expr Measured.place) :
    ∀ (fuel : Nat) (object : Measured), good object.span.start →
      Points good (memberChain expr fuel object) Measured.place
  | 0, object, hobject => .pure (List.forall_mem_singleton.2 hobject)
  | fuel + 1, object, hobject => by
    refine .andThen points_accept fun dot => ?_
    split
    · refine .bind points_expectIdent fun (name, nameSpan) hname => ?_
      refine .andThen points_accept fun paren => ?_
      split
      · refine .andThen (points_items hexpr _) fun args => ?_
        refine .bind points_expect fun close hclose => ?_
        have hcover := good_cover hobject (List.forall_mem_singleton.1 hclose)
        refine .bind (points_node hcover fun _ => rfl) fun whole hwhole => ?_
        exact points_memberChain hexpr fuel whole (List.forall_mem_singleton.1 hwhole)
      · have hcover := good_cover hobject (List.forall_mem_singleton.1 hname)
        refine .bind (points_node hcover fun _ => rfl) fun whole hwhole => ?_
        exact points_memberChain hexpr fuel whole (List.forall_mem_singleton.1 hwhole)
    · exact .pure (List.forall_mem_singleton.2 hobject)

theorem points_postfixed {expr : Reader Measured} (hexpr : Points good expr Measured.place) :
    Points good (postfixed expr) Measured.place := by
  refine .bind (points_primary hexpr) fun object hobject => ?_
  refine .andThen points_tokenCount fun count => ?_
  exact points_memberChain hexpr count object (List.forall_mem_singleton.1 hobject)

theorem points_signed {deeper : Reader Measured} (hdeeper : Points good deeper Measured.place) :
    Points good (signed deeper) Measured.place := by
  refine .bind points_here fun sign hsign => .andThen points_accept fun bang => ?_
  have hsign := List.forall_mem_singleton.1 hsign
  have hunary (op : UnaryOp) : Points good (do
      let operand ← deeper
      node (sign.cover operand.span) [operand] (.unary · op operand.expr)) Measured.place :=
    .bind hdeeper fun operand hoperand =>
      points_node (good_cover hsign (List.forall_mem_singleton.1 hoperand)) fun _ => rfl
  split
  · exact hunary .not
  · refine .andThen points_accept fun minus => ?_
    split
    · refine .bind points_leastIntLiteral? fun least hleast => ?_
      split
      · next digits => exact points_literal (good_cover hsign (hleast digits.start (by simp)))
      · exact hunary .negate
    · exact points_postfixed (points_binary hdeeper loosest)

theorem points_operand : ∀ depth, Points good (operand depth) Measured.place
  | 0 => points_fail
  | depth + 1 => points_signed (points_operand depth)

theorem points_expression : Points good expression fun _ => [] :=
  .andThen (points_binary (points_operand maxNesting) loosest).forget fun _ => .done

theorem points_completeExpression : Points good completeExpression fun _ => [] :=
  .andThen points_ensureNotEmpty fun _ => .andThen points_expression fun _ =>
    .andThen points_expectEnd fun _ => .done

theorem points_typeOver {deeper : Reader TypeExpr} (hdeeper : Points good deeper fun _ => []) :
    Points good (typeOver deeper) fun _ => [] := by
  refine .andThen points_expectIdent.forget fun ident => ?_
  dsimp only
  split
  · refine .andThen points_accept fun less => ?_
    split
    · exact .andThen hdeeper fun element => .andThen points_expect.forget fun _ => .done
    · exact .done
  · exact .done

theorem points_typeAt : ∀ depth, Points good (typeAt depth) fun _ => []
  | 0 => points_typeOver points_fail
  | depth + 1 => points_typeOver (points_typeAt depth)

-- The readers of the code inside tags.

theorem points_nextIdent? : Points good nextIdent? fun _ => [] := by
  refine .andThen points_next? fun t => ?_
  split <;> exact .done

theorem points_fail_bind {α β : Type} {defect : Defect} {f : α → Reader β}
    {places : β → List Nat} : Points good (fail defect >>= f) places := by
  have hfail : Points good (fail defect) fun _ : α => [] := points_fail
  exact fun c hc => hfail c hc

theorem points_paramDecl (span : Span) : Points good (paramDecl span) fun _ => [] := by
  refine .andThen points_nextIdent? fun first => ?_
  have hend (decl : ParamDecl) : Points good (do
      if (← next?).isSome then fail .invalidParam
      return decl) fun _ => [] := by
    refine .andThen points_next? fun t => ?_
    dsimp only
    split
    · exact points_fail_bind
    · exact .done
  dsimp only
  split
  · exact points_fail_bind
  · refine .andThen (points_typeAt maxNesting) fun type => .andThen points_nextIdent? fun name => ?_
    split
    · exact points_fail
    · refine .andThen points_skip fun _ => .andThen points_accept fun assign => ?_
      split
      · refine .andThen points_ensureNotEmpty fun _ => ?_
        exact .andThen points_expression.map fun default => hend _
      · exact .andThen .done fun default => hend _

theorem points_loopName : Points good loopName fun _ => [] := by
  refine .andThen points_nextIdent? fun name => ?_
  split
  · split
    · exact points_fail
    · exact .andThen points_here.forget fun span => .andThen points_skip fun _ =>
        .andThen points_freshId fun id => .done
  · exact points_fail

theorem points_loopHeader : Points good loopHeader fun _ => [] := by
  refine .andThen points_loopName fun element => .andThen points_accept fun comma => ?_
  -- What follows the names is read alike whether there is an index or not.
  have hrest (index : Option Binding) : Points good (do
      if (← nextIdent?) = some "in" then
        skip
        let iterable ← completeExpression
        return (element, index, iterable)
      else fail .invalidForHeader) fun _ => [] := by
    refine .andThen points_nextIdent? fun name => ?_
    split
    · exact .andThen points_skip fun _ => .andThen points_completeExpression fun _ => .done
    · exact points_fail
  dsimp only
  split
  · exact .andThen points_loopName.map hrest
  · exact .andThen .done hrest

theorem points_argumentName? : Points good argumentName? fun _ => [] := by
  refine .andThen points_get fun c => ?_
  split
  · exact .andThen points_skip fun _ => .andThen points_skip fun _ => .done
  · exact .done

theorem points_arguments : ∀ fuel, Points good (arguments fuel) fun _ => []
  | 0 => .done
  | fuel + 1 => by
    refine .andThen points_argumentName? fun name => .andThen points_ensureNotEmpty fun _ => ?_
    refine .andThen points_expression fun value => .andThen points_accept fun comma => ?_
    split
    · exact .andThen (points_arguments fuel) fun _ => .done
    · exact .done

theorem points_inclusionArgs : Points good inclusionArgs fun _ => [] := by
  refine .andThen points_next? fun t => ?_
  split
  · exact .done
  · refine .andThen points_get fun c => .andThen (points_arguments _) fun args => ?_
    exact .andThen points_expectEnd fun _ => .done

-- Code that cannot be cut into tokens, and the tokens of code that can.

theorem boundary_of_textLiteral {quote : Char} {head pos : Nat} {cs : List Char} {fault : Fault}
    (h : textLiteral quote head pos cs = .error fault) :
    fault.offset = head ∨ Boundary pos cs fault.offset := by
  fun_induction textLiteral quote head pos cs with
  | case1 => exact .inl (Except.error.inj h ▸ rfl)
  | case2 => cases h
  | case3 => exact .inl (Except.error.inj h ▸ rfl)
  | case4 => exact .inr (Except.error.inj h ▸ boundary_start _ _)
  | case5 pos e cs u he _ ih =>
    refine (ih (eq_error_of_map h)).imp_right fun hrest => ?_
    exact Boundary.cons hrest.cons
  | case6 pos c cs hc hslash ih =>
    refine (ih (eq_error_of_map h)).imp_right fun hrest => ?_
    exact hrest.cons

theorem boundary_of_lexeme {pos : Nat} {c : Char} {cs : List Char} {fault : Fault}
    (h : lexeme pos c cs = .error fault) : Boundary pos (c :: cs) fault.offset := by
  have hstart {defect : Defect} (hfault : (⟨defect, pos⟩ : Fault) = fault) :
      Boundary pos (c :: cs) fault.offset := hfault ▸ boundary_start _ _
  unfold lexeme at h
  split at h
  · cases h
  split at h
  · simp only [numberLiteral] at h
    split at h
    · exact hstart (Except.error.inj h)
    split at h
    · split at h
      · cases h
      · exact hstart (Except.error.inj h)
    · cases h
  split at h
  · next hquote =>
    rcases boundary_of_textLiteral (eq_error_of_map h) with hhead | hrest
    · rw [hhead]
      exact boundary_start _ _
    · have hsize : c.utf8Size = 1 := by rcases hquote with rfl | rfl <;> rfl
      exact Boundary.cons (by rwa [hsize])
  split at h
  · cases h
  · exact hstart (Except.error.inj h)

theorem boundary_of_tokens_error {pos : Nat} {cs : List Char} {fault : Fault}
    (h : tokens pos cs = .error fault) : Boundary pos cs fault.offset := by
  fun_induction tokens pos cs with
  | case1 => cases h
  | case2 pos c rest hc ih =>
    exact Boundary.cons (by rw [utf8Size_of_blank hc]; exact ih h)
  | case3 pos c rest hc fault' hlexeme =>
    obtain rfl := Except.error.inj h
    exact boundary_of_lexeme hlexeme
  | case4 pos c rest hc l hlexeme _ ih =>
    obtain ⟨word, hcode, hstop, -⟩ := spells_of_lexeme hlexeme
    have hrest := ih (eq_error_of_map h)
    rw [hstop] at hrest
    rw [hcode]
    exact hrest.behind

theorem boundary_of_mem_tokens {pos : Nat} {cs : List Char} {ts : List Placed}
    (h : tokens pos cs = .ok ts) : ∀ t ∈ ts, Boundary pos cs t.span.start := by
  fun_induction tokens pos cs generalizing ts with
  | case1 =>
    obtain rfl := Except.ok.inj h
    simp
  | case2 pos c rest hc ih =>
    intro t ht
    exact Boundary.cons (by rw [utf8Size_of_blank hc]; exact ih h t ht)
  | case3 => cases h
  | case4 pos c rest hc l hlexeme _ ih =>
    obtain ⟨ts, hts, rfl⟩ := exists_of_map_eq_ok h
    obtain ⟨word, hcode, hstop, -⟩ := spells_of_lexeme hlexeme
    refine List.forall_mem_cons.2 ⟨boundary_start _ _, fun t ht => ?_⟩
    have hrest := ih hts t ht
    rw [hstop] at hrest
    rw [hcode]
    exact hrest.behind

-- What is read from a slice is read from its tokens, with the numbers from the given one on.
theorem exists_run_of_runOn {α : Type} {reader : Reader α} {slice : Slice} {n m : Nat} {a : α}
    (h : reader.runOn slice n = .ok (a, m)) : ∃ ts c, tokens slice.start slice.chars = .ok ts ∧
      reader.run ⟨ts, slice.stop, n⟩ = .ok (a, c) ∧ c.nextId = m := by
  unfold runOn at h
  cases htokens : tokens slice.start slice.chars with
  | error fault =>
    rw [htokens] at h
    cases h
  | ok ts =>
    rw [htokens] at h
    have hsteps : (reader.run ⟨ts, slice.stop, n⟩).map (fun p => (p.1, p.2.nextId)) =
        .ok (a, m) := h
    obtain ⟨⟨b, c⟩, hrun, hpair⟩ := exists_of_map_eq_ok hsteps
    obtain ⟨rfl, rfl⟩ := Prod.mk.inj hpair
    exact ⟨ts, c, rfl, hrun, rfl⟩

-- Every fault in code is reported at a boundary of the code.
theorem boundary_of_runOn {α : Type} {reader : Reader α} {slice : Slice} {n : Nat} {fault : Fault}
    (hreader : ∀ good, Points good reader fun _ => [])
    (h : reader.runOn slice n = .error fault) :
    Boundary slice.start slice.chars fault.offset := by
  unfold runOn at h
  cases htokens : tokens slice.start slice.chars with
  | error fault' =>
    rw [htokens] at h
    obtain rfl : fault' = fault := Except.error.inj h
    exact boundary_of_tokens_error htokens
  | ok ts =>
    rw [htokens] at h
    have hplaced : (Cursor.mk ts slice.stop n).Placed (Boundary slice.start slice.chars) :=
      ⟨boundary_of_mem_tokens htokens, boundary_stop _ _⟩
    have hpoints := hreader _ _ hplaced
    have hsteps : (reader.run ⟨ts, slice.stop, n⟩).bind (fun p => .ok (p.1, p.2.nextId)) =
        .error fault := h
    cases hrun : reader.run ⟨ts, slice.stop, n⟩ with
    | error fault' =>
      rw [hrun] at hsteps hpoints
      obtain rfl : fault' = fault := Except.error.inj hsteps
      exact hpoints
    | ok p =>
      rw [hrun] at hsteps
      cases hsteps

end Stencil.Code
