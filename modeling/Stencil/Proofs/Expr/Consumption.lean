import Stencil.Expr.Parser
import Stencil.Proofs.Effects

/-!
Which tokens a reader takes off the front: rules to put readers together, and the readers of single
tokens and nodes, each with the tokens that it takes.
-/

namespace Stencil

namespace Code

-- Whatever the reader gives, it fits the tokens that the reader has taken off the front.
def Consumes {α : Type} (reader : Reader α) (ts : List Placed) (post : α → List Placed → Prop) :
    Prop :=
  ∀ stop n a c, reader.run ⟨ts, stop, n⟩ = .ok (a, c) → ∃ read, ts = read ++ c.tokens ∧ post a read

namespace Consumes

variable {α β : Type} {x : Reader α} {f : α → Reader β} {ts : List Placed}
  {mid post : α → List Placed → Prop} {post' : β → List Placed → Prop}

theorem pure {a : α} (h : post a []) : Consumes (Pure.pure a) ts post := by
  intro stop n a' c hrun
  obtain ⟨rfl, rfl⟩ := Prod.mk.inj (Except.ok.inj hrun)
  exact ⟨[], rfl, h⟩

theorem throw {fault : Fault} : Consumes (MonadExcept.throw fault) ts post := by
  intro stop n a c hrun
  cases hrun

theorem bindOn (hx : Consumes x ts mid) (hf : ∀ a us rest, ts = us ++ rest → mid a us →
    Consumes (f a) rest fun b vs => post' b (us ++ vs)) : Consumes (x >>= f) ts post' := by
  intro stop n b c hrun
  obtain ⟨a, c₁, hfirst, hsecond⟩ := exists_of_run_bind hrun
  obtain ⟨us, hus, hmid⟩ := hx stop n a c₁ hfirst
  obtain ⟨vs, hvs, hpost⟩ := hf a us c₁.tokens hus hmid _ _ b c hsecond
  exact ⟨us ++ vs, by rw [hus, List.append_assoc, ← hvs], hpost⟩

theorem bind (hx : Consumes x ts mid)
    (hf : ∀ a us rest, mid a us → Consumes (f a) rest fun b vs => post' b (us ++ vs)) :
    Consumes (x >>= f) ts post' := hx.bindOn fun a us rest _ => hf a us rest

-- The first reader takes nothing.
theorem look {info : α → Prop} (hx : Consumes x ts fun a us => us = [] ∧ info a)
    (hf : ∀ a, info a → Consumes (f a) ts post') : Consumes (x >>= f) ts post' := by
  refine hx.bindOn fun a us rest hts ⟨hus, hinfo⟩ => ?_
  subst hus hts
  exact hf a hinfo

theorem weaken (h : Consumes x ts mid) (himp : ∀ a us, mid a us → post a us) :
    Consumes x ts post := by
  intro stop n a c hrun
  obtain ⟨us, hus, hmid⟩ := h stop n a c hrun
  exact ⟨us, hus, himp a us hmid⟩

end Consumes

-- Readers of parts that are no expressions.
namespace Reader

variable {α : Type} {ts : List Placed} {t : Placed} {s : Symbol} {post : α → List Placed → Prop}

theorem consumes_next? : Consumes next? ts fun token us =>
    us = [] ∧ token = ts.head?.map (·.token) := by
  intro stop n token c hrun
  obtain ⟨rfl, rfl⟩ := Prod.mk.inj (Except.ok.inj hrun)
  exact ⟨[], rfl, rfl, rfl⟩

-- The place of the next token, if there is one.
theorem consumes_here : Consumes here ts fun span us =>
    us = [] ∧ ∀ t, ts.head? = some t → span = t.span := by
  intro stop n span c hrun
  obtain ⟨rfl, rfl⟩ := Prod.mk.inj (Except.ok.inj hrun)
  refine ⟨[], rfl, rfl, fun t ht => ?_⟩
  rw [ht]
  rfl

theorem consumes_skip (h : ts.head? = some t) : Consumes skip ts fun _ us => us = [t] := by
  intro stop n a c hrun
  obtain ⟨rfl, rfl⟩ := Prod.mk.inj (Except.ok.inj hrun)
  obtain ⟨rest, rfl⟩ := List.head?_eq_some_iff.mp h
  exact ⟨[t], rfl, rfl⟩

theorem consumes_freshId : Consumes freshId ts fun _ us => us = [] ∧ True := by
  intro stop n id c hrun
  obtain ⟨rfl, rfl⟩ := Prod.mk.inj (Except.ok.inj hrun)
  exact ⟨[], rfl, rfl, trivial⟩

theorem consumes_fail {defect : Defect} : Consumes (fail defect) ts post :=
  .look consumes_here fun _ _ => .throw

theorem consumes_fail_bind {β : Type} {defect : Defect} {f : α → Reader β}
    {post : β → List Placed → Prop} : Consumes (fail defect >>= f) ts post := by
  have hfail : Consumes (fail defect) ts fun (_ : α) _ => False := consumes_fail
  exact hfail.bind fun _ _ _ h => h.elim

theorem consumes_unexpected {expected : String} : Consumes (unexpected expected) ts post :=
  .look consumes_next? fun _ _ => consumes_fail

-- The next token as the reader of it found it.
theorem exists_head_of_next? {token : Token} (h : some token = ts.head?.map (·.token)) :
    ∃ span, ts.head? = some ⟨token, span⟩ := by
  obtain ⟨⟨_, span⟩, ht, rfl⟩ := Option.map_eq_some_iff.mp h.symm
  exact ⟨span, ht⟩

theorem consumes_atSymbol : Consumes (atSymbol s) ts fun found us =>
    us = [] ∧ (found = true → ∃ span, ts.head? = some ⟨.symbol s, span⟩) := by
  refine .look consumes_next? fun token htoken => ?_
  split
  · refine .pure ⟨rfl, fun hsame => ?_⟩
    obtain rfl := beq_iff_eq.mp hsame
    exact exists_head_of_next? htoken
  · exact .pure ⟨rfl, fun h => nomatch h⟩

theorem consumes_accept : Consumes (accept s) ts fun found us =>
    if found then ∃ span, ts.head? = some ⟨.symbol s, span⟩ ∧ us = [⟨.symbol s, span⟩]
    else us = [] := by
  refine .look consumes_atSymbol fun found hfound => ?_
  cases found with
  | false => exact .pure rfl
  | true =>
    obtain ⟨span, hspan⟩ := hfound rfl
    refine .bind (consumes_skip hspan) fun _ us _ hus => ?_
    subst hus
    exact .pure ⟨span, hspan, rfl⟩

theorem consumes_expect : Consumes (expect s) ts fun span us => us = [⟨.symbol s, span⟩] := by
  refine .look consumes_atSymbol fun found hfound => ?_
  split
  · next hsome =>
    obtain ⟨span, ht⟩ := hfound hsome
    refine .look consumes_here fun _ hspan => .bind (consumes_skip ht) fun _ us _ hus => ?_
    subst hus
    exact .pure (by rw [hspan _ ht]; rfl)
  · exact consumes_unexpected

theorem consumes_expectIdent {what : String} : Consumes (expectIdent what) ts fun ident us =>
    us = [⟨.ident ident.1, ident.2⟩] := by
  refine .look consumes_next? fun token htoken => ?_
  split
  · obtain ⟨span, ht⟩ := exists_head_of_next? htoken
    refine .look consumes_here fun _ hspan => .bind (consumes_skip ht) fun _ us _ hus => ?_
    subst hus
    exact .pure (by rw [hspan _ ht]; rfl)
  · exact consumes_unexpected

end Reader

open Reader

variable {ts : List Placed}

theorem consumes_tokenCount : Consumes tokenCount ts fun _ us => us = [] ∧ True := by
  intro stop n count c hrun
  obtain ⟨rfl, rfl⟩ := Prod.mk.inj (Except.ok.inj hrun)
  exact ⟨[], rfl, rfl, trivial⟩

theorem consumes_node {span : Span} {children : List Measured} {make : Mark → Expr} :
    Consumes (node span children make) ts fun m us => us = [] ∧ (∃ id, m.expr = make ⟨id, span⟩) ∧
      m.height = tallest children + 1 ∧ m.height ≤ maxNesting := by
  simp only [node]
  split
  · exact .throw
  · next hlimit =>
    exact .look consumes_freshId fun id _ => .pure ⟨rfl, ⟨id, rfl⟩, rfl, Nat.le_of_not_lt hlimit⟩

-- The token that may be the least integer is the next one.
theorem consumes_leastIntLiteral? : Consumes leastIntLiteral? ts fun found us =>
    us = [] ∧ ∀ span, found = some span →
      ∃ digits, ts.head? = some ⟨.int Int64.minValue.toInt.natAbs digits, span⟩ := by
  intro stop n found c hrun
  have hget : (get : Reader Cursor).run ⟨ts, stop, n⟩ = .ok (⟨ts, stop, n⟩, ⟨ts, stop, n⟩) := rfl
  rw [leastIntLiteral?, run_bind_of_ok hget] at hrun
  split at hrun
  · next m digits span following htokens =>
    have hhead : ts.head? = some ⟨.int m digits, span⟩ := by
      have htokens : ts = ⟨.int m digits, span⟩ :: following := htokens
      rw [htokens, List.head?_cons]
    split at hrun
    · obtain ⟨rfl, rfl⟩ := Prod.mk.inj (Except.ok.inj hrun)
      exact ⟨[], rfl, rfl, fun _ h => nomatch h⟩
    · split at hrun
      · next hleast =>
        obtain ⟨rfl, rfl⟩ := Prod.mk.inj (Except.ok.inj hrun)
        refine ⟨[], rfl, rfl, fun _ h => ⟨digits, ?_⟩⟩
        rw [hhead, ← Option.some.inj h, ← hleast, Int.natAbs_neg, Int.natAbs_natCast]
      · obtain ⟨rfl, rfl⟩ := Prod.mk.inj (Except.ok.inj hrun)
        exact ⟨[], rfl, rfl, fun _ h => nomatch h⟩
  · obtain ⟨rfl, rfl⟩ := Prod.mk.inj (Except.ok.inj hrun)
    exact ⟨[], rfl, rfl, fun _ h => nomatch h⟩

end Code

end Stencil
