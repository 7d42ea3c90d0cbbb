/-!
Actions that change a state and may fail. What such an action did up to a failure stays done, or is
lost with the state.
-/

namespace Stencil

theorem run_bind {ε σ α β : Type} (x : ExceptT ε (StateM σ) α) (f : α → ExceptT ε (StateM σ) β)
    (s : σ) :
    (x >>= f).run s =
      match x.run s with
      | (.ok a, s) => (f a).run s
      | (.error err, s) => (.error err, s) := by
  simp only [ExceptT.run_bind]
  change StateT.bind x.run _ s = _
  unfold StateT.bind
  rcases x.run s with ⟨_ | _, _⟩ <;> rfl

section

variable {ε σ α β : Type} {x : StateT σ (Except ε) α} {f : α → StateT σ (Except ε) β} {s s' : σ}

theorem run_bind_of_ok {a : α} (h : x.run s = .ok (a, s')) : (x >>= f).run s = (f a).run s' := by
  rw [StateT.run_bind, h]
  rfl

theorem run_bind_of_error {e : ε} (h : x.run s = .error e) : (x >>= f).run s = .error e := by
  rw [StateT.run_bind, h]
  rfl

theorem exists_of_run_bind {r : β × σ} (h : (x >>= f).run s = .ok r) :
    ∃ a s', x.run s = .ok (a, s') ∧ (f a).run s' = .ok r := by
  cases hx : x.run s with
  | error e =>
    rw [run_bind_of_error hx] at h
    cases h
  | ok p => exact ⟨p.1, p.2, rfl, by rwa [run_bind_of_ok hx] at h⟩

-- Whatever an action gives, it is such.
def Yields (x : StateT σ (Except ε) α) (post : α → Prop) : Prop :=
  ∀ s a s', x.run s = .ok (a, s') → post a

namespace Yields

variable {post : α → Prop} {post' : β → Prop}

theorem trivial (x : StateT σ (Except ε) α) : Yields x fun _ => True := fun _ _ _ _ => True.intro

theorem pure {a : α} (h : post a) : Yields (Pure.pure a : StateT σ (Except ε) α) post := by
  intro s b s' hrun
  obtain ⟨rfl, -⟩ := Prod.mk.inj (Except.ok.inj hrun)
  exact h

theorem throw {e : ε} : Yields (MonadExcept.throw e : StateT σ (Except ε) α) post := by
  intro s b s' hrun
  cases hrun

theorem bind (hx : Yields x post) (hf : ∀ a, post a → Yields (f a) post') :
    Yields (x >>= f) post' := by
  intro s b s' hrun
  obtain ⟨a, between, hfirst, hrest⟩ := exists_of_run_bind hrun
  exact hf a (hx s a between hfirst) between b s' hrest

-- Where it does not matter what comes first.
theorem behind (hf : ∀ a, Yields (f a) post') : Yields (x >>= f) post' :=
  (trivial x).bind fun a _ => hf a

end Yields

end

theorem eq_error_of_map {ε α β : Type} {f : α → β} {r : Except ε α} {e : ε}
    (h : r.map f = .error e) : r = .error e := by
  cases r with
  | error e' => exact congrArg Except.error (Except.error.inj h)
  | ok a => cases h

theorem eq_ok_of_mapError {ε ε' α : Type} {f : ε → ε'} {r : Except ε α} {a : α}
    (h : r.mapError f = .ok a) : r = .ok a := by
  cases r with
  | error e => cases h
  | ok b => exact congrArg Except.ok (Except.ok.inj h)

theorem exists_of_mapError {ε ε' α : Type} {f : ε → ε'} {r : Except ε α} {e' : ε'}
    (h : r.mapError f = .error e') : ∃ e, r = .error e ∧ f e = e' := by
  cases r with
  | error e => exact ⟨e, rfl, Except.error.inj h⟩
  | ok a => cases h

theorem eq_ok_of_toOption {ε α : Type} {r : Except ε α} {a : α} (h : r.toOption = some a) :
    r = .ok a := by
  cases r with
  | error e => cases h
  | ok b => exact congrArg Except.ok (Option.some.inj h)

end Stencil
