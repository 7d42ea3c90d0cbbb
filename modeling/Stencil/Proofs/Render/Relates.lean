import Stencil.Proofs.Effects
import Stencil.Render.Run

/-!
Runs side by side. Two runs that start from related effects end alike: both with values, or both
with the same error, and again with related effects. The two may ask models of different records.
-/

namespace Stencil

variable {ρ ρ' ω ω' : Type} {α β γ δ : Type}

namespace Run

-- What a run does, from the effects before it.
def exec (x : Run ρ ω α) (e : Effects ρ ω) : Except RenderError α × Effects ρ ω := x.run e

theorem ext_exec {x y : Run ρ ω α} (h : ∀ e, exec x e = exec y e) : x = y := funext h

@[simp] theorem exec_pure (a : α) (e : Effects ρ ω) : exec (pure a) e = (.ok a, e) := rfl

@[simp] theorem exec_throw (err : RenderError) (e : Effects ρ ω) :
    exec (throw err : Run ρ ω α) e = (.error err, e) := rfl

theorem exec_bind (x : Run ρ ω α) (f : α → Run ρ ω β) (e : Effects ρ ω) :
    exec (x >>= f) e =
      match exec x e with
      | (.ok a, e) => exec (f a) e
      | (.error err, e) => (.error err, e) := by
  simp only [exec, run_bind]
  rcases x.run e with ⟨_ | _, _⟩ <;> rfl

@[simp] theorem exec_given (r : Except RenderError α) (e : Effects ρ ω) :
    exec (given r) e = (r, e) := rfl

theorem exec_emit (p : Piece) (e : Effects ρ ω) :
    exec (emit p) e = (.ok (), { e with pieces := e.pieces.push p }) := rfl

theorem exec_ofEval (x : Eval ρ α) (e : Effects ρ ω) :
    exec (ofEval x) e = ((x.run e.requests).1, { e with requests := (x.run e.requests).2 }) := rfl

theorem exec_ofLink (x : ω → Except RenderError α × ω) (e : Effects ρ ω) :
    exec (ofLink x) e = ((x e.links).1, { e with links := (x e.links).2 }) := rfl

theorem exec_adapt (mark : RenderError → RenderError) (x : Run ρ ω α) (e : Effects ρ ω) :
    exec (x.adapt mark) e = ((exec x e).1.mapError mark, (exec x e).2) := rfl

theorem ofEval_pure (a : α) : (ofEval (pure a) : Run ρ ω α) = pure a := rfl

theorem ofEval_given (r : Except RenderError α) : (ofEval (Eval.given r) : Run ρ ω α) = given r :=
  rfl

theorem ofEval_bind (x : Eval ρ α) (f : α → Eval ρ β) :
    (ofEval (x >>= f) : Run ρ ω β) = ofEval x >>= fun a => ofEval (f a) := by
  refine ext_exec fun e => ?_
  rw [exec_bind]
  simp only [exec_ofEval, run_bind]
  rcases x.run e.requests with ⟨_ | _, _⟩ <;> rfl

-- The ends of two runs.
inductive Ends (E : Effects ρ ω → Effects ρ' ω' → Prop)
    (Q : α → β → Effects ρ ω → Effects ρ' ω' → Prop) :
    Except RenderError α × Effects ρ ω → Except RenderError β × Effects ρ' ω' → Prop
  | ok {a : α} {b : β} {e : Effects ρ ω} {e' : Effects ρ' ω'} (related : Q a b e e') :
    Ends E Q (.ok a, e) (.ok b, e')
  | error {err : RenderError} {e : Effects ρ ω} {e' : Effects ρ' ω'} (related : E e e') :
    Ends E Q (.error err, e) (.error err, e')

-- `P` is how the effects are related before, `Q` how values and effects are after, and `E` how the
-- effects are where both runs fail.
def Relates (P E : Effects ρ ω → Effects ρ' ω' → Prop)
    (Q : α → β → Effects ρ ω → Effects ρ' ω' → Prop) (x : Run ρ ω α) (y : Run ρ' ω' β) : Prop :=
  ∀ e e', P e e' → Ends E Q (exec x e) (exec y e')

-- Values related, and effects as they were.
def With (S : α → β → Prop) (R : Effects ρ ω → Effects ρ' ω' → Prop) (a : α) (b : β)
    (e : Effects ρ ω) (e' : Effects ρ' ω') : Prop :=
  S a b ∧ R e e'

namespace Relates

variable {P P' E : Effects ρ ω → Effects ρ' ω' → Prop}
  {Q Q' : α → β → Effects ρ ω → Effects ρ' ω' → Prop}
  {S : γ → δ → Effects ρ ω → Effects ρ' ω' → Prop}
  {x : Run ρ ω α} {y : Run ρ' ω' β}

theorem pure {a : α} {b : β} (h : ∀ e e', P e e' → Q a b e e') :
    Relates P E Q (Pure.pure a) (Pure.pure b) :=
  fun e e' he => .ok (h e e' he)

theorem throw {err : RenderError} (h : ∀ e e', P e e' → E e e') :
    Relates P E Q (throw err : Run ρ ω α) (MonadExcept.throw err : Run ρ' ω' β) :=
  fun e e' he => .error (h e e' he)

theorem bind {f : α → Run ρ ω γ} {g : β → Run ρ' ω' δ} (hxy : Relates P E Q x y)
    (hfg : ∀ a b, Relates (Q a b) E S (f a) (g b)) : Relates P E S (x >>= f) (y >>= g) := by
  intro e e' he
  rw [exec_bind, exec_bind]
  generalize hx : exec x e = r, hy : exec y e' = r'
  have hends : Ends E Q r r' := by
    simpa [hx, hy] using hxy e e' he
  cases hends with
  | ok hQ => exact hfg _ _ _ _ hQ
  | error hE => exact .error hE

-- One side goes ahead.
theorem bind_left {Q : α → Unit → Effects ρ ω → Effects ρ' ω' → Prop}
    {S : γ → β → Effects ρ ω → Effects ρ' ω' → Prop} {f : α → Run ρ ω γ}
    (hx : Relates P E Q x (Pure.pure ())) (hfy : ∀ a, Relates (Q a ()) E S (f a) y) :
    Relates P E S (x >>= f) y := by
  have hbind := bind (g := fun _ => y) hx fun a _ => hfy a
  simpa using hbind

theorem weaken {E' : Effects ρ ω → Effects ρ' ω' → Prop} (h : Relates P E Q x y)
    (hP : ∀ e e', P' e e' → P e e') (hE : ∀ e e', E e e' → E' e e')
    (hQ : ∀ a b e e', Q a b e e' → Q' a b e e') : Relates P' E' Q' x y := by
  intro e e' he
  generalize hx : exec x e = r, hy : exec y e' = r'
  have hends : Ends E Q r r' := by
    simpa [hx, hy] using h e e' (hP e e' he)
  cases hends with
  | ok hends => exact .ok (hQ _ _ _ _ hends)
  | error hends => exact .error (hE _ _ hends)

-- One side writes first.
theorem emit_right {p : Piece} (h : Relates P E Q x y)
    (hP : ∀ e e', P' e e' → P e { e' with pieces := e'.pieces.push p }) :
    Relates P' E Q x (do Run.emit p; y) := by
  intro e e' he
  rw [exec_bind, exec_emit]
  exact h _ _ (hP e e' he)

theorem adapt (mark : RenderError → RenderError) (h : Relates P E Q x y) :
    Relates P E Q (x.adapt mark) (y.adapt mark) := by
  intro e e' he
  rw [exec_adapt, exec_adapt]
  generalize hx : exec x e = r, hy : exec y e' = r'
  have hends : Ends E Q r r' := by
    simpa [hx, hy] using h e e' he
  cases hends with
  | ok hQ => exact .ok hQ
  | error hE => exact .error hE

-- A step on the links alone, where both sides have the same.
theorem ofLink {R : Effects ρ ω → Effects ρ' ω → Prop} {T : γ → γ → Prop} (hT : ∀ c, T c c)
    (hlinks : ∀ {e e'}, R e e' → e.links = e'.links)
    (hset : ∀ {e e'} w, R e e' → R { e with links := w } { e' with links := w })
    (x : ω → Except RenderError γ × ω) :
    Relates R R (With T R) (Run.ofLink x) (Run.ofLink x) := by
  intro e e' he
  rw [exec_ofLink, exec_ofLink, ← hlinks he]
  cases (x e.links).1 with
  | ok c => exact .ok ⟨hT c, hset _ he⟩
  | error err => exact .error (hset _ he)

-- What is known of values alone can be taken out.
theorem of_values {p : Prop} (h : p → Relates P E Q x y) :
    Relates (fun e e' => p ∧ P e e') E Q x y :=
  fun e e' he => h he.1 e e' he.2

end Relates

-- Runs that end with the same value, or the same error, and keep a relation between effects.
def Agrees (R : Effects ρ ω → Effects ρ' ω' → Prop) (x : Run ρ ω α) (y : Run ρ' ω' α) : Prop :=
  Relates R R (With Eq R) x y

namespace Agrees

variable {R : Effects ρ ω → Effects ρ' ω' → Prop} {x : Run ρ ω α} {y : Run ρ' ω' α}

theorem pure (a : α) : Agrees R (Pure.pure a) (Pure.pure a) :=
  Relates.pure fun _ _ h => ⟨rfl, h⟩

theorem throw (err : RenderError) :
    Agrees R (throw err : Run ρ ω α) (MonadExcept.throw err : Run ρ' ω' α) :=
  Relates.throw fun _ _ h => h

theorem given (r : Except RenderError α) : Agrees R (Run.given r) (Run.given r) := by
  cases r with
  | ok a => exact pure a
  | error err => exact throw err

theorem bind {f : α → Run ρ ω β} {g : α → Run ρ' ω' β} (hxy : Agrees R x y)
    (hfg : ∀ a, Agrees R (f a) (g a)) : Agrees R (x >>= f) (y >>= g) := by
  refine Relates.bind hxy fun a b => .of_values ?_
  rintro rfl
  exact hfg a

-- What follows may be related in any way.
theorem bind_relates {Q : β → γ → Effects ρ ω → Effects ρ' ω' → Prop} {f : α → Run ρ ω β}
    {g : α → Run ρ' ω' γ} (hxy : Agrees R x y) (hfg : ∀ a, Relates R R Q (f a) (g a)) :
    Relates R R Q (x >>= f) (y >>= g) := by
  refine Relates.bind hxy fun a b => .of_values ?_
  rintro rfl
  exact hfg a

-- One side goes on to give a value of its own.
theorem then_pure {S : β → α → Prop} {f : α → β} (hxy : Agrees R x y) (hS : ∀ a, S (f a) a) :
    Relates R R (With S R) (x >>= fun a => Pure.pure (f a)) y := by
  have hbind := hxy.bind_relates (f := fun a => Pure.pure (f a)) (g := fun a => Pure.pure a)
    (Q := With S R) fun a => Relates.pure fun _ _ h => ⟨hS a, h⟩
  simpa using hbind

theorem adapt (mark : RenderError → RenderError) (h : Agrees R x y) :
    Agrees R (x.adapt mark) (y.adapt mark) := Relates.adapt mark h

end Agrees

-- Loops over corresponding items, whose steps keep a relation between what they hand on.
theorem Relates.forEach_map {σ τ : Type} {R : Effects ρ ω → Effects ρ' ω' → Prop}
    {S : σ → τ → Prop} {f : σ → Nat → Value ρ → Run ρ ω σ} {g : τ → Nat → Value ρ' → Run ρ' ω' τ}
    {h : Value ρ → Value ρ'} {items : List (Value ρ)} {i : Nat} {s : σ} {t : τ}
    (hfg : ∀ s t i, ∀ v ∈ items, S s t → Relates R R (With S R) (f s i v) (g t i (h v)))
    (hst : S s t) :
    Relates R R (With S R) (Run.forEach f s i items) (Run.forEach g t i (items.map h)) := by
  induction items generalizing s t i with
  | nil => exact .pure fun _ _ h => ⟨hst, h⟩
  | cons v items ih =>
      refine .bind (hfg s t i v (by simp) hst) fun s' t' => .of_values fun hst' => ?_
      exact ih (fun s t i w hw => hfg s t i w (by simp [hw])) hst'

-- Loops over the same items.
theorem Relates.forEach {σ τ : Type} {R : Effects ρ ω → Effects ρ ω' → Prop} {S : σ → τ → Prop}
    {f : σ → Nat → Value ρ → Run ρ ω σ} {g : τ → Nat → Value ρ → Run ρ ω' τ}
    {items : List (Value ρ)} {i : Nat} {s : σ} {t : τ}
    (hfg : ∀ s t i, ∀ v ∈ items, S s t → Relates R R (With S R) (f s i v) (g t i v))
    (hst : S s t) : Relates R R (With S R) (Run.forEach f s i items) (Run.forEach g t i items) := by
  have hmap := Relates.forEach_map (h := id) (i := i) hfg hst
  rwa [List.map_id] at hmap

end Run

end Stencil
