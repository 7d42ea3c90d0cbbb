import Stencil.Proofs.Render.Nesting

/-!
Where in a run an error comes from: each is raised at one moment, and is known outside under the
names of the inclusions around that moment.
-/

namespace Stencil

open Run

variable {ρ κ ω : Type} [DecidableEq ρ]

-- The expression that an operation evaluates first.
def Op.subject? : Op → Option Formula
  | .escaped code | .raw code | .branch (.mk code _ :: _) _ | .loop code _ _ _ _ => some code
  | .literal _ | .branch [] _ | .inclusion _ _ _ => none

namespace Linker

variable (linker : Linker κ ω) (model : Model ρ)

-- The operation that comes next raises an error of its own: in an expression, with the value of
-- one, or in finding and starting the target of an inclusion.
inductive Raises (m : Moment κ ρ ω) : RenderError → Prop
  | value {op : Op} {ops : List Op} {code : Formula} {err : RenderError}
    {requests : Array (Request ρ)} (first : m.ops = op :: ops) (subject : op.subject? = some code)
    (value : (code.eval model m.frame).run m.effects.requests = (.error err, requests)) :
    Raises m err
  | shown {op : Op} {ops : List Op} {code : Formula} {v : Value ρ} {requests : Array (Request ρ)}
    {err : RenderError} (first : m.ops = op :: ops) (subject : op = .escaped code ∨ op = .raw code)
    (value : (code.eval model m.frame).run m.effects.requests = (.ok v, requests))
    (shown : v.shown = .error err) : Raises m err
  | truth {test : Formula} {body : List Op} {arms : List OpArm} {otherwise ops : List Op}
    {v : Value ρ} {requests : Array (Request ρ)} {err : RenderError}
    (first : m.ops = .branch (.mk test body :: arms) otherwise :: ops)
    (value : (test.eval model m.frame).run m.effects.requests = (.ok v, requests))
    (truth : v.truth "condition" = .error err) : Raises m err
  | notIterable {iterable : Formula} {element : Nat} {index : Option Nat}
    {body otherwise ops : List Op} {v : Value ρ} {requests : Array (Request ρ)}
    (first : m.ops = .loop iterable element index body otherwise :: ops)
    (value : (iterable.eval model m.frame).run m.effects.requests = (.ok v, requests))
    (other : ∀ items, v ≠ .list items) : Raises m (.notIterable v.kind)
  | limit {site : Nat} {target : String} {args : List (Option Formula)} {ops : List Op}
    (first : m.ops = .inclusion site target args :: ops) (depth : m.depth = 0) :
    Raises m (.recursionLimit target)
  | link {site depth : Nat} {target : String} {args : List (Option Formula)} {ops : List Op}
    {err : RenderError} {links : ω} (first : m.ops = .inclusion site target args :: ops)
    (within : m.depth = depth + 1)
    (linked : linker.link m.self site target m.effects.links = (.error err, links)) : Raises m err
  | args {site depth : Nat} {target : String} {args : List (Option Formula)} {ops : List Op}
    {err : RenderError} {requests : Array (Request ρ)}
    (first : m.ops = .inclusion site target args :: ops) (within : m.depth = depth + 1)
    (value : (Formula.evalGiven model m.frame args).run m.effects.requests =
      (.error err, requests)) : Raises m err
  | bound {site depth : Nat} {target : String} {args : List (Option Formula)} {ops : List Op}
    {callee : κ} {links : ω} {given : List (Option (Value ρ))} {err : RenderError}
    (first : m.ops = .inclusion site target args :: ops) (within : m.depth = depth + 1)
    (linked : linker.link m.self site target m.effects.links = (.ok callee, links))
    (bound : bindArgs (linker.program callee).schema.params given = .error err) :
    Raises m (.inside target err)

variable {linker model} {m m' : Moment κ ρ ω} {err : RenderError}

omit [DecidableEq ρ] in
-- A loop that fails does so for one of the items, after some others.
theorem exists_item_of_fails {σ : Type} {f : σ → Nat → Value ρ → Run ρ ω σ} {s : σ} {i : Nat}
    {items : List (Value ρ)} {e : Effects ρ ω}
    (h : (exec (Run.forEach f s i items) e).1 = .error err) :
    ∃ before v after s' e', items = before ++ v :: after ∧
      exec (Run.forEach f s i before) e = (.ok s', e') ∧
      (exec (f s' (i + before.length) v) e').1 = .error err := by
  induction items generalizing s i e with
  | nil => cases h
  | cons v items ih =>
      rw [Run.forEach, exec_bind] at h
      cases hran : exec (f s i v) e with
      | mk r e' =>
          cases r with
          | error err' =>
              rw [hran] at h
              refine ⟨[], v, items, s, e, rfl, rfl, ?_⟩
              rwa [List.length_nil, Nat.add_zero, hran]
          | ok s' =>
              rw [hran] at h
              obtain ⟨before, w, after, s'', e'', rfl, hbefore, hfails⟩ := ih h
              refine ⟨v :: before, w, after, s'', e'', rfl, ?_, ?_⟩
              · rw [Run.forEach, exec_bind, hran]
                exact hbefore
              · rwa [List.length_cons, Nat.add_comm before.length 1, ← Nat.add_assoc]

-- A failure comes from the next operation itself, or from a moment that this leads to.
def FailsThere (linker : Linker κ ω) (model : Model ρ) (m : Moment κ ρ ω) (err : RenderError) :
    Prop :=
  linker.Raises model m err ∨
  (∃ m', linker.Leads model m m' ∧ m'.depth = m.depth ∧ linker.Fails model m' err) ∨
  ∃ target m' err', linker.Enters model m target m' ∧ linker.Fails model m' err' ∧
    err = .inside target err'

theorem raises_of_print (piece : String → Piece) {op : Op} {ops : List Op} {code : Formula}
    (hfirst : m.ops = op :: ops) (hop : op = .escaped code ∨ op = .raw code)
    (h : (exec (do
        let v ← Run.ofEval (code.eval model m.frame)
        Run.emit (piece (← Run.given v.shown))
        return m.frame) m.effects).1 = .error err) : linker.Raises model m err := by
  rw [Op.exec_print piece] at h
  cases hvalue : (code.eval model m.frame).run m.effects.requests with
  | mk r requests =>
      rw [hvalue] at h
      cases r with
      | error err' =>
          obtain rfl : err' = err := Except.error.inj h
          exact .value hfirst (by rcases hop with rfl | rfl <;> rfl) hvalue
      | ok v =>
          cases hshown : v.shown with
          | ok s => simp [hshown] at h
          | error err' =>
              simp only [hshown] at h
              obtain rfl : err' = err := Except.error.inj h
              exact .shown hfirst hop hvalue hshown

theorem failsThere_of_branch {arms : List OpArm} {otherwise ops : List Op}
    (hfirst : m.ops = .branch arms otherwise :: ops)
    (h : (exec ((Op.branch arms otherwise).run model (linker.openerAt model m) m.frame)
      m.effects).1 = .error err) : linker.FailsThere model m err := by
  match arms with
  | [] =>
      rw [Op.run_branch_nil] at h
      exact .inr (.inl ⟨_, .otherwise hfirst, rfl, h⟩)
  | .mk test body :: arms =>
      rw [Op.exec_branch_cons] at h
      cases hvalue : (test.eval model m.frame).run m.effects.requests with
      | mk r requests =>
      rw [hvalue] at h
      cases r with
      | error err' =>
          obtain rfl : err' = err := Except.error.inj h
          exact .inl (.value hfirst rfl hvalue)
      | ok v =>
      cases htruth : v.truth "condition" with
      | error err' =>
          simp only [htruth] at h
          obtain rfl : err' = err := Except.error.inj h
          exact .inl (.truth hfirst hvalue htruth)
      | ok holds =>
      simp only [htruth] at h
      cases holds with
      | true => exact .inr (.inl ⟨_, .arm hfirst hvalue htruth, rfl, h⟩)
      | false => exact .inr (.inl ⟨_, .nextArm hfirst hvalue htruth, rfl, fails_of_first rfl h⟩)

theorem failsThere_of_loop {iterable : Formula} {element : Nat} {index : Option Nat}
    {body otherwise ops : List Op}
    (hfirst : m.ops = .loop iterable element index body otherwise :: ops)
    (h : (exec ((Op.loop iterable element index body otherwise).run model (linker.openerAt model m)
      m.frame) m.effects).1 = .error err) : linker.FailsThere model m err := by
  cases hvalue : (iterable.eval model m.frame).run m.effects.requests with
  | mk r requests =>
  cases r with
  | error err' =>
      rw [Op.exec_loop, hvalue] at h
      obtain rfl : err' = err := Except.error.inj h
      exact .inl (.value hfirst rfl hvalue)
  | ok v =>
  cases v with
  | list items =>
      by_cases hitems : items = []
      · subst hitems
        rw [Op.exec_loop, hvalue] at h
        exact .inr (.inl ⟨_, .empty hfirst hvalue, rfl, h⟩)
      · rw [exec_loop_of_items hitems hvalue] at h
        obtain ⟨before, v, after, frame, e, rfl, hbefore, hitem⟩ := exists_item_of_fails h
        rw [Nat.zero_add] at hitem
        exact .inr (.inl ⟨_, .item hfirst hvalue hbefore, rfl, hitem⟩)
  | _ =>
      rw [Op.exec_loop, hvalue] at h
      obtain rfl := Except.error.inj h
      exact .inl (.notIterable hfirst hvalue (by simp))

theorem failsThere_of_inclusion {site : Nat} {target : String} {args : List (Option Formula)}
    {ops : List Op} (hfirst : m.ops = .inclusion site target args :: ops)
    (h : (exec ((Op.inclusion site target args).run model (linker.openerAt model m) m.frame)
      m.effects).1 = .error err) : linker.FailsThere model m err := by
  match hdepth : m.depth with
  | 0 =>
      rw [openerAt, hdepth] at h
      obtain rfl := Except.error.inj h
      exact .inl (.limit hfirst hdepth)
  | depth + 1 =>
  rw [openerAt, hdepth] at h
  cases hlink : linker.link m.self site target m.effects.links with
  | mk r links =>
  cases r with
  | error err' =>
      simp only [Op.run, Run.inclusion, Linker.opener, exec_bind, exec_ofLink, hlink] at h
      obtain rfl : err' = err := Except.error.inj h
      exact .inl (.link hfirst hdepth hlink)
  | ok callee =>
  rw [linker.exec_inclusion depth hlink] at h
  cases hgiven : (Formula.evalGiven model m.frame args).run m.effects.requests with
  | mk r requests =>
  rw [hgiven] at h
  cases r with
  | error err' =>
      obtain rfl : err' = err := Except.error.inj h
      exact .inl (.args hfirst hdepth hgiven)
  | ok given =>
  cases hbound : bindArgs (linker.program callee).schema.params given with
  | error err' =>
      simp only [hbound] at h
      obtain rfl := Except.error.inj h
      exact .inl (.bound hfirst hdepth hlink hbound)
  | ok values =>
      simp only [hbound, Program.exec_run] at h
      have henters : linker.Leads model m _ := .enter hfirst hdepth hlink hgiven hbound
      generalize hbody : exec (Op.runAll model (linker.opener model depth callee)
        ((linker.program callee).frame values) (linker.program callee).body)
        ⟨requests, m.effects.pieces, links⟩ = x at h
      obtain ⟨err' | _, _⟩ := x
      · obtain rfl := Except.error.inj h
        exact .inr (.inr ⟨target, _, err', ⟨henters, hdepth, site, args, ops, hfirst⟩,
          congrArg Prod.fst hbody, rfl⟩)
      · cases h

theorem Fails.there (h : linker.Fails model m err) : linker.FailsThere model m err := by
  match hops : m.ops with
  | [] =>
      rw [Fails, hops] at h
      cases h
  | op :: ops =>
      rw [Fails, hops, Op.runAll, exec_bind] at h
      cases hran : exec (op.run model (linker.openerAt model m) m.frame) m.effects with
      | mk r e =>
      rw [hran] at h
      cases r with
      | ok frame => exact .inr (.inl ⟨_, .next hops hran, rfl, h⟩)
      | error err' =>
      obtain rfl : err' = err := Except.error.inj h
      have hfails := congrArg Prod.fst hran
      cases op with
      | literal t => cases hran
      | escaped code => exact .inl (raises_of_print .escaped hops (.inl rfl) hfails)
      | raw code => exact .inl (raises_of_print .raw hops (.inr rfl) hfails)
      | branch arms otherwise => exact failsThere_of_branch hops hfails
      | loop iterable element index body otherwise => exact failsThere_of_loop hops hfails
      | inclusion site target args => exact failsThere_of_inclusion hops hfails

-- Each failure is raised at one moment. The induction is on what is left to do.
theorem Fails.exists_raises (h : linker.Fails model m err) :
    ∃ targets m' err', linker.Nests model m targets m' ∧ linker.Raises model m' err' ∧
      err = targets.foldr .inside err' := by
  induction m using (linker.wellFounded_leads model).induction generalizing err with
  | _ m ih =>
      obtain hraises | ⟨m', hleads, hdepth, hfails⟩ | ⟨target, m', err', henters, hfails, rfl⟩ :=
        h.there
      · exact ⟨[], m, err, .start, hraises, rfl⟩
      · obtain ⟨targets, m'', err', hway, hraises, rfl⟩ := ih m' hleads hfails
        exact ⟨[] ++ targets, m'', err', (Nests.stays .start hleads hdepth).trans hway, hraises, rfl⟩
      · obtain ⟨targets, m'', err', hway, hraises, rfl⟩ := ih m' henters.1 hfails
        exact ⟨[] ++ [target] ++ targets, m'', err', (Nests.enters .start henters).trans hway,
          hraises, rfl⟩

end Linker

end Stencil
