import Mathlib.Logic.Relation
import Stencil.Proofs.Render.Supply

/-!
Moments of a run, and which of them follow each other. What holds of every step from one moment to
the next, and of what is done in between, holds of a whole run.
-/

namespace Stencil

open Run

variable {ρ κ ω : Type}

-- A point in a run: the program being executed, what was done so far, and the operations of the
-- body that come next.
structure Moment (κ ρ ω : Type) where
  self : κ
  -- how many inclusions may still be entered, one inside the other
  depth : Nat
  frame : Frame ρ
  effects : Effects ρ ω
  ops : List Op

-- The effects after more requests.
def Effects.asked (e : Effects ρ ω) (requests : Array (Request ρ)) : Effects ρ ω :=
  { e with requests := requests }

def Effects.wrote (e : Effects ρ ω) (p : Piece) : Effects ρ ω :=
  { e with pieces := e.pieces.push p }

variable [DecidableEq ρ]

-- The body of a loop, run for an item at a position.
def Op.runItem (model : Model ρ) (opener : Opener ρ ω) (element : Nat) (index : Option Nat)
    (body : List Op) (frame : Frame ρ) (i : Nat) (item : Value ρ) : Run ρ ω (Frame ρ) :=
  Op.runAll model opener (frame.store element index item i) body

-- Operations with others inside of them, as their parts are run.
section Operations

variable {model : Model ρ} {opener : Opener ρ ω} {frame : Frame ρ} {e : Effects ρ ω}

theorem Op.exec_print (piece : String → Piece) (code : Formula) :
    exec (do
        let v ← Run.ofEval (code.eval model frame)
        Run.emit (piece (← Run.given v.shown))
        return frame) e =
      match (code.eval model frame).run e.requests with
      | (.error err, requests) => (.error err, e.asked requests)
      | (.ok v, requests) =>
        match v.shown with
        | .error err => (.error err, e.asked requests)
        | .ok s => (.ok frame, (e.asked requests).wrote (piece s)) := by
  rw [exec_bind, exec_ofEval]
  generalize (code.eval model frame).run e.requests = r
  obtain ⟨_ | v, requests⟩ := r
  · rfl
  · dsimp only
    rw [exec_bind, exec_given]
    cases v.shown <;> rfl

theorem Op.run_branch_nil (otherwise : List Op) :
    (Op.branch [] otherwise).run model opener frame = Op.runAll model opener frame otherwise := by
  simp only [Op.run, Op.runArms, pure_bind]

theorem Op.exec_branch_cons (test : Formula) (body : List Op) (arms : List OpArm)
    (otherwise : List Op) :
    exec ((Op.branch (.mk test body :: arms) otherwise).run model opener frame) e =
      match (test.eval model frame).run e.requests with
      | (.error err, requests) => (.error err, e.asked requests)
      | (.ok v, requests) =>
        match v.truth "condition" with
        | .error err => (.error err, e.asked requests)
        | .ok true => exec (Op.runAll model opener frame body) (e.asked requests)
        | .ok false => exec ((Op.branch arms otherwise).run model opener frame)
            (e.asked requests) := by
  simp only [Op.run, Op.runArms, bind_assoc]
  rw [exec_bind, exec_ofEval]
  generalize (test.eval model frame).run e.requests = r
  obtain ⟨_ | v, requests⟩ := r
  · rfl
  · dsimp only
    rw [exec_bind, exec_given]
    obtain _ | (_ | _) := v.truth "condition"
    · rfl
    · rfl
    · simp [Effects.asked]

theorem Op.exec_loop (iterable : Formula) (element : Nat) (index : Option Nat)
    (body otherwise : List Op) :
    exec ((Op.loop iterable element index body otherwise).run model opener frame) e =
      match (iterable.eval model frame).run e.requests with
      | (.error err, requests) => (.error err, e.asked requests)
      | (.ok (.list []), requests) => exec (Op.runAll model opener frame otherwise)
          (e.asked requests)
      | (.ok (.list items), requests) =>
        exec (Run.forEach (Op.runItem model opener element index body) frame 0 items)
          (e.asked requests)
      | (.ok v, requests) => (.error (.notIterable v.kind), e.asked requests) := by
  rw [Op.run, exec_bind, exec_ofEval]
  generalize (iterable.eval model frame).run e.requests = r
  obtain ⟨_ | v, requests⟩ := r
  · rfl
  · cases v with
    | list items => cases items <;> rfl
    | _ => rfl

end Operations

theorem Program.exec_run (p : Program) (model : Model ρ) (opener : Opener ρ ω)
    (values : List (Value ρ)) (e : Effects ρ ω) :
    exec (p.run model opener values) e =
      let x := exec (Op.runAll model opener (p.frame values) p.body) e
      (x.1.map fun _ => (), x.2) := by
  rw [Program.run, exec_bind]
  generalize exec (Op.runAll model opener (p.frame values) p.body) e = x
  obtain ⟨_ | _, _⟩ := x <;> rfl

omit [DecidableEq ρ] in
theorem Run.forEach_append {σ : Type} (f : σ → Nat → Value ρ → Run ρ ω σ) (s : σ) (i : Nat)
    (before after : List (Value ρ)) :
    Run.forEach f s i (before ++ after) = (do
      let s ← Run.forEach f s i before
      Run.forEach f s (i + before.length) after) := by
  induction before generalizing s i with
  | nil => simp [Run.forEach]
  | cons v before ih =>
      simp only [List.cons_append, Run.forEach, bind_assoc, ih, List.length_cons]
      simp only [Nat.add_assoc, Nat.add_comm 1]

-- A later moment of the same program.
def Moment.later (m : Moment κ ρ ω) (frame : Frame ρ) (e : Effects ρ ω) (ops : List Op) :
    Moment κ ρ ω :=
  { m with frame := frame, effects := e, ops := ops }

-- The operation that comes next may print a piece. A value is evaluated for it at this moment.
inductive Moment.Prints (model : Model ρ) (m : Moment κ ρ ω) : Piece → Prop
  | literal {t : StaticText} {ops : List Op} (first : m.ops = .literal t :: ops) :
    Prints model m (.literal t)
  | escaped {code : Formula} {ops : List Op} {v : Value ρ} {requests : Array (Request ρ)}
    {s : String} (first : m.ops = .escaped code :: ops)
    (value : (code.eval model m.frame).run m.effects.requests = (.ok v, requests))
    (shown : v.shown = .ok s) : Prints model m (.escaped s)
  | raw {code : Formula} {ops : List Op} {v : Value ρ} {requests : Array (Request ρ)}
    {s : String} (first : m.ops = .raw code :: ops)
    (value : (code.eval model m.frame).run m.effects.requests = (.ok v, requests))
    (shown : v.shown = .ok s) : Prints model m (.raw s)

namespace Linker

variable (linker : Linker κ ω) (model : Model ρ)

-- What an opener opens at a moment.
def openerAt (m : Moment κ ρ ω) : Opener ρ ω := linker.opener model m.depth m.self

-- A moment leads to the one after its next operation, and to those inside of that operation.
inductive Leads (m : Moment κ ρ ω) : Moment κ ρ ω → Prop
  | next {op : Op} {ops : List Op} {frame : Frame ρ} {e : Effects ρ ω} (first : m.ops = op :: ops)
    (ran : exec (op.run model (linker.openerAt model m) m.frame) m.effects = (.ok frame, e)) :
    Leads m (m.later frame e ops)
  | arm {test : Formula} {body : List Op} {arms : List OpArm} {otherwise ops : List Op}
    {v : Value ρ} {requests : Array (Request ρ)}
    (first : m.ops = .branch (.mk test body :: arms) otherwise :: ops)
    (value : (test.eval model m.frame).run m.effects.requests = (.ok v, requests))
    (holds : v.truth "condition" = .ok true) :
    Leads m (m.later m.frame (m.effects.asked requests) body)
  | nextArm {test : Formula} {body : List Op} {arms : List OpArm} {otherwise ops : List Op}
    {v : Value ρ} {requests : Array (Request ρ)}
    (first : m.ops = .branch (.mk test body :: arms) otherwise :: ops)
    (value : (test.eval model m.frame).run m.effects.requests = (.ok v, requests))
    (fails : v.truth "condition" = .ok false) :
    Leads m (m.later m.frame (m.effects.asked requests) (.branch arms otherwise :: ops))
  | otherwise {otherwise ops : List Op} (first : m.ops = .branch [] otherwise :: ops) :
    Leads m (m.later m.frame m.effects otherwise)
  | item {iterable : Formula} {element : Nat} {index : Option Nat} {body otherwise ops : List Op}
    {before after : List (Value ρ)} {v : Value ρ} {requests : Array (Request ρ)}
    {frame : Frame ρ} {e : Effects ρ ω}
    (first : m.ops = .loop iterable element index body otherwise :: ops)
    (value : (iterable.eval model m.frame).run m.effects.requests =
      (.ok (.list (before ++ v :: after)), requests))
    (ran : exec (Run.forEach (Op.runItem model (linker.openerAt model m) element index body)
      m.frame 0 before) (m.effects.asked requests) = (.ok frame, e)) :
    Leads m (m.later (frame.store element index v before.length) e body)
  | empty {iterable : Formula} {element : Nat} {index : Option Nat} {body otherwise ops : List Op}
    {requests : Array (Request ρ)}
    (first : m.ops = .loop iterable element index body otherwise :: ops)
    (value : (iterable.eval model m.frame).run m.effects.requests = (.ok (.list []), requests)) :
    Leads m (m.later m.frame (m.effects.asked requests) otherwise)
  | enter {site : Nat} {target : String} {args : List (Option Formula)} {ops : List Op}
    {depth : Nat} {callee : κ} {links : ω} {given : List (Option (Value ρ))}
    {requests : Array (Request ρ)} {values : List (Value ρ)}
    (first : m.ops = .inclusion site target args :: ops) (within : m.depth = depth + 1)
    (linked : linker.link m.self site target m.effects.links = (.ok callee, links))
    (value : (Formula.evalGiven model m.frame args).run m.effects.requests = (.ok given, requests))
    (bound : bindArgs (linker.program callee).schema.params given = .ok values) :
    Leads m ⟨callee, depth, (linker.program callee).frame values,
      ⟨requests, m.effects.pieces, links⟩, (linker.program callee).body⟩

-- Something that holds of a moment and of the effects at the end of what is run from there on, if
-- it is kept up by all that can be done at one moment, and along the moments that follow.
structure Tracks (I : Moment κ ρ ω → Effects ρ ω → Prop) : Prop where
  asks : ∀ m requests, I m (m.effects.asked requests)
  prints : ∀ {m p} requests, m.Prints model p → I m ((m.effects.asked requests).wrote p)
  links : ∀ {m site target args ops result links} requests,
    m.ops = .inclusion site target args :: ops → 0 < m.depth →
    linker.link m.self site target m.effects.links = (result, links) →
    I m ⟨requests, m.effects.pieces, links⟩
  leads : ∀ {m m' e}, linker.Leads model m m' → I m m'.effects → I m' e → I m e

-- It holds of the bodies of programs that are entered from some depth.
def TracksInside (I : Moment κ ρ ω → Effects ρ ω → Prop) (depth : Nat) : Prop :=
  ∀ callee inner, depth = inner + 1 → ∀ frame e,
    I ⟨callee, inner, frame, e, (linker.program callee).body⟩
      (exec (Op.runAll model (linker.opener model inner callee) frame
        (linker.program callee).body) e).2

end Linker

namespace Linker.Tracks

variable {linker : Linker κ ω} {model : Model ρ} {I : Moment κ ρ ω → Effects ρ ω → Prop}
  {self : κ} {depth : Nat}

-- Some items of a loop, after others.
theorem items (h : linker.Tracks model I) {m : Moment κ ρ ω} {iterable : Formula} {element : Nat}
    {index : Option Nat} {body otherwise ops : List Op} {all : List (Value ρ)}
    {requests : Array (Request ρ)}
    (hfirst : m.ops = .loop iterable element index body otherwise :: ops)
    (hvalue : (iterable.eval model m.frame).run m.effects.requests = (.ok (.list all), requests))
    (hbody : ∀ frame e, I (m.later frame e body)
      (exec (Op.runAll model (linker.openerAt model m) frame body) e).2)
    (before items : List (Value ρ)) (hall : before ++ items <+: all) {frame : Frame ρ}
    {e : Effects ρ ω}
    (hran : exec (Run.forEach (Op.runItem model (linker.openerAt model m) element index body)
      m.frame 0 before) (m.effects.asked requests) = (.ok frame, e)) (he : I m e) :
    I m (exec (Run.forEach (Op.runItem model (linker.openerAt model m) element index body)
      frame before.length items) e).2 := by
  induction items generalizing before frame e with
  | nil => exact he
  | cons v items ih =>
      have hvalue' : ∃ after, (iterable.eval model m.frame).run m.effects.requests =
          (.ok (.list (before ++ v :: after)), requests) := by
        obtain ⟨rest, rfl⟩ := hall
        exact ⟨items ++ rest, by simpa using hvalue⟩
      obtain ⟨after, hvalue'⟩ := hvalue'
      have hitem : linker.Leads model m
          (m.later (frame.store element index v before.length) e body) :=
        .item hfirst hvalue' hran
      have hthis := h.leads hitem he (hbody _ e)
      rw [Run.forEach, exec_bind]
      cases hrun : exec (Op.runItem model (linker.openerAt model m) element index body frame
          before.length v) e with
      | mk r e' =>
          have hinner : exec (Op.runAll model (linker.openerAt model m)
              (frame.store element index v before.length) body) e = (r, e') := hrun
          rw [hinner] at hthis
          cases r with
          | error err => exact hthis
          | ok frame' =>
              have hsofar : exec (Run.forEach (Op.runItem model (linker.openerAt model m) element
                  index body) m.frame 0 (before ++ [v])) (m.effects.asked requests) =
                  (.ok frame', e') := by
                rw [Run.forEach_append, exec_bind, hran, Nat.zero_add]
                dsimp only
                rw [Run.forEach, exec_bind, hrun]
                rfl
              have hrest := ih (before ++ [v]) (by simpa using hall) hsofar hthis
              rwa [List.length_append, List.length_singleton] at hrest

theorem inclusion (h : linker.Tracks model I) (hinner : linker.TracksInside model I depth)
    (site : Nat) (target : String) (args : List (Option Formula)) (frame : Frame ρ)
    (e : Effects ρ ω) (ops : List Op) :
    I ⟨self, depth, frame, e, .inclusion site target args :: ops⟩
      (exec ((Op.inclusion site target args).run model (linker.opener model depth self) frame)
        e).2 := by
  cases depth with
  | zero => exact h.asks _ e.requests
  | succ depth =>
      cases hlink : linker.link self site target e.links with
      | mk r links =>
          have hlinked (requests) := h.links requests
            (m := ⟨self, depth + 1, frame, e, .inclusion site target args :: ops⟩) rfl
            depth.succ_pos hlink
          cases r with
          | error err =>
              simp only [Op.run, Run.inclusion, Linker.opener, exec_bind, exec_ofLink, hlink]
              exact hlinked e.requests
          | ok callee =>
              rw [linker.exec_inclusion depth hlink]
              generalize hgiven : (Formula.evalGiven model frame args).run e.requests = given
              obtain ⟨_ | given, requests⟩ := given
              · exact hlinked requests
              dsimp only
              cases hbound : bindArgs (linker.program callee).schema.params given with
              | error err => exact hlinked requests
              | ok values =>
                  dsimp only
                  rw [Program.exec_run]
                  exact h.leads (.enter rfl rfl hlink hgiven hbound) (hlinked requests)
                    (hinner callee depth rfl _ _)

mutual

theorem op_run (h : linker.Tracks model I) (hinner : linker.TracksInside model I depth) :
    ∀ (op : Op) (frame : Frame ρ) (e : Effects ρ ω) (ops : List Op),
      I ⟨self, depth, frame, e, op :: ops⟩
        (exec (op.run model (linker.opener model depth self) frame) e).2
  | .literal t, frame, e, ops => h.prints e.requests (.literal rfl)
  | .escaped code, frame, e, ops => by
      rw [Op.run, Op.exec_print .escaped]
      generalize hvalue : (code.eval model frame).run e.requests = r
      obtain ⟨_ | v, requests⟩ := r
      · exact h.asks _ requests
      dsimp only
      cases hshown : v.shown with
      | error err => exact h.asks _ requests
      | ok s => exact h.prints requests (.escaped rfl hvalue hshown)
  | .raw code, frame, e, ops => by
      rw [Op.run, Op.exec_print .raw]
      generalize hvalue : (code.eval model frame).run e.requests = r
      obtain ⟨_ | v, requests⟩ := r
      · exact h.asks _ requests
      dsimp only
      cases hshown : v.shown with
      | error err => exact h.asks _ requests
      | ok s => exact h.prints requests (.raw rfl hvalue hshown)
  | .branch arms otherwise, frame, e, ops =>
      op_branch h hinner arms otherwise (op_runAll h hinner otherwise) frame e ops
  | .loop iterable element index body otherwise, frame, e, ops => by
      rw [Op.exec_loop]
      generalize hvalue : (iterable.eval model frame).run e.requests = r
      obtain ⟨_ | v, requests⟩ := r
      · exact h.asks _ requests
      cases v with
      | list items =>
          cases items with
          | nil =>
              exact h.leads (.empty rfl hvalue) (h.asks _ requests)
                (op_runAll h hinner otherwise _ _)
          | cons v items =>
              let m : Moment κ ρ ω :=
                ⟨self, depth, frame, e, .loop iterable element index body otherwise :: ops⟩
              exact h.items (m := m) rfl hvalue (op_runAll h hinner body) [] (v :: items)
                (List.prefix_refl _) rfl (h.asks m requests)
      | _ => exact h.asks _ requests
  | .inclusion site target args, frame, e, ops => h.inclusion hinner site target args frame e ops

theorem op_runAll (h : linker.Tracks model I) (hinner : linker.TracksInside model I depth) :
    ∀ (ops : List Op) (frame : Frame ρ) (e : Effects ρ ω),
      I ⟨self, depth, frame, e, ops⟩
        (exec (Op.runAll model (linker.opener model depth self) frame ops) e).2
  | [], frame, e => h.asks _ e.requests
  | op :: ops, frame, e => by
      have hfirst := op_run h hinner op frame e ops
      rw [Op.runAll, exec_bind]
      generalize hran : exec (op.run model (linker.opener model depth self) frame) e = r
        at hfirst ⊢
      obtain ⟨_ | frame', e'⟩ := r
      · exact hfirst
      · exact h.leads (.next rfl hran) hfirst (op_runAll h hinner ops frame' e')

-- The arms are tested one after the other.
theorem op_branch (h : linker.Tracks model I) (hinner : linker.TracksInside model I depth) :
    ∀ (arms : List OpArm) (otherwise : List Op),
      (∀ frame e, I ⟨self, depth, frame, e, otherwise⟩
        (exec (Op.runAll model (linker.opener model depth self) frame otherwise) e).2) →
      ∀ (frame : Frame ρ) (e : Effects ρ ω) (ops : List Op),
        I ⟨self, depth, frame, e, .branch arms otherwise :: ops⟩
          (exec ((Op.branch arms otherwise).run model (linker.opener model depth self) frame) e).2
  | [], otherwise, hother, frame, e, ops => by
      rw [Op.run_branch_nil]
      exact h.leads (.otherwise rfl) (h.asks _ e.requests) (hother frame e)
  | .mk test body :: arms, otherwise, hother, frame, e, ops => by
      rw [Op.exec_branch_cons]
      generalize hvalue : (test.eval model frame).run e.requests = r
      obtain ⟨_ | v, requests⟩ := r
      · exact h.asks _ requests
      dsimp only
      cases htruth : v.truth "condition" with
      | error err => exact h.asks _ requests
      | ok holds =>
          cases holds with
          | true =>
              exact h.leads (.arm rfl hvalue htruth) (h.asks _ requests)
                (op_runAll h hinner body frame _)
          | false =>
              exact h.leads (.nextArm rfl hvalue htruth) (h.asks _ requests)
                (op_branch h hinner arms otherwise hother frame _ ops)

end

-- The induction is on how deep inclusions may nest.
theorem inside (h : linker.Tracks model I) (depth : Nat) : linker.TracksInside model I depth := by
  induction depth with
  | zero => exact fun _ _ hdepth => nomatch hdepth
  | succ depth ih =>
      rintro callee inner ⟨⟩ frame e
      exact op_runAll h ih (linker.program callee).body frame e

-- So it holds of whatever is run from a moment on,
theorem runAll (h : linker.Tracks model I) (m : Moment κ ρ ω) :
    I m (exec (Op.runAll model (linker.openerAt model m) m.frame m.ops) m.effects).2 :=
  op_runAll h (h.inside m.depth) m.ops m.frame m.effects

-- and of the way from one moment to the next.
theorem of_leads (h : linker.Tracks model I) {m m' : Moment κ ρ ω} (hm : linker.Leads model m m') :
    I m m'.effects := by
  obtain ⟨self, depth, frame, e, ops⟩ := m
  cases hm with
  | @next op ops' frame' e' first ran =>
      obtain rfl := first
      have hrun : I ⟨self, depth, frame, e, op :: ops'⟩
          (exec (op.run model (linker.opener model depth self) frame) e).2 :=
        op_run h (h.inside depth) op frame e ops'
      have hend : exec (op.run model (linker.opener model depth self) frame) e =
          (.ok frame', e') := ran
      rw [hend] at hrun
      exact hrun
  | arm => exact h.asks _ _
  | nextArm => exact h.asks _ _
  | otherwise => exact h.asks _ _
  | empty => exact h.asks _ _
  | item first value ran =>
      obtain rfl := first
      have hitems := h.items rfl value (op_runAll h (h.inside depth) _) [] _
        (List.prefix_append _ _) rfl (h.asks _ _)
      rw [List.length_nil, ran] at hitems
      exact hitems
  | enter first within linked =>
      exact h.links _ first (within ▸ Nat.succ_pos _) linked

end Linker.Tracks

end Stencil
