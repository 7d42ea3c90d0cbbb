import Stencil.Proofs.Render.Nesting

/-!
Two linkers side by side. If they link alike wherever the first is asked for a link, programs run
alike with both.
-/

namespace Stencil

open Relation Run

variable {ρ κ ω ω' : Type} {α β : Type}

-- The same requests and output, and related links.
structure Effects.Beside (R : ω → ω' → Prop) (e : Effects ρ ω) (e' : Effects ρ ω') : Prop where
  requests : e.requests = e'.requests
  pieces : e.pieces = e'.pieces
  links : R e.links e'.links

-- The same ends of two runs.
structure Run.Meet (R : ω → ω' → Prop) (r : Except RenderError α × Effects ρ ω)
    (r' : Except RenderError α × Effects ρ ω') : Prop where
  result : r.1 = r'.1
  effects : r.2.Beside R r'.2

namespace Effects.Beside

variable {R : ω → ω' → Prop} {e : Effects ρ ω} {e' : Effects ρ ω'}

theorem asked (h : e.Beside R e') (requests : Array (Request ρ)) :
    (e.asked requests).Beside R (e'.asked requests) :=
  ⟨rfl, h.pieces, h.links⟩

theorem wrote (h : e.Beside R e') (p : Piece) : (e.wrote p).Beside R (e'.wrote p) :=
  ⟨h.requests, congrArg (Array.push · p) h.pieces, h.links⟩

end Effects.Beside

theorem Run.Meet.bind {R : ω → ω' → Prop} {x : Run ρ ω α} {y : Run ρ ω' α} {f : α → Run ρ ω β}
    {g : α → Run ρ ω' β} {e : Effects ρ ω} {e' : Effects ρ ω'} (h : Meet R (exec x e) (exec y e'))
    (hthen : ∀ a e₁ e₁', exec x e = (.ok a, e₁) → e₁.Beside R e₁' →
      Meet R (exec (f a) e₁) (exec (g a) e₁')) :
    Meet R (exec (x >>= f) e) (exec (y >>= g) e') := by
  rw [exec_bind, exec_bind]
  generalize hx : exec x e = r at h hthen ⊢
  generalize exec y e' = r' at h ⊢
  obtain ⟨result, e₁⟩ := r
  obtain ⟨result', e₁'⟩ := r'
  obtain ⟨rfl, heffects⟩ := h
  cases result with
  | error err => exact ⟨rfl, heffects⟩
  | ok a => exact hthen a e₁ e₁' rfl heffects

variable [DecidableEq ρ] {linker : Linker κ ω} {linker' : Linker κ ω'} {model : Model ρ}
  {R : ω → ω' → Prop} {m : Moment κ ρ ω}

namespace Linker

-- What both linkers link an inclusion to that is executed at a moment.
def LinksAlike (linker : Linker κ ω) (linker' : Linker κ ω') (R : ω → ω' → Prop)
    (m : Moment κ ρ ω) : Prop :=
  ∀ site target, m.Executes site target → ∀ links', R m.effects.links links' →
    (linker.link m.self site target m.effects.links).1 =
        (linker'.link m.self site target links').1 ∧
      R (linker.link m.self site target m.effects.links).2
        (linker'.link m.self site target links').2

-- What is run from a moment on, and what the operation does that comes first.
structure Keeps (linker : Linker κ ω) (linker' : Linker κ ω') (model : Model ρ) (R : ω → ω' → Prop)
    (m : Moment κ ρ ω) : Prop where
  body : ∀ e' : Effects ρ ω', m.effects.Beside R e' →
    Meet R (exec (Op.runAll model (linker.opener model m.depth m.self) m.frame m.ops) m.effects)
      (exec (Op.runAll model (linker'.opener model m.depth m.self) m.frame m.ops) e')
  first : ∀ op ops, m.ops = op :: ops → ∀ e' : Effects ρ ω', m.effects.Beside R e' →
    Meet R (exec (op.run model (linker.opener model m.depth m.self) m.frame) m.effects)
      (exec (op.run model (linker'.opener model m.depth m.self) m.frame) e')

theorem meet_print (piece : String → Piece) (code : Formula) (frame : Frame ρ) {e : Effects ρ ω}
    {e' : Effects ρ ω'} (he : e.Beside R e') :
    Meet R
      (exec (do
        let v ← Run.ofEval (code.eval model frame)
        Run.emit (piece (← Run.given v.shown))
        return frame) e)
      (exec (do
        let v ← Run.ofEval (code.eval model frame)
        Run.emit (piece (← Run.given v.shown))
        return frame) e') := by
  rw [Op.exec_print piece, Op.exec_print piece, ← he.requests]
  generalize (code.eval model frame).run e.requests = r
  obtain ⟨_ | v, requests⟩ := r
  · exact ⟨rfl, he.asked requests⟩
  dsimp only
  cases v.shown with
  | error err => exact ⟨rfl, he.asked requests⟩
  | ok text => exact ⟨rfl, (he.asked requests).wrote _⟩

section Step

variable (hlater : ∀ m', linker.Leads model m m' → linker.Keeps linker' model R m')

include hlater

-- Some items of a loop, after others.
theorem meet_items {iterable : Formula} {element : Nat} {index : Option Nat}
    {body otherwise ops : List Op} {requests : Array (Request ρ)} (before items : List (Value ρ))
    (hfirst : m.ops = .loop iterable element index body otherwise :: ops)
    (hvalue : (iterable.eval model m.frame).run m.effects.requests =
      (.ok (.list (before ++ items)), requests)) {frame : Frame ρ} {e : Effects ρ ω}
    (hran : exec (Run.forEach (Op.runItem model (linker.openerAt model m) element index body)
      m.frame 0 before) (m.effects.asked requests) = (.ok frame, e))
    {e' : Effects ρ ω'} (he : e.Beside R e') :
    Meet R
      (exec (Run.forEach (Op.runItem model (linker.opener model m.depth m.self) element index body)
        frame before.length items) e)
      (exec (Run.forEach (Op.runItem model (linker'.opener model m.depth m.self) element index body)
        frame before.length items) e') := by
  induction items generalizing before frame e e' with
  | nil => exact ⟨rfl, he⟩
  | cons v items ih =>
      have hitem := (hlater _ (.item hfirst hvalue hran)).body e' he
      rw [Run.forEach, Run.forEach]
      refine Meet.bind hitem fun frame' e₁ e₁' hrun he₁ => ?_
      have hsofar : exec (Run.forEach (Op.runItem model (linker.openerAt model m) element index
          body) m.frame 0 (before ++ [v])) (m.effects.asked requests) = (.ok frame', e₁) := by
        have hlast : exec (Op.runItem model (linker.openerAt model m) element index body frame
            before.length v) e = (.ok frame', e₁) := hrun
        rw [Run.forEach_append, exec_bind, hran, Nat.zero_add]
        dsimp only
        rw [Run.forEach, exec_bind, hlast]
        rfl
      have hrest := ih (before ++ [v]) (by simpa using hvalue) hsofar he₁
      rwa [List.length_append, List.length_singleton] at hrest

theorem meet_inclusion (hprogram : linker.program = linker'.program)
    (halike : linker.LinksAlike linker' R m) {site : Nat} {target : String}
    {args : List (Option Formula)} {ops : List Op}
    (hfirst : m.ops = .inclusion site target args :: ops) {e' : Effects ρ ω'}
    (he : m.effects.Beside R e') :
    Meet R
      (exec ((Op.inclusion site target args).run model (linker.opener model m.depth m.self) m.frame)
        m.effects)
      (exec ((Op.inclusion site target args).run model (linker'.opener model m.depth m.self)
        m.frame) e') := by
  cases hdepth : m.depth with
  | zero => exact ⟨rfl, he⟩
  | succ depth =>
      have hexecutes : m.Executes site target := ⟨hdepth ▸ depth.succ_pos, args, ops, hfirst⟩
      obtain ⟨hresult, hlinks⟩ := halike site target hexecutes e'.links he.links
      generalize hlink : linker.link m.self site target m.effects.links = r at hresult hlinks
      generalize hlink' : linker'.link m.self site target e'.links = r' at hresult hlinks
      obtain ⟨result, links⟩ := r
      obtain ⟨result', links'⟩ := r'
      obtain rfl : result = result' := hresult
      cases result with
      | error err =>
          simp only [Op.run, Run.inclusion, Linker.opener, exec_bind, exec_ofLink, hlink, hlink']
          exact ⟨rfl, he.requests, he.pieces, hlinks⟩
      | ok callee =>
          rw [linker.exec_inclusion depth hlink, linker'.exec_inclusion depth hlink',
            ← he.requests, ← hprogram]
          generalize hgiven : (Formula.evalGiven model m.frame args).run m.effects.requests = given
          obtain ⟨_ | given, requests⟩ := given
          · exact ⟨rfl, rfl, he.pieces, hlinks⟩
          dsimp only
          cases hbound : bindArgs (linker.program callee).schema.params given with
          | error err => exact ⟨rfl, rfl, he.pieces, hlinks⟩
          | ok values =>
              have hbody := (hlater _ (.enter hfirst hdepth hlink hgiven hbound)).body
                ⟨requests, e'.pieces, links'⟩ ⟨rfl, he.pieces, hlinks⟩
              dsimp only
              rw [Program.exec_run, Program.exec_run]
              obtain ⟨hresult, heffects⟩ := hbody
              dsimp only at hresult heffects ⊢
              rw [hresult]
              exact ⟨rfl, heffects⟩

theorem meet_branch {arms : List OpArm} {otherwise ops : List Op}
    (hfirst : m.ops = .branch arms otherwise :: ops) {e' : Effects ρ ω'}
    (he : m.effects.Beside R e') :
    Meet R
      (exec ((Op.branch arms otherwise).run model (linker.opener model m.depth m.self) m.frame)
        m.effects)
      (exec ((Op.branch arms otherwise).run model (linker'.opener model m.depth m.self) m.frame)
        e') := by
  cases arms with
  | nil =>
      rw [Op.run_branch_nil, Op.run_branch_nil]
      exact (hlater _ (.otherwise hfirst)).body e' he
  | cons arm arms =>
      obtain ⟨test, body⟩ := arm
      rw [Op.exec_branch_cons, Op.exec_branch_cons, ← he.requests]
      generalize hvalue : (test.eval model m.frame).run m.effects.requests = r
      obtain ⟨_ | v, requests⟩ := r
      · exact ⟨rfl, he.asked requests⟩
      dsimp only
      cases htruth : v.truth "condition" with
      | error err => exact ⟨rfl, he.asked requests⟩
      | ok holds =>
          cases holds with
          | true => exact (hlater _ (.arm hfirst hvalue htruth)).body _ (he.asked requests)
          | false =>
              -- The other arms are a branch as well, which comes first at the next moment.
              exact (hlater _ (.nextArm hfirst hvalue htruth)).first _ _ rfl _ (he.asked requests)

theorem meet_loop {iterable : Formula} {element : Nat} {index : Option Nat}
    {body otherwise ops : List Op}
    (hfirst : m.ops = .loop iterable element index body otherwise :: ops) {e' : Effects ρ ω'}
    (he : m.effects.Beside R e') :
    Meet R
      (exec ((Op.loop iterable element index body otherwise).run model
        (linker.opener model m.depth m.self) m.frame) m.effects)
      (exec ((Op.loop iterable element index body otherwise).run model
        (linker'.opener model m.depth m.self) m.frame) e') := by
  rw [Op.exec_loop, Op.exec_loop, ← he.requests]
  generalize hvalue : (iterable.eval model m.frame).run m.effects.requests = r
  obtain ⟨_ | v, requests⟩ := r
  · exact ⟨rfl, he.asked requests⟩
  cases v with
  | list items =>
      cases items with
      | nil => exact (hlater _ (.empty hfirst hvalue)).body _ (he.asked requests)
      | cons v items =>
          exact meet_items hlater [] (v :: items) hfirst hvalue rfl (he.asked requests)
  | _ => exact ⟨rfl, he.asked requests⟩

-- One step of both: from the moments that follow to the one before.
theorem keeps_of_later (hprogram : linker.program = linker'.program)
    (halike : linker.LinksAlike linker' R m) : linker.Keeps linker' model R m := by
  have hfirst (op : Op) (ops : List Op) (hops : m.ops = op :: ops) (e' : Effects ρ ω')
      (he : m.effects.Beside R e') :
      Meet R (exec (op.run model (linker.opener model m.depth m.self) m.frame) m.effects)
        (exec (op.run model (linker'.opener model m.depth m.self) m.frame) e') := by
    cases op with
    | literal t => exact ⟨rfl, he.wrote _⟩
    | escaped code => exact meet_print .escaped code m.frame he
    | raw code => exact meet_print .raw code m.frame he
    | branch arms otherwise => exact meet_branch hlater hops he
    | loop iterable element index body otherwise => exact meet_loop hlater hops he
    | inclusion site target args => exact meet_inclusion hlater hprogram halike hops he
  refine ⟨fun e' he => ?_, hfirst⟩
  cases hops : m.ops with
  | nil => exact ⟨rfl, he⟩
  | cons op ops =>
      rw [Op.runAll, Op.runAll]
      refine (hfirst op ops hops e' he).bind fun frame e₁ e₁' hrun he₁ => ?_
      exact (hlater _ (.next hops hrun)).body e₁' he₁

end Step

-- The induction is along the moments of a run, which end.
theorem keeps_of_reached (hprogram : linker.program = linker'.program) (m : Moment κ ρ ω)
    (halike : ∀ m', ReflTransGen (linker.Leads model) m m' → linker.LinksAlike linker' R m') :
    linker.Keeps linker' model R m := by
  induction m using (linker.wellFounded_leads model).induction with
  | _ m ih =>
      refine keeps_of_later (fun m' hm' => ih m' hm' fun m'' hreached => ?_) hprogram
        (halike m .refl)
      exact halike m'' (.head hm' hreached)

-- A render is the same with both linkers, if they link alike wherever the first is asked.
theorem render_alike (hprogram : linker.program = linker'.program) {self : κ} {root : ρ}
    {links : ω} {links' : ω'}
    (halike : ∀ m, linker.Reaches model root self links m → linker.LinksAlike linker' R m)
    (hlinks : R links links') (sink : Sink) :
    let r := render linker self model root sink links
    let r' := render linker' self model root sink links'
    r.outcome = r'.outcome ∧ r.pieces = r'.pieces ∧ r.sink = r'.sink ∧ r.requests = r'.requests ∧
      R r.links r'.links := by
  dsimp only
  by_cases hmode : (linker.program self).mode = sink.mode
  · have hmode' : (linker'.program self).mode = sink.mode := hprogram ▸ hmode
    cases hread : (readParams model root (linker.program self).schema.params).run #[] with
    | mk r requests =>
        have hread' : (readParams model root (linker'.program self).schema.params).run #[] =
            (r, requests) := hprogram ▸ hread
        cases r with
        | error err =>
            rw [render_of_unread hmode hread, render_of_unread hmode' hread']
            exact ⟨rfl, rfl, rfl, rfl, hlinks⟩
        | ok values =>
            have hkeeps := keeps_of_reached hprogram
              ⟨self, maxInclusionDepth, (linker.program self).frame values,
                ⟨requests, #[], links⟩, (linker.program self).body⟩
              fun m hm => halike m ⟨values, requests, hread, hm⟩
            obtain ⟨hresult, hrequests, hpieces, hlast⟩ :=
              hkeeps.body ⟨requests, #[], links'⟩ ⟨rfl, rfl, hlinks⟩
            rw [render_of_read hmode hread, render_of_read hmode' hread', ← hprogram]
            dsimp only at hresult hrequests hpieces hlast ⊢
            rw [hresult, hrequests, hpieces]
            exact ⟨rfl, rfl, rfl, rfl, hlast⟩
  · have hmode' : ¬(linker'.program self).mode = sink.mode := hprogram ▸ hmode
    simp only [render, hprogram, hmode', if_false]
    exact ⟨trivial, trivial, trivial, trivial, hlinks⟩

end Linker

end Stencil
