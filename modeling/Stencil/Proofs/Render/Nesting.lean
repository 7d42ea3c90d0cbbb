import Mathlib.Data.Set.Finite.Lattice
import Stencil.Proofs.Render.Printing

/-!
How deep inclusions nest in a run, and that every run comes to an end. Whatever fails inside of
inclusions fails the run, under their names.
-/

namespace Stencil

open Relation Run

variable {ρ κ ω : Type} [DecidableEq ρ]

-- An inclusion comes next, and may be entered.
def Moment.Executes (m : Moment κ ρ ω) (site : Nat) (target : String) : Prop :=
  0 < m.depth ∧ ∃ args ops, m.ops = .inclusion site target args :: ops

-- If everything leads to finitely many others, and not on and on, then finitely many are reached.
theorem finite_reached_of_wellFounded {α : Type} {r : α → α → Prop}
    (hwf : WellFounded fun b a => r a b) (hfinite : ∀ a, {b | r a b}.Finite) (a : α) :
    {b | ReflTransGen r a b}.Finite := by
  induction a using hwf.induction with
  | _ a ih =>
      refine ((Set.finite_singleton a).union ((hfinite a).biUnion ih)).subset fun c hc => ?_
      obtain rfl | ⟨b, hab, hbc⟩ := hc.cases_head
      · exact .inl rfl
      · exact .inr (Set.mem_biUnion (show b ∈ {b | r a b} from hab) hbc)

attribute [mk_iff] Linker.Leads

namespace Linker

section Termination

variable (linker : Linker κ ω) (model : Model ρ)

-- Each step leaves less to be done: fewer inclusions may still be entered, or less comes next.
theorem Leads.smaller {linker : Linker κ ω} {model : Model ρ} {m m' : Moment κ ρ ω}
    (h : linker.Leads model m m') :
    Prod.Lex (· < ·) (· < ·) (m'.depth, sizeOf m'.ops) (m.depth, sizeOf m.ops) := by
  cases h with
  | enter _ within _ _ _ =>
      rw [within]
      exact .left _ _ (Nat.lt_succ_self _)
  | next first _ =>
      refine .right _ ?_
      simp only [Moment.later, first, List.cons.sizeOf_spec]
      omega
  | arm first _ _ | nextArm first _ _ | otherwise first | item first _ _ | empty first _ =>
      refine .right _ ?_
      simp only [Moment.later, first, List.cons.sizeOf_spec, List.nil.sizeOf_spec,
        Op.branch.sizeOf_spec, Op.loop.sizeOf_spec, OpArm.mk.sizeOf_spec]
      omega

-- So no run goes on forever,
theorem wellFounded_leads : WellFounded fun m' m => linker.Leads model m m' :=
  Subrelation.wf Leads.smaller
    (InvImage.wf (fun m : Moment κ ρ ω => (m.depth, sizeOf m.ops))
      (Prod.lex ⟨_, Nat.lt_wfRel.wf⟩ ⟨_, Nat.lt_wfRel.wf⟩).wf)

-- The loop that comes next runs its body for the item at a position.
def AtItem (m : Moment κ ρ ω) (n : Nat) (m' : Moment κ ρ ω) : Prop :=
  ∃ iterable element index body otherwise ops before after v requests frame e,
    m.ops = .loop iterable element index body otherwise :: ops ∧
    (iterable.eval model m.frame).run m.effects.requests =
      (.ok (.list (before ++ v :: after)), requests) ∧
    exec (Run.forEach (Op.runItem model (linker.openerAt model m) element index body) m.frame 0
      before) (m.effects.asked requests) = (.ok frame, e) ∧
    before.length = n ∧ m' = m.later (frame.store element index v before.length) e body

theorem finite_items (m : Moment κ ρ ω) : {m' | ∃ n, linker.AtItem model m n m'}.Finite := by
  by_cases hsome : ∃ n m', linker.AtItem model m n m'
  · obtain ⟨_, _, _, _, _, _, _, _, before, after, v, _, _, _, first, value, -⟩ := hsome
    have hunique (n : Nat) : {m' | linker.AtItem model m n m'}.Subsingleton := by
      rintro _ ⟨_, _, _, _, _, _, before, _, _, _, _, _, first, value, ran, rfl, rfl⟩
        _ ⟨_, _, _, _, _, _, before', _, _, _, _, _, first', value', ran', hlength, rfl⟩
      cases first.symm.trans first'
      have hitems := (Prod.mk.inj (value.symm.trans value')).1
      obtain ⟨rfl, hrest⟩ := List.append_inj (Value.list.inj (Except.ok.inj hitems)) hlength.symm
      cases hrest
      cases value.symm.trans value'
      cases ran.symm.trans ran'
      rfl
    refine ((Set.finite_lt_nat (before ++ v :: after).length).biUnion
      fun n _ => (hunique n).finite).subset ?_
    rintro m' ⟨n, hm'⟩
    refine Set.mem_biUnion (show n ∈ {n | n < _} from ?_) hm'
    obtain ⟨_, _, _, _, _, _, _, _, _, _, _, _, first', value', -, rfl, -⟩ := hm'
    cases first.symm.trans first'
    have hitems := (Prod.mk.inj (value.symm.trans value')).1
    rw [Value.list.inj (Except.ok.inj hitems)]
    simp
  · refine Set.finite_empty.subset ?_
    rintro m' ⟨n, hm'⟩
    exact hsome ⟨n, m', hm'⟩

-- In each other way a moment leads to one moment at most.
theorem finite_leads (m : Moment κ ρ ω) : {m' | linker.Leads model m m'}.Finite := by
  simp only [leads_iff, Set.ofPred_or]
  refine .union ?next (.union ?arm (.union ?nextArm (.union ?otherwise (.union ?item
    (.union ?empty ?enter)))))
  case item =>
    refine (linker.finite_items model m).subset ?_
    rintro _ ⟨_, _, _, _, _, _, _, _, _, _, _, _, first, value, ran, rfl⟩
    exact ⟨_, _, _, _, _, _, _, _, _, _, _, _, _, first, value, ran, rfl, rfl⟩
  all_goals refine Set.Subsingleton.finite ?_
  case next =>
    rintro _ ⟨_, _, _, _, first, ran, rfl⟩ _ ⟨_, _, _, _, first', ran', rfl⟩
    cases first.symm.trans first'
    cases ran.symm.trans ran'
    rfl
  case arm | nextArm =>
    rintro _ ⟨_, _, _, _, _, _, _, first, value, -, rfl⟩
      _ ⟨_, _, _, _, _, _, _, first', value', -, rfl⟩
    cases first.symm.trans first'
    cases value.symm.trans value'
    rfl
  case otherwise =>
    rintro _ ⟨_, _, first, rfl⟩ _ ⟨_, _, first', rfl⟩
    cases first.symm.trans first'
    rfl
  case empty =>
    rintro _ ⟨_, _, _, _, _, _, _, first, value, rfl⟩ _ ⟨_, _, _, _, _, _, _, first', value', rfl⟩
    cases first.symm.trans first'
    cases value.symm.trans value'
    rfl
  case enter =>
    rintro _ ⟨_, _, _, _, _, _, _, _, _, _, first, within, linked, value, bound, rfl⟩
      _ ⟨_, _, _, _, _, _, _, _, _, _, first', within', linked', value', bound', rfl⟩
    cases first.symm.trans first'
    cases within.symm.trans within'
    cases linked.symm.trans linked'
    cases value.symm.trans value'
    cases bound.symm.trans bound'
    rfl

-- and a render has finitely many moments.
theorem finite_reaches (root : ρ) (self : κ) (links : ω) :
    {m | linker.Reaches model root self links m}.Finite := by
  cases hread : (readParams model root (linker.program self).schema.params).run #[] with
  | mk r requests =>
      cases r with
      | error err =>
          refine Set.finite_empty.subset ?_
          rintro m ⟨values, requests', hread', -⟩
          cases hread.symm.trans hread'
      | ok values =>
          refine (finite_reached_of_wellFounded (linker.wellFounded_leads model)
            (linker.finite_leads model) ⟨self, maxInclusionDepth, (linker.program self).frame values,
              ⟨requests, #[], links⟩, (linker.program self).body⟩).subset ?_
          rintro m ⟨values', requests', hread', hreached⟩
          cases hread.symm.trans hread'
          exact hreached

end Termination

section Nesting

variable (linker : Linker κ ω) (model : Model ρ)

-- A moment leads into the body of what the inclusion that comes next includes.
def Enters (m : Moment κ ρ ω) (target : String) (m' : Moment κ ρ ω) : Prop :=
  linker.Leads model m m' ∧ m.depth = m'.depth + 1 ∧
    ∃ site args ops, m.ops = .inclusion site target args :: ops

-- A way from one moment to another, with the targets of the inclusions that it goes into, the
-- outermost first.
inductive Nests (m : Moment κ ρ ω) : List String → Moment κ ρ ω → Prop
  | start : Nests m [] m
  | stays {targets : List String} {m₁ m₂ : Moment κ ρ ω} (way : Nests m targets m₁)
    (leads : linker.Leads model m₁ m₂) (depth : m₂.depth = m₁.depth) : Nests m targets m₂
  | enters {targets : List String} {target : String} {m₁ m₂ : Moment κ ρ ω}
    (way : Nests m targets m₁) (enters : linker.Enters model m₁ target m₂) :
    Nests m (targets ++ [target]) m₂

-- A moment of a render, inside of inclusions of these targets.
def ReachesIn (root : ρ) (self : κ) (links : ω) (targets : List String) (m : Moment κ ρ ω) : Prop :=
  ∃ values requests,
    (readParams model root (linker.program self).schema.params).run #[] = (.ok values, requests) ∧
    linker.Nests model
      ⟨self, maxInclusionDepth, (linker.program self).frame values, ⟨requests, #[], links⟩,
        (linker.program self).body⟩ targets m

-- What is run from a moment on, up to the end of its body, fails.
def Fails (m : Moment κ ρ ω) (err : RenderError) : Prop :=
  (exec (Op.runAll model (linker.openerAt model m) m.frame m.ops) m.effects).1 = .error err

variable {linker model} {m m' : Moment κ ρ ω} {targets : List String}

theorem Leads.stays_or_enters (h : linker.Leads model m m') :
    m'.depth = m.depth ∨ ∃ target, linker.Enters model m target m' := by
  cases h with
  | enter first within linked value bound =>
      exact .inr ⟨_, .enter first within linked value bound, within, _, _, _, first⟩
  | _ => exact .inl rfl

theorem exists_nests_iff :
    (∃ targets, linker.Nests model m targets m') ↔ ReflTransGen (linker.Leads model) m m' := by
  constructor
  · rintro ⟨targets, hway⟩
    induction hway with
    | start => exact .refl
    | stays _ leads _ ih => exact ih.tail leads
    | enters _ enters ih => exact ih.tail enters.1
  · intro hreached
    induction hreached with
    | refl => exact ⟨[], .start⟩
    | tail _ hm ih =>
        obtain ⟨targets, hway⟩ := ih
        obtain hdepth | ⟨target, henters⟩ := hm.stays_or_enters
        · exact ⟨targets, .stays hway hm hdepth⟩
        · exact ⟨targets ++ [target], .enters hway henters⟩

theorem exists_reachesIn_iff {root : ρ} {self : κ} {links : ω} :
    (∃ targets, linker.ReachesIn model root self links targets m) ↔
      linker.Reaches model root self links m := by
  simp only [ReachesIn, Reaches, ← exists_nests_iff]
  tauto

-- Each inclusion that is entered uses up one level.
theorem Nests.depth (h : linker.Nests model m targets m') :
    targets.length + m'.depth = m.depth := by
  induction h with
  | start => simp
  | stays _ _ depth ih => rw [depth, ih]
  | enters _ enters ih =>
      have hdepth := enters.2.1
      rw [List.length_append, List.length_singleton]
      omega

theorem ReachesIn.depth {root : ρ} {self : κ} {links : ω}
    (h : linker.ReachesIn model root self links targets m) :
    targets.length + m.depth = maxInclusionDepth := by
  obtain ⟨values, requests, -, hway⟩ := h
  exact hway.depth

end Nesting

section Failure

variable {linker : Linker κ ω} {model : Model ρ} {m m' : Moment κ ρ ω} {err : RenderError}

-- A loop over some items.
theorem exec_loop_of_items {iterable : Formula} {element : Nat} {index : Option Nat}
    {body otherwise : List Op} {items : List (Value ρ)} {requests : Array (Request ρ)}
    (hitems : items ≠ [])
    (hvalue : (iterable.eval model m.frame).run m.effects.requests = (.ok (.list items), requests)) :
    exec ((Op.loop iterable element index body otherwise).run model (linker.openerAt model m)
        m.frame) m.effects =
      exec (Run.forEach (Op.runItem model (linker.openerAt model m) element index body) m.frame 0
        items) (m.effects.asked requests) := by
  rw [Op.exec_loop, hvalue]
  cases items with
  | nil => exact absurd rfl hitems
  | cons v items => rfl

-- The operations that come next fail if the first of them does.
theorem fails_of_first {op : Op} {ops : List Op} (hfirst : m.ops = op :: ops)
    (hop : (exec (op.run model (linker.openerAt model m) m.frame) m.effects).1 = .error err) :
    linker.Fails model m err := by
  rw [Fails, hfirst, Op.runAll, exec_bind]
  generalize exec (op.run model (linker.openerAt model m) m.frame) m.effects = r at hop ⊢
  obtain ⟨_ | _, _⟩ := r
  · exact hop
  · cases hop

-- A failure later in the same body fails this body,
theorem Leads.fails (h : linker.Leads model m m') (hdepth : m'.depth = m.depth)
    (hfails : linker.Fails model m' err) : linker.Fails model m err := by
  cases h with
  | next first ran =>
      rw [Fails, first, Op.runAll, exec_bind, ran]
      exact hfails
  | arm first value holds =>
      refine fails_of_first first ?_
      rw [Op.exec_branch_cons, value]
      simp only [holds]
      exact hfails
  | nextArm first value fails =>
      rw [Fails, first, Op.runAll, exec_bind, Op.exec_branch_cons, value]
      simp only [fails]
      rwa [Fails, Moment.later, Op.runAll, exec_bind] at hfails
  | otherwise first =>
      refine fails_of_first first ?_
      rw [Op.run_branch_nil]
      exact hfails
  | @item _ _ _ body _ _ before after v _ frame e first value ran =>
      refine fails_of_first first ?_
      rw [exec_loop_of_items (by simp) value, Run.forEach_append, exec_bind, ran]
      dsimp only
      rw [Run.forEach, exec_bind, Nat.zero_add]
      have hitem : (exec (Op.runItem model (linker.openerAt model m) _ _ body frame before.length v)
        e).1 = .error err := hfails
      generalize exec (Op.runItem model (linker.openerAt model m) _ _ body frame before.length v)
        e = r at hitem ⊢
      obtain ⟨_ | _, _⟩ := r
      · exact hitem
      · cases hitem
  | empty first value =>
      refine fails_of_first first ?_
      rw [Op.exec_loop, value]
      exact hfails
  | enter first within linked value bound =>
      rw [within] at hdepth
      exact absurd hdepth (Nat.ne_of_lt (Nat.lt_succ_self _))

-- and one in a target fails the body that includes it, under the name of the target.
theorem Enters.fails {target : String} (h : linker.Enters model m target m')
    (hfails : linker.Fails model m' err) : linker.Fails model m (.inside target err) := by
  obtain ⟨hleads, hdepth, site, args, ops, hfirst⟩ := h
  cases hleads with
  | @enter _ _ _ _ depth callee links given requests values first within linked value bound =>
      cases hfirst.symm.trans first
      have hbody : (exec (Op.runAll model (linker.opener model depth callee)
          ((linker.program callee).frame values) (linker.program callee).body)
          ⟨requests, m.effects.pieces, links⟩).1 = .error err := hfails
      refine fails_of_first first ?_
      rw [openerAt, within, linker.exec_inclusion _ linked, value]
      simp only [bound]
      rw [Program.exec_run]
      dsimp only
      rw [hbody]
      rfl
  | _ => simp [Moment.later] at hdepth

-- So a failure is known under the names of all inclusions around it.
theorem Nests.fails {targets : List String} (h : linker.Nests model m targets m')
    (hfails : linker.Fails model m' err) : linker.Fails model m (targets.foldr .inside err) := by
  induction h generalizing err with
  | start => exact hfails
  | stays _ leads depth ih => exact ih (leads.fails depth hfails)
  | enters _ enters ih =>
      rw [List.foldr_append]
      exact ih (enters.fails hfails)

theorem Nests.trans {targets targets' : List String} {m'' : Moment κ ρ ω}
    (h : linker.Nests model m targets m') (h' : linker.Nests model m' targets' m'') :
    linker.Nests model m (targets ++ targets') m'' := by
  induction h' with
  | start => simpa using h
  | stays _ leads depth ih => exact .stays ih leads depth
  | enters _ enters ih =>
      rw [← List.append_assoc]
      exact .enters ih enters

end Failure

section Render

variable {linker : Linker κ ω} {model : Model ρ} {self : κ} {root : ρ} {sink : Sink}
  {requests : Array (Request ρ)}

-- A render whose parameters are read runs the body of its program,
theorem render_of_read {values : List (Value ρ)} (hmode : (linker.program self).mode = sink.mode)
    (hread : (readParams model root (linker.program self).schema.params).run #[] =
      (.ok values, requests)) (links : ω) :
    let x := exec (Op.runAll model (linker.opener model maxInclusionDepth self)
      ((linker.program self).frame values) (linker.program self).body) ⟨requests, #[], links⟩
    render linker self model root sink links =
      ⟨x.1.map fun _ => (), x.2.pieces.toList, sink.appendAll x.2.pieces.toList,
        x.2.requests.toList, x.2.links⟩ := by
  rw [render_of_mode hmode, Linker.run, exec_bind, exec_ofEval, Effects.start, hread]
  dsimp only
  rw [Program.exec_run]

-- and one whose parameters are not does nothing.
theorem render_of_unread {err : RenderError} (hmode : (linker.program self).mode = sink.mode)
    (hread : (readParams model root (linker.program self).schema.params).run #[] =
      (.error err, requests)) (links : ω) :
    render linker self model root sink links =
      ⟨.error err, [], sink.appendAll [], requests.toList, links⟩ := by
  rw [render_of_mode hmode, Linker.run, exec_bind, exec_ofEval, Effects.start, hread]

-- A render does something to the links only from its first moment on.
theorem Tracks.render {I : Moment κ ρ ω → Effects ρ ω → Prop} (h : linker.Tracks model I)
    (self : κ) (root : ρ) (sink : Sink) (links : ω) :
    (Stencil.render linker self model root sink links).links = links ∨
      ∃ values requests e,
        (readParams model root (linker.program self).schema.params).run #[] =
          (.ok values, requests) ∧
        I ⟨self, maxInclusionDepth, (linker.program self).frame values, ⟨requests, #[], links⟩,
          (linker.program self).body⟩ e ∧
        (Stencil.render linker self model root sink links).links = e.links := by
  by_cases hmode : (linker.program self).mode = sink.mode
  · cases hread : (readParams model root (linker.program self).schema.params).run #[] with
    | mk r requests =>
        cases r with
        | error err =>
            rw [render_of_unread hmode hread]
            exact .inl rfl
        | ok values =>
            rw [render_of_read hmode hread]
            exact .inr ⟨values, requests, _, rfl, h.runAll _, rfl⟩
  · exact .inl (by simp only [Stencil.render, hmode, if_false])

-- So what is known of the links stays known.
theorem Minds.render {knows : (κ → Prop) → ω → Prop} (h : linker.Minds knows) {links : ω}
    (hlinks : knows (· = self) links) (model : Model ρ) (root : ρ) (sink : Sink) :
    knows (· = self) (Stencil.render linker self model root sink links).links := by
  obtain hsame | ⟨values, requests, e, -, he, hend⟩ := h.tracks.render self root sink links
  · rw [hsame]
    exact hlinks
  · rw [hend]
    exact he (· = self) rfl (List.Subset.refl _) hlinks

end Render

end Linker

end Stencil
