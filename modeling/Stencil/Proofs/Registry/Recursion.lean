import Stencil.Proofs.Registry.Serving
import Stencil.Proofs.Render.Limit

/-!
Templates may include themselves and each other. Rendering them comes to an end all the same.
-/

namespace Stencil

open Run

namespace Session

variable {ρ : Type} [DecidableEq ρ]

-- No link says that inclusions nest too deep.
theorem unlimited_link (self : Compiled) (site : Nat) (target : String) (s : Session) :
    Unlimited (Session.link self site target s).1 := by
  unfold Session.link
  dsimp only
  split
  · exact .ok _
  · split
    · exact .error id
    · split
      · exact .ok _
      · exact .error id
      · exact .error id

-- Inclusions nest 64 deep at most, whatever includes what. A render has finitely many moments, and
-- leads from none of them on and on; all that it writes is printed at one of them. An inclusion that
-- comes next inside of 64 others fails and does nothing; its error comes out under the names of these
-- 64, the outermost first. No other error says that inclusions nest too deep, unless a method of the
-- model answers with one. A render by name is such a render, or fails because there is no program for
-- the name.
theorem inclusions_bounded (model : Model ρ) (root : ρ) (sink : Sink) :
    (∀ (s : Session) (c : Compiled),
      let r := s.renderProgram c model root sink
      let ReachesIn := linker.ReachesIn model root c s
      (WellFounded fun m' m : Moment Compiled ρ Session => linker.Leads model m m') ∧
      {m | linker.Reaches model root c s m}.Finite ∧
      (∀ m, linker.Reaches model root c s m ↔ ∃ targets, ReachesIn targets m) ∧
      (∀ before p after, r.pieces = before ++ p :: after → ∃ m,
        linker.Reaches model root c s m ∧ m.effects.pieces.toList = before ∧ m.Prints model p) ∧
      (∀ targets m, ReachesIn targets m → targets.length ≤ 64) ∧
      (∀ targets m site target args ops, ReachesIn targets m → targets.length = 64 →
        m.ops = .inclusion site target args :: ops →
        exec ((Op.inclusion site target args).run model (linker.openerAt model m) m.frame)
          m.effects = (.error (.recursionLimit target), m.effects) ∧
        (c.program.mode = sink.mode →
          r.outcome = .error (targets.foldr .inside (.recursionLimit target)))) ∧
      ∀ err, r.outcome = .error err → err.Limited →
        (∃ targets m site target args ops, ReachesIn targets m ∧ targets.length = 64 ∧
          m.ops = .inclusion site target args :: ops ∧
          err = targets.foldr .inside (.recursionLimit target)) ∨
        ∃ (targets : List String) (err' : RenderError), model.Answers err' ∧
          err = targets.foldr .inside err') ∧
    ∀ (s : Session) (name : String), s.registry.isSome →
      ∃ o, s.renderInto name model root sink = some o ∧
        ((∃ e s', s.request (Workshop.getOrCompile ⟨name, sink.mode⟩) = (some (.error e), s') ∧
          o = ⟨.error e, [], s'⟩) ∨
        ∃ c s', s.request (Workshop.getOrCompile ⟨name, sink.mode⟩) = (some (.ok c), s') ∧
          let r := s'.renderProgram c model root sink
          o = ⟨(r.outcome.mapError .render).map fun _ => r.sink, r.requests, r.links⟩) := by
  constructor
  · intro s c r ReachesIn
    have hdepth (targets : List String) (m : Moment Compiled ρ Session) (hm : ReachesIn targets m) :
        targets.length + m.depth = 64 := hm.depth
    refine ⟨linker.wellFounded_leads model, linker.finite_reaches model root c s,
      fun m => Linker.exists_reachesIn_iff.symm, fun _ _ _ => Linker.prints_of_render,
      fun targets m hm => ?_, ?_, ?_⟩
    · have hlevels := hdepth targets m hm
      omega
    · intro targets m site target args ops hm hlength hfirst
      have hlast : m.depth = 0 := by
        have hlevels := hdepth targets m hm
        omega
      exact ⟨Linker.exec_of_limit hlast, hm.outcome hlength hfirst⟩
    · intro err hr hlimited
      exact Linker.outcome_limited unlimited_link hr hlimited
  · intro s name hregistry
    obtain ⟨registry, hregistry⟩ := Option.isSome_iff_exists.mp hregistry
    have hrequest := request_eq hregistry (Workshop.getOrCompile ⟨name, sink.mode⟩)
    generalize (Workshop.getOrCompile ⟨name, sink.mode⟩).run (s.workshop registry) = ran
      at hrequest
    obtain ⟨e | c, w⟩ := ran
    · refine ⟨⟨.error e, [], s.after w⟩, ?_, .inl ⟨e, s.after w, hrequest, rfl⟩⟩
      rw [renderInto, renderKey, hrequest]
    · refine ⟨_, ?_, .inr ⟨c, s.after w, hrequest, rfl⟩⟩
      rw [renderInto, renderKey, hrequest]

-- Two templates that include each other without end.
def endlessLibrary : Library where
  loader := ((MemorySource.empty.insert "ping" "a@template.pong()").insert "pong"
    "b@template.ping()").load
  oracle := Declarations.empty.oracle
  config := .default

theorem inclusions_bounded_endless :
    let s := Session.new endlessLibrary.loader endlessLibrary.oracle endlessLibrary.config
    let model : Model Nat := .ofFields fun _ _ => none
    let sink := Sink.empty .text .plain
    let err := (List.replicate 32 ["pong", "ping"]).flatten.foldr RenderError.inside
      (.recursionLimit "pong")
    ∃ o c s', s.renderInto "ping" model 0 sink = some o ∧ o.result = .error (.render err) ∧
      (s'.renderProgram c model 0 sink).outcome = .error err ∧ err.Limited ∧
      ∃ targets m site target args ops, linker.ReachesIn model 0 c s' targets m ∧
        targets.length = 64 ∧ m.ops = .inclusion site target args :: ops ∧
        err = targets.foldr .inside (.recursionLimit target) := by
  intro s model sink err
  have hshown : (s.renderInto "ping" model 0 sink).map Outcome.result =
      some (.error (.render err)) := by decide +kernel
  obtain ⟨o, ho, hresult⟩ := Option.map_eq_some_iff.mp hshown
  have hmade : (s.request (Workshop.getOrCompile ⟨"ping", .text⟩)).1.map Except.isOk =
      some true := by decide +kernel
  have hlimited : err.Limited := RenderError.limited_foldr.mpr trivial
  obtain ⟨hprogram, hname⟩ := inclusions_bounded model 0 sink
  obtain ⟨o', ho', ⟨e, s', hrequest, -⟩ | ⟨c, s', -, rfl⟩⟩ := hname s "ping" rfl
  · have hfailed : (s.request (Workshop.getOrCompile ⟨"ping", .text⟩)).1.map Except.isOk =
        some false := congrArg (·.1.map Except.isOk) hrequest
    rw [hmade] at hfailed
    cases hfailed
  · obtain rfl := Option.some.inj (ho.symm.trans ho')
    have houtcome : (s'.renderProgram c model 0 sink).outcome = .error err := by
      dsimp only at hresult
      cases hfails : (s'.renderProgram c model 0 sink).outcome with
      | error err' =>
          rw [hfails] at hresult
          exact congrArg Except.error (Failure.render.inj (Except.error.inj hresult))
      | ok _ =>
          rw [hfails] at hresult
          cases hresult
    obtain ⟨-, -, -, -, -, -, honly⟩ := hprogram s' c
    obtain hdeep | ⟨targets, err', ⟨_, _, _, _, hanswer⟩, herr⟩ := honly err houtcome hlimited
    · exact ⟨_, c, s', ho, hresult, houtcome, hlimited, hdeep⟩
    · obtain rfl := Except.error.inj hanswer
      rw [herr, RenderError.limited_foldr] at hlimited
      exact hlimited.elim

end Session

end Stencil
