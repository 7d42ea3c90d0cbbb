import Stencil.Proofs.Output.Content
import Stencil.Proofs.Registry.Reachable

/-!
What a registry has cached does not show. A render by name gives what it gives in a registry that
was never used.
-/

namespace Stencil

-- Pieces that are the same up to where fixed text is cut make the same output.
theorem Sink.appendAll_congr {sink : Sink} {ps ps' qs : List Piece}
    (h : Piece.merged ps = Piece.merged (qs.map (Piece.inMode sink.mode)))
    (h' : Piece.merged ps' = Piece.merged (qs.map (Piece.inMode sink.mode))) :
    sink.appendAll ps = sink.appendAll ps' := by
  cases sink with
  | text s => rw [Sink.appendAll_text h, Sink.appendAll_text h']
  | bytes s => rw [Sink.appendAll_bytes h, Sink.appendAll_bytes h']

namespace Session

variable {lib : Library} {s s' : Session} {ρ : Type} [DecidableEq ρ]

-- What can be seen of a render: the output or the failure, and the requests to the model.
def Outcome.seen (o : Outcome ρ) : Except Failure Sink × List (Request ρ) := (o.result, o.requests)

-- Two programs that a library gives for one key are rendered alike, in sessions of any past.
theorem seen_renderProgram {c c' : Compiled} {t : Template} {sink : Sink}
    (hc : lib.Gives c.program t) (hc' : lib.Gives c'.program t) (hprogram : c.program = c'.program)
    (hs : Knows lib (· = c) s) (hs' : Knows lib (· = c') s') (hmode : c.program.mode = sink.mode)
    (model : Model ρ) (root : ρ) :
    (s.renderProgram c model root sink).outcome = (s'.renderProgram c' model root sink).outcome ∧
      (s.renderProgram c model root sink).requests =
        (s'.renderProgram c' model root sink).requests ∧
      (s.renderProgram c model root sink).sink = (s'.renderProgram c' model root sink).sink := by
  obtain ⟨hfollows, hsink, -⟩ :=
    (linker_serves lib).render (K := (· = c)) hc rfl hs hmode model root
  obtain ⟨hfollows', hsink', -⟩ :=
    (linker_serves lib).render (K := (· = c')) hc' rfl hs' (hprogram ▸ hmode) model root
  have hmeaning : (linker.program c).schema = (linker.program c').schema :=
    congrArg Program.schema hprogram
  rw [← hmeaning] at hfollows'
  refine ⟨hfollows.outcome.trans hfollows'.outcome.symm,
    hfollows.requests.trans hfollows'.requests.symm, ?_⟩
  calc (s.renderProgram c model root sink).sink
      = sink.appendAll (s.renderProgram c model root sink).pieces := hsink
    _ = sink.appendAll (s'.renderProgram c' model root sink).pieces :=
        Sink.appendAll_congr hfollows.pieces hfollows'.pieces
    _ = (s'.renderProgram c' model root sink).sink := hsink'.symm

-- Renders of one key in two sessions that use led to.
theorem Reachable.seen_renderKey (h : Reachable lib s) (h' : Reachable lib s') {key : Key}
    {sink : Sink} (hmode : key.mode = sink.mode) (model : Model ρ) (root : ρ) :
    ∃ o o', s.renderKey key model root sink = some o ∧ s'.renderKey key model root sink = some o' ∧
      o.seen = o'.seen := by
  unfold renderKey
  cases hp : lib.program key with
  | error e =>
      obtain ⟨_, hrequest⟩ := h.request_of_failure hp
      obtain ⟨_, hrequest'⟩ := h'.request_of_failure hp
      rw [hrequest, hrequest']
      exact ⟨_, _, rfl, rfl, rfl⟩
  | ok p =>
      obtain ⟨t, -, ht, -⟩ := Library.parts_of_program hp
      obtain ⟨c, _, hrequest, rfl, hgives, hknows⟩ := h.request_of_program hp ht
      obtain ⟨c', _, hrequest', hc', hgives', hknows'⟩ := h'.request_of_program hp ht
      have hprogram : c.program.mode = sink.mode :=
        (congrArg Key.mode (Library.key_of_program hp)).trans hmode
      obtain ⟨houtcome, hrequests, hsink⟩ :=
        seen_renderProgram hgives hgives' hc'.symm hknows hknows' hprogram model root
      rw [hrequest, hrequest']
      exact ⟨_, _, rfl, rfl, by simp only [Outcome.seen, houtcome, hrequests, hsink]⟩

-- A render by name is a use of the registry like others.
theorem Reachable.renderKey (h : Reachable lib s) {key : Key} {model : Model ρ} {root : ρ}
    {sink : Sink} {o : Outcome ρ} (ho : s.renderKey key model root sink = some o) :
    Reachable lib o.session := by
  have hafter := h.program key
  obtain ⟨cat, hserves⟩ := h.serves
  obtain ⟨r, hr⟩ := hserves.registered
  unfold Session.renderKey at ho
  rw [request_eq hr] at ho hafter
  generalize hrun : (Workshop.getOrCompile key).run (s.workshop r) = x at ho hafter
  obtain ⟨result, w⟩ := x
  cases result with
  | error e =>
      obtain rfl := Option.some.inj ho
      exact hafter
  | ok c =>
      obtain rfl := Option.some.inj ho
      have hheld : (s.after w).Holds c :=
        .inr ⟨w.registry, key, rfl, Workshop.find?_of_run_obtain hrun⟩
      exact hafter.render model root sink hheld

theorem Reachable.renderFresh_eq (h : Reachable lib s) (name : String) (mode : Mode)
    (model : Model ρ) (root : ρ) :
    s.renderFresh name mode model root =
      s.renderInto name model root (.empty mode lib.config.contentType) := by
  obtain ⟨cat, hserves⟩ := h.serves
  obtain ⟨r, hr⟩ := hserves.registered
  have hconfig : r.config = lib.config := (hserves.parses hr).config
  simp only [renderFresh, hr, ← hconfig]
  rfl

-- Caching is transparent. After any use of a registry, a render by name gives the output or the
-- failure that it gives in a registry never used, with the same requests to the model. This holds
-- of renders into new sinks and into sinks at hand, and both are uses of the registry again.
theorem render_as_fresh (h : Reachable lib s) (name : String) (model : Model ρ) (root : ρ) :
    let fresh := Session.new lib.loader lib.oracle lib.config
    (∀ mode, ∃ o o', s.renderFresh name mode model root = some o ∧
      fresh.renderFresh name mode model root = some o' ∧
      o.result = o'.result ∧ o.requests = o'.requests ∧ Reachable lib o.session) ∧
    ∀ sink, ∃ o o', s.renderInto name model root sink = some o ∧
      fresh.renderInto name model root sink = some o' ∧
      o.result = o'.result ∧ o.requests = o'.requests ∧ Reachable lib o.session := by
  intro fresh
  have hfresh : Reachable lib fresh := .new
  have hinto (sink : Sink) : ∃ o o', s.renderInto name model root sink = some o ∧
      fresh.renderInto name model root sink = some o' ∧
      o.result = o'.result ∧ o.requests = o'.requests ∧ Reachable lib o.session := by
    have hmode : (⟨name, sink.mode⟩ : Key).mode = sink.mode := rfl
    obtain ⟨o, o', ho, ho', hseen⟩ := h.seen_renderKey hfresh hmode model root
    obtain ⟨hresult, hrequests⟩ := Prod.mk.inj hseen
    exact ⟨o, o', ho, ho', hresult, hrequests, h.renderKey ho⟩
  refine ⟨fun mode => ?_, hinto⟩
  rw [h.renderFresh_eq, hfresh.renderFresh_eq]
  exact hinto _

-- A page and a part that include each other, and a template that does not compile.
def roundLibrary : Library where
  loader :=
    let source := MemorySource.empty.insert "page" "@param int n\n<@template.part(n)>"
    let source := source.insert "part" "@param int n\n@if(n > 0)${n}@template.page(n - 1)@end"
    (source.insert "broken" "@template.part()").load
  oracle := Declarations.empty.oracle
  config := .default

theorem render_as_fresh_round :
    let s := Session.new roundLibrary.loader roundLibrary.oracle roundLibrary.config
    let s := (s.request (Workshop.schema "part")).2
    let s := (s.request (Workshop.getOrCompile ⟨"broken", .text⟩)).2
    let s := (s.request (Workshop.getOrCompile ⟨"part", .bytes⟩)).2
    let model : Model Nat := .ofFields fun _ _ => some (.int 2)
    let fresh := Session.new roundLibrary.loader roundLibrary.oracle roundLibrary.config
    Reachable roundLibrary s ∧
    ∃ o o', s.renderFresh "page" .bytes model 0 = some o ∧
      fresh.renderFresh "page" .bytes model 0 = some o' ∧
      o.result = o'.result ∧ o.requests = o'.requests ∧
      o'.result = .ok (.bytes ⟨.html, Text.encode "<2<1<>>>"⟩) := by
  intro s₀ s₁ s₂ s model fresh
  have hs : Reachable roundLibrary s :=
    ((Reachable.new.schema "part").program ⟨"broken", .text⟩).program ⟨"part", .bytes⟩
  have hshown : (fresh.renderFresh "page" .bytes model 0).map Outcome.result =
      some (.ok (.bytes ⟨.html, Text.encode "<2<1<>>>"⟩)) := by decide +kernel
  obtain ⟨o, o', ho, ho', hresult, hrequests, -⟩ :=
    (render_as_fresh hs "page" model 0).1 .bytes
  rw [ho'] at hshown
  exact ⟨hs, o, o', ho, ho', hresult, hrequests, Option.some.inj hshown⟩

end Session

end Stencil
