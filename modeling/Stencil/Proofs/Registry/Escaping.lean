import Stencil.Proofs.Output.Escaping
import Stencil.Proofs.Registry.Composition
import Stencil.Proofs.Registry.Transparent
import Stencil.Proofs.Render.Printing

/-!
Escaping cannot be got around. Where no template asks for a value as it is, the output is fixed text
and escaped values, also where templates include each other, and values add no markup to it.
-/

namespace Stencil

open Relation Run

-- Output of fixed text and escaped values. Each piece is printed at a moment of the run at which
-- just those before it had been, by the operation that comes next then; `origin` says of the program
-- that is executed at that moment where it has the operation from.
structure Linker.Escapes {ρ κ ω : Type} [DecidableEq ρ] (linker : Linker κ ω) (model : Model ρ)
    (root : ρ) (self : κ) (links : ω) (sink : Sink) (origin : κ → Op → Prop)
    (r : Rendering ρ ω) : Prop where
  appended : r.sink = sink.appendAll r.pieces
  printed : ∀ {before p after}, r.pieces = before ++ p :: after → (∀ s, p ≠ .raw s) ∧
    ∃ m op, linker.Reaches model root self links m ∧ m.effects.pieces.toList = before ∧
      m.ops.head? = some op ∧ m.Prints model p ∧ origin m.self op
  delimiters : r.sink.delimiters = (sink.appendAll (r.pieces.filter Piece.isLiteral)).delimiters

section Render

variable {ρ κ ω : Type} [DecidableEq ρ] {linker : Linker κ ω} {model : Model ρ} {root : ρ}
  {self : κ} {links : ω} {sink : Sink}

-- What prints at a moment stands in the program that is executed.
theorem Moment.Prints.leaf {m : Moment κ ρ ω} {p : Piece} (h : m.Prints model p) :
    ∃ op, m.ops.head? = some op ∧ op ∈ Op.leavesOfAll m.ops ∧
      ((∃ s, p = .raw s) → ∃ code, op = .raw code) := by
  cases h with
  | @literal t _ first =>
      rw [first]
      exact ⟨_, rfl, List.mem_cons_self, fun ⟨_, hraw⟩ => nomatch hraw⟩
  | escaped first _ _ =>
      rw [first]
      exact ⟨_, rfl, List.mem_cons_self, fun ⟨_, hraw⟩ => nomatch hraw⟩
  | raw first _ _ =>
      rw [first]
      exact ⟨_, rfl, List.mem_cons_self, fun _ => ⟨_, rfl⟩⟩

theorem Linker.escapes_render {origin : κ → Op → Prop} (hhtml : sink.contentType = .html)
    (hraw : ∀ m, linker.Reaches model root self links m → (linker.program m.self).NoRaw)
    (horigin : ∀ m op, linker.Reaches model root self links m →
      op ∈ (linker.program m.self).leaves → origin m.self op) :
    linker.Escapes model root self links sink origin
      (render linker self model root sink links) := by
  have hprinted : ∀ {before p after},
      (render linker self model root sink links).pieces = before ++ p :: after →
      (∀ s, p ≠ .raw s) ∧
        ∃ m op, linker.Reaches model root self links m ∧ m.effects.pieces.toList = before ∧
          m.ops.head? = some op ∧ m.Prints model p ∧ origin m.self op := by
    intro before p after hps
    obtain ⟨m, hreached, hbefore, hp⟩ := prints_of_render hps
    obtain ⟨op, hop, hleaf, hcode⟩ := hp.leaf
    have hstands := hreached.leaves hleaf
    refine ⟨fun s hs => ?_, m, op, hreached, hbefore, hop, hp, horigin m op hreached hstands⟩
    obtain ⟨code, rfl⟩ := hcode ⟨s, hs⟩
    exact hraw m hreached code hstands
  refine ⟨Rendering.sink_render, hprinted, ?_⟩
  rw [Rendering.sink_render]
  refine Sink.delimiters_of_literals hhtml fun s hs => ?_
  obtain ⟨before, after, hps⟩ := List.append_of_mem hs
  exact (hprinted hps).1 s rfl

end Render

-- A template includes another one, by an inclusion that stands in it.
def Library.Includes (lib : Library) (name target : String) : Prop :=
  ∃ t, lib.template name = .ok t ∧ target ∈ t.template.targets

namespace Session

variable {lib : Library} {s : Session}

-- A program for the mode of a key, of a template that the one of the key includes in some way.
def Under (lib : Library) (key : Key) (c : Compiled) : Prop :=
  ReflTransGen lib.Includes key.name c.program.name ∧ c.program.mode = key.mode

-- What stands in such a program comes from its template.
def Stems (lib : Library) (key : Key) (c : Compiled) (op : Op) : Prop :=
  Under lib key c ∧ op ∈ c.program.leaves ∧ ∃ t, lib.template c.program.name = .ok t ∧
    op.Stems lib.oracle key.mode t.template.runs t.template.nodes

-- Inclusions lead from one such program to others.
theorem linker_minds (lib : Library) (key : Key) :
    linker.Minds fun K s => Knows lib K s ∧ ∀ c, K c → Under lib key c where
  forget := by
    rintro K K' s hK' ⟨⟨cat, hserves, hK⟩, hunder⟩
    exact ⟨⟨cat, hserves, fun c hc => hK c (hK' c hc)⟩, fun c hc => hunder c (hK' c hc)⟩
  found := by
    rintro K s s' self site target args callee ⟨hknows, hunder⟩ hself hleaf hlink
    obtain ⟨hknows', hprogram, hincludes⟩ :=
      hknows.linked hself (Op.mem_inclusionsOfAll_of_leaf _ hleaf) hlink
    have hname : callee.program.name = target :=
      congrArg Key.name (Library.key_of_program hprogram)
    have hsame : callee.program.mode = self.program.mode :=
      congrArg Key.mode (Library.key_of_program hprogram)
    obtain ⟨hpath, hmode⟩ := hunder self hself
    refine ⟨hknows', ?_⟩
    rintro c (hc | rfl)
    · exact hunder c hc
    · exact ⟨hname ▸ hpath.tail hincludes, hsame.trans hmode⟩
  missing := by
    rintro K s s' self site target args err ⟨hknows, hunder⟩ hself hleaf hlink
    exact ⟨hknows.unresolved hself (Op.mem_inclusionsOfAll_of_leaf _ hleaf) hlink, hunder⟩

variable {ρ : Type} [DecidableEq ρ] {model : Model ρ} {root : ρ} {sink : Sink}

-- The program that is executed at a moment of a render, and the template that it is made from.
theorem parts_of_reaches {key : Key} {c : Compiled} (hknows : Knows lib (· = c) s)
    (hc : Under lib key c) {m : Moment Compiled ρ Session}
    (hm : linker.Reaches model root c s m) :
    Under lib key m.self ∧ ∃ t checked, lib.template m.self.program.name = .ok t ∧
      t.template.Elaborates lib.context checked ∧
      m.self.program = checked.program m.self.program.name key.mode := by
  have hknown : Knows lib (· = c) s ∧ ∀ c', c' = c → Under lib key c' :=
    ⟨hknows, fun _ h => h ▸ hc⟩
  obtain ⟨K, hself, ⟨cat, hserves, hK⟩, hunder⟩ :=
    (linker_minds lib key).knows_of_reaches hknown hm
  obtain ⟨t, checked, ht, -, hcheck, hprogram⟩ :=
    Library.parts_of_program (hserves.made (hK _ hself))
  have hmode : m.self.program.mode = key.mode := (hunder _ hself).2
  rw [hmode] at hprogram
  exact ⟨hunder _ hself, t, checked, ht, t.elaborates_of_check hcheck, hprogram⟩

theorem noRaw_of_reaches {key : Key} {c : Compiled}
    (hraw : ∀ other t, ReflTransGen lib.Includes key.name other → lib.template other = .ok t →
      t.template.NoRaw)
    (hknows : Knows lib (· = c) s) (hc : Under lib key c) {m : Moment Compiled ρ Session}
    (hm : linker.Reaches model root c s m) : m.self.program.NoRaw := by
  obtain ⟨hunder, t, checked, ht, helaborates, hprogram⟩ := parts_of_reaches hknows hc hm
  rw [hprogram]
  exact helaborates.noRaw (hraw _ t hunder.1 ht)

theorem stems_of_reaches {key : Key} {c : Compiled} (hknows : Knows lib (· = c) s)
    (hc : Under lib key c) {m : Moment Compiled ρ Session}
    (hm : linker.Reaches model root c s m) {op : Op} (hop : op ∈ m.self.program.leaves) :
    Stems lib key m.self op := by
  obtain ⟨hunder, t, checked, ht, helaborates, hprogram⟩ := parts_of_reaches hknows hc hm
  refine ⟨hunder, hop, t, ht, ?_⟩
  rw [hprogram] at hop
  exact helaborates.stems op hop

-- A program given for a key is one itself.
theorem Reachable.under_of_request (h : Reachable lib s) {key : Key} {c : Compiled} {s' : Session}
    (hrequest : s.request (Workshop.getOrCompile key) = (some (.ok c), s')) :
    Under lib key c ∧ Knows lib (· = c) s' := by
  obtain ⟨t, checked, -, -, hprogram, -, hknows⟩ := h.parts_of_request hrequest
  refine ⟨?_, hknows⟩
  rw [Under, hprogram]
  exact ⟨.refl, rfl⟩

-- What is rendered to a sink for markup is fixed text and escaped values, each in its place, unless
-- a program that is executed prints a value as it is. In a registry it is enough that no template
-- does so that the rendered one includes, directly or not: then all that is printed comes from runs
-- of text in these templates and from interpolations in them, and each value is escaped once, where
-- it is printed. In all the output no character delimits markup but those of the fixed text.
theorem output_escaped (model : Model ρ) (root : ρ) :
    (∀ (s : Session) (c : Compiled) (sink : Sink), sink.contentType = .html →
      (∀ m, linker.Reaches model root c s m → m.self.program.NoRaw) →
      linker.Escapes model root c s sink (fun c op => op ∈ c.program.leaves)
        (s.renderProgram c model root sink)) ∧
    ∀ (lib : Library) (s : Session) (name : String), Reachable lib s →
      (∀ other t, ReflTransGen lib.Includes name other → lib.template other = .ok t →
        t.template.NoRaw) →
      ∀ (sink sink' : Sink) (o : Outcome ρ), sink.contentType = .html →
        (s.renderInto name model root sink = some o ∨
          ∃ mode, sink = .empty mode lib.config.contentType ∧
            s.renderFresh name mode model root = some o) →
        o.result = .ok sink' →
        ∃ c s', s.request (Workshop.getOrCompile ⟨name, sink.mode⟩) = (some (.ok c), s') ∧
          (s'.renderProgram c model root sink).sink = sink' ∧
          linker.Escapes model root c s' sink (Stems lib ⟨name, sink.mode⟩)
            (s'.renderProgram c model root sink) := by
  refine ⟨fun s c sink hhtml hraw => ?_, ?_⟩
  · exact Linker.escapes_render hhtml hraw fun m op _ hop => hop
  · intro lib s name hs hraw sink sink' o hhtml hrendered hresult
    have hinto : s.renderInto name model root sink = some o := by
      obtain hinto | ⟨mode, rfl, hfresh⟩ := hrendered
      · exact hinto
      · exact (hs.renderFresh_eq name mode model root).symm.trans hfresh
    unfold renderInto renderKey at hinto
    generalize hrequest : s.request (Workshop.getOrCompile ⟨name, sink.mode⟩) = given at hinto
    obtain ⟨_ | _ | c, s'⟩ := given
    · cases hinto
    · obtain rfl := Option.some.inj hinto
      cases hresult
    · obtain rfl := Option.some.inj hinto
      have hsink : (s'.renderProgram c model root sink).sink = sink' := by
        dsimp only at hresult
        cases houtcome : (s'.renderProgram c model root sink).outcome with
        | error err =>
            rw [houtcome] at hresult
            cases hresult
        | ok _ =>
            rw [houtcome] at hresult
            exact Except.ok.inj hresult
      obtain ⟨hc, hknows⟩ := hs.under_of_request hrequest
      refine ⟨c, s', rfl, hsink, Linker.escapes_render hhtml ?_ ?_⟩
      · exact fun m hm => noRaw_of_reaches hraw hknows hc hm
      · exact fun m op hm hop => stems_of_reaches hknows hc hm hop

-- A page that hands what it is given on to a part.
def greetingLibrary : Library where
  loader :=
    let source := MemorySource.empty.insert "page" "@param string who\n<p>@template.part(who)</p>"
    (source.insert "part" "@param string who\n<b title='${who}'>").load
  oracle := Declarations.empty.oracle
  config := .default

theorem output_escaped_greeting :
    let s := Session.new greetingLibrary.loader greetingLibrary.oracle greetingLibrary.config
    let model : Model Nat := .ofFields fun _ _ => some (.text "<'&\">")
    let sink := Sink.empty .bytes .html
    ∃ o c s', s.renderInto "page" model 0 sink = some o ∧
      o.result = .ok (.bytes ⟨.html,
        Text.encode "<p><b title='&lt;&#39;&amp;&quot;&gt;'></p>"⟩) ∧
      linker.Escapes model 0 c s' sink (Stems greetingLibrary ⟨"page", .bytes⟩)
        (s'.renderProgram c model 0 sink) ∧
      linker.Escapes model 0 c s' sink (fun c op => op ∈ c.program.leaves)
        (s'.renderProgram c model 0 sink) := by
  intro s model sink
  have hpage : (greetingLibrary.template "page").toOption.map
      (fun t => (t.template.targets, decide t.template.NoRaw)) = some (["part"], true) := by
    decide +kernel
  have hpart : (greetingLibrary.template "part").toOption.map
      (fun t => (t.template.targets, decide t.template.NoRaw)) = some ([], true) := by
    decide +kernel
  have hnames : ∀ other, ReflTransGen greetingLibrary.Includes "page" other →
      other = "page" ∨ other = "part" := by
    intro other hpath
    induction hpath with
    | refl => exact .inl rfl
    | tail _ hstep ih =>
        obtain ⟨t, ht, htarget⟩ := hstep
        obtain rfl | rfl := ih
        · rw [ht] at hpage
          rw [(Prod.mk.inj (Option.some.inj hpage)).1] at htarget
          exact .inr (List.mem_singleton.mp htarget)
        · rw [ht] at hpart
          rw [(Prod.mk.inj (Option.some.inj hpart)).1] at htarget
          cases htarget
  have hraw : ∀ other t, ReflTransGen greetingLibrary.Includes "page" other →
      greetingLibrary.template other = .ok t → t.template.NoRaw := by
    intro other t hpath ht
    obtain rfl | rfl := hnames other hpath
    · rw [ht] at hpage
      exact of_decide_eq_true (Prod.mk.inj (Option.some.inj hpage)).2
    · rw [ht] at hpart
      exact of_decide_eq_true (Prod.mk.inj (Option.some.inj hpart)).2
  have hshown : (s.renderInto "page" model 0 sink).map Outcome.result =
      some (.ok (.bytes ⟨.html,
        Text.encode "<p><b title='&lt;&#39;&amp;&quot;&gt;'></p>"⟩)) := by decide +kernel
  obtain ⟨o, ho, hresult⟩ := Option.map_eq_some_iff.mp hshown
  have hs : Reachable greetingLibrary s := .new
  obtain ⟨hprogram, hregistry⟩ := output_escaped model 0
  obtain ⟨c, s', hrequest, -, hescapes⟩ :=
    hregistry greetingLibrary s "page" hs hraw sink _ o rfl (.inl ho) hresult
  obtain ⟨hc, hknows⟩ := hs.under_of_request hrequest
  exact ⟨o, c, s', ho, hresult, hescapes,
    hprogram s' c sink rfl fun m hm => noRaw_of_reaches hraw hknows hc hm⟩

end Session

end Stencil
