import Mathlib.Data.Set.Card
import Stencil.Proofs.Registry.Lasting
import Stencil.Proofs.Render.Links

/-!
One registry over any use: a program is published at most once for each key and then given for ever,
failures publish nothing, and what was parsed is not loaded again.
-/

namespace Stencil

open Relation

theorem Registry.isCompiled_iff_mem {r : Registry} {key : Key} :
    r.isCompiled key = true ↔ key ∈ r.published.map (·.1) := by
  rw [isCompiled, Option.isSome_iff_ne_none, ne_eq, find?_eq_none_iff, not_not]

theorem Registry.counted_new (number : Nat) (oracle : Oracle) (config : Config) :
    (Registry.new number oracle config).Counted :=
  ⟨rfl, List.nodup_nil⟩

-- The number of programs made is the number of keys that have one.
theorem Registry.Counted.encard {r : Registry} (h : r.Counted) :
    {key | r.isCompiled key = true}.encard = r.compileCount := by
  have hset : {key | r.isCompiled key = true} =
      ((r.published.map (·.1)).toFinset : Set Key) := by
    ext key
    simpa using isCompiled_iff_mem
  rw [hset, Set.encard_coe_eq_coe_finsetCard, List.toFinset_card_of_nodup h.keys, List.length_map,
    h.count]

-- A supplier that does not use the registry itself. It may make any program, or fail.
def Workshop.Aloof (supplier : Workshop.Request (Option Nat × Program)) : Prop :=
  ∀ w, (supplier.run w).2 = w

-- What may be run for a key that has no program.
def Workshop.Suppliers (key : Key) : Set (Workshop.Request (Option Nat × Program)) :=
  {supplier | supplier = Workshop.compile key ∨ Workshop.Aloof supplier}

namespace Session

variable {s s' s'' : Session} {r : Registry}

-- One use of a registry: a request or a render, the linking of an inclusion that is a part of a
-- render, or something that does not concern the registry at all, such as a change of the source.
inductive Operation (s : Session) : Session → Prop
  | template (name : String) : Operation s (s.request (Workshop.template name)).2
  | schema (name : String) : Operation s (s.request (Workshop.schema name)).2
  | obtain {key : Key} {supplier : Workshop.Request (Option Nat × Program)}
    (allowed : supplier ∈ Workshop.Suppliers key) :
    Operation s (s.request (Workshop.obtain key supplier)).2
  | renderFresh {ρ : Type} [DecidableEq ρ] (name : String) (mode : Mode) (model : Model ρ)
    (root : ρ) {o : Outcome ρ} (gives : s.renderFresh name mode model root = some o) :
    Operation s o.session
  | renderInto {ρ : Type} [DecidableEq ρ] (name : String) (model : Model ρ) (root : ρ)
    (sink : Sink) {o : Outcome ρ} (gives : s.renderInto name model root sink = some o) :
    Operation s o.session
  | renderProgram {ρ : Type} [DecidableEq ρ] (c : Compiled) (model : Model ρ) (root : ρ)
    (sink : Sink) : Operation s (s.renderProgram c model root sink).links
  | link (self : Compiled) (index : Nat) (target : String) :
    Operation s (Session.link self index target s).2
  | keep (name : String) (c : Compiled) : Operation s (s.keep name c)
  | forget (name : String) : Operation s (s.forget name)
  | withLoader (loader : Loader) : Operation s (s.withLoader loader)

theorem Operation.getOrCompile (key : Key) :
    Operation s (s.request (Workshop.getOrCompile key)).2 :=
  .obtain (.inl rfl)

-- Programs given by a caller come from suppliers that do not use the registry.
theorem Operation.getOrCompileWith (key : Key) (made : Except Failure Program) :
    Operation s (s.request (Workshop.getOrCompileWith key made)).2 := by
  refine .obtain (.inr fun w => ?_)
  cases made <;> rfl

abbrev Uses : Session → Session → Prop := ReflTransGen Operation

-- One state of the registry and a later one, if the source has not changed.
def Lasts (s s' : Session) : Prop :=
  ∀ r, s.registry = some r → ∃ r', s'.registry = some r' ∧ (s.workshop r).Lasts (s'.workshop r')

theorem Lasts.refl (s : Session) : Lasts s s := fun r hr => ⟨r, hr, .refl _⟩

theorem Lasts.trans (h : Lasts s s') (h' : Lasts s' s'') : Lasts s s'' := by
  intro r hr
  obtain ⟨r', hr', hlasts⟩ := h r hr
  obtain ⟨r'', hr'', hlasts'⟩ := h' r' hr'
  exact ⟨r'', hr'', hlasts.trans hlasts'⟩

theorem workshop_after {w : Workshop} (h : w.loader = s.loader) :
    (s.after w).workshop w.registry = w := by
  rw [workshop, after, ← h]

theorem lasts_request {α : Type} {x : Workshop.Request α}
    (h : ∀ w, Workshop.Lasts w (x.run w).2) (s : Session) : Lasts s (s.request x).2 := by
  intro r hr
  have hlasts := h (s.workshop r)
  rw [request_eq hr]
  refine ⟨_, rfl, ?_⟩
  rw [workshop_after (congrArg Library.loader hlasts.library)]
  exact hlasts

theorem reads_supplier {key : Key} {supplier : Workshop.Request (Option Nat × Program)}
    (h : supplier ∈ Workshop.Suppliers key) (w : Workshop) :
    Workshop.Reads w (supplier.run w).2 := by
  obtain rfl | haloof := h
  · exact Workshop.persists_reads.compile w key
  · rw [haloof w]
    exact .refl w

theorem lasts_obtain {key : Key} {supplier : Workshop.Request (Option Nat × Program)}
    (h : supplier ∈ Workshop.Suppliers key) (s : Session) :
    Lasts s (s.request (Workshop.obtain key supplier)).2 :=
  lasts_request (fun w => Workshop.lasts_obtain (reads_supplier h w)) s

theorem lasts_getOrCompile (key : Key) (s : Session) :
    Lasts s (s.request (Workshop.getOrCompile key)).2 :=
  lasts_obtain (.inl rfl) s

-- Linking asks for a program at most, and may note what it gave.
theorem link_cases (self : Compiled) (index : Nat) (target : String) (s : Session) :
    (Session.link self index target s).2 = s ∨
      ∃ links, (Session.link self index target s).2 =
        { (s.request (Workshop.getOrCompile ⟨target, self.program.mode⟩)).2 with links := links } := by
  unfold Session.link
  dsimp only
  cases (s.links.lookup ⟨self.serial, index⟩).filter s.isAlive with
  | some callee => exact .inl rfl
  | none =>
      cases s.home? self with
      | none => exact .inl rfl
      | some r =>
          generalize s.request (Workshop.getOrCompile ⟨target, self.program.mode⟩) = given
          obtain ⟨_ | _ | callee, s'⟩ := given
          · exact .inr ⟨s'.links, rfl⟩
          · exact .inr ⟨s'.links, rfl⟩
          · exact .inr ⟨_, rfl⟩

theorem lasts_link (self : Compiled) (index : Nat) (target : String) (s : Session) :
    Lasts s (Session.link self index target s).2 := by
  obtain hsame | ⟨links, hlink⟩ := link_cases self index target s
  · rw [hsame]
    exact .refl s
  · rw [hlink]
    exact lasts_getOrCompile ⟨target, self.program.mode⟩ s

-- So does a render, which links one inclusion after the other.
theorem lasts_renderProgram {ρ : Type} [DecidableEq ρ] (c : Compiled) (model : Model ρ) (root : ρ)
    (sink : Sink) (s : Session) : Lasts s (s.renderProgram c model root sink).links := by
  have hsteps : ReflTransGen linker.Links s (s.renderProgram c model root sink).links :=
    linker.steps_render c model root sink s
  generalize (s.renderProgram c model root sink).links = s' at hsteps ⊢
  induction hsteps with
  | refl => exact .refl s
  | tail _ hlink ih =>
      obtain ⟨self, site, target, rfl⟩ := hlink
      exact ih.trans (lasts_link self site target _)

theorem lasts_renderKey {ρ : Type} [DecidableEq ρ] {key : Key} {model : Model ρ} {root : ρ}
    {sink : Sink} {o : Outcome ρ} (h : s.renderKey key model root sink = some o) :
    Lasts s o.session := by
  have hrequest := lasts_getOrCompile key s
  unfold renderKey at h
  generalize s.request (Workshop.getOrCompile key) = given at h hrequest
  obtain ⟨_ | _ | c, s'⟩ := given
  · cases h
  · cases h
    exact hrequest
  · cases h
    exact hrequest.trans (lasts_renderProgram c model root sink s')

-- Only a change of the source makes a difference to what is read.
theorem Operation.cases (h : Operation s s') : Lasts s s' ∨ ∃ loader, s' = s.withLoader loader := by
  cases h with
  | template name => exact .inl (lasts_request (fun w => (w.reads_template name).toLasts) s)
  | schema name =>
      exact .inl (lasts_request (fun w => (Workshop.persists_reads.schema w name).toLasts) s)
  | obtain allowed => exact .inl (lasts_obtain allowed s)
  | renderFresh name mode model root gives =>
      obtain ⟨r, -, gives⟩ := Option.bind_eq_some_iff.mp gives
      exact .inl (lasts_renderKey gives)
  | renderInto name model root sink gives => exact .inl (lasts_renderKey gives)
  | renderProgram c model root sink => exact .inl (lasts_renderProgram c model root sink s)
  | link self index target => exact .inl (lasts_link self index target s)
  | keep name c => exact .inl fun r hr => ⟨r, hr, .refl _⟩
  | forget name => exact .inl fun r hr => ⟨r, hr, .refl _⟩
  | withLoader loader => exact .inr ⟨loader, rfl⟩

-- What was loaded in one operation: only names without a template. Those that can be read have one
-- afterwards, and were loaded once.
theorem Operation.loaded (h : Operation s s') (hr : s.registry = some r) :
    ∃ r' names, s'.registry = some r' ∧ (s.workshop r).Loaded (s'.workshop r') names := by
  obtain hlasts | ⟨loader, rfl⟩ := h.cases
  · obtain ⟨r', hr', hlasts⟩ := hlasts r hr
    obtain ⟨names, hnames⟩ := hlasts.loaded
    exact ⟨r', names, hr', hnames⟩
  · exact ⟨r, [], hr, Workshop.loaded_none rfl⟩

-- One state of the registry and any later one.
structure Remembers (s : Session) (r : Registry) (s' : Session) (r' : Registry) : Prop where
  published : ∀ {key c}, r.find? key = some c → r'.find? key = some c
  counted : r.Counted → r'.Counted
  parsed : ∀ {name t}, r.parsed? name = some t → r'.parsed? name = some t
  loads : ∃ names, s'.loads = names ++ s.loads ∧ ∀ name ∈ names, r.parsed? name = none

theorem Operation.remembers (h : Operation s s') (hr : s.registry = some r) :
    ∃ r', s'.registry = some r' ∧ Remembers s r s' r' := by
  obtain hlasts | ⟨loader, rfl⟩ := h.cases
  · obtain ⟨r', hr', hlasts⟩ := hlasts r hr
    obtain ⟨names, hnames⟩ := hlasts.loaded
    exact ⟨r', hr', hlasts.published, hlasts.counted, hlasts.parsed, names, hnames.loads,
      hnames.unparsed⟩
  · exact ⟨r, hr, id, id, id, [], rfl, fun _ hmem => nomatch hmem⟩

theorem Uses.remembers (h : Uses s s') (hr : s.registry = some r) :
    ∃ r', s'.registry = some r' ∧ Remembers s r s' r' := by
  induction h with
  | refl => exact ⟨r, hr, id, id, id, [], rfl, fun _ hmem => nomatch hmem⟩
  | tail _ hlast ih =>
      obtain ⟨r₁, hr₁, hfirst⟩ := ih
      obtain ⟨r₂, hr₂, hthen⟩ := hlast.remembers hr₁
      obtain ⟨names, hloads, hnames⟩ := hfirst.loads
      obtain ⟨names', hloads', hnames'⟩ := hthen.loads
      refine ⟨r₂, hr₂, fun hc => hthen.published (hfirst.published hc),
        fun hc => hthen.counted (hfirst.counted hc), fun ht => hthen.parsed (hfirst.parsed ht),
        names' ++ names, by rw [hloads', hloads, List.append_assoc], fun name hmem => ?_⟩
      obtain hmem | hmem := List.mem_append.mp hmem
      · have hlater := hnames' name hmem
        cases hparsed : r.parsed? name with
        | none => rfl
        | some t =>
            rw [hfirst.parsed hparsed] at hlater
            cases hlater
      · exact hnames name hmem

-- Requests for the key give this program and do nothing else, whatever their supplier is.
def Settled (s : Session) (key : Key) (c : Compiled) : Prop :=
  ∀ supplier, s.request (Workshop.obtain key supplier) = (some (.ok c), s)

-- Requests for the key run their supplier, and publish what it makes.
def Pending (s : Session) (r : Registry) (key : Key) : Prop :=
  ∀ supplier, s.request (Workshop.obtain key supplier) =
    match supplier.run (s.workshop r) with
    | (.ok (home, p), w) =>
      (some (.ok ⟨w.nextSerial, home, p⟩), s.after (w.publish key ⟨w.nextSerial, home, p⟩))
    | (.error e, w) => (some (.error e), s.after w)

theorem after_workshop (hr : s.registry = some r) : s.after (s.workshop r) = s := by
  rw [after, workshop, ← hr]

theorem settled_of_published (hr : s.registry = some r) {key : Key} {c : Compiled}
    (h : r.find? key = some c) : s.Settled key c := by
  intro supplier
  rw [request_eq hr, Workshop.run_obtain_of_published h, after_workshop hr]

theorem pending_of_unpublished (hr : s.registry = some r) {key : Key} (h : r.find? key = none) :
    s.Pending r key := by
  intro supplier
  rw [request_eq hr, Workshop.run_obtain_of_new h]
  generalize supplier.run (s.workshop r) = made
  obtain ⟨_ | ⟨home, p⟩, w⟩ := made <;> rfl

-- A request that fails publishes nothing, and its key still has no program.
theorem unpublished_of_failure (hr : s.registry = some r) {key : Key}
    {supplier : Workshop.Request (Option Nat × Program)}
    (hsupplier : supplier ∈ Workshop.Suppliers key) {e : Failure}
    (h : s.request (Workshop.obtain key supplier) = (some (.error e), s')) :
    ∃ r', s'.registry = some r' ∧ r'.published = r.published ∧
      r'.compileCount = r.compileCount ∧ s'.Pending r' key := by
  rw [request_eq hr] at h
  generalize hrun : (Workshop.obtain key supplier).run (s.workshop r) = given at h
  obtain ⟨result, w⟩ := given
  cases h
  obtain ⟨hreads, hnew⟩ := Workshop.reads_of_run_obtain (reads_supplier hsupplier _) hrun
  exact ⟨w.registry, rfl, hreads.same, hreads.sameCount, pending_of_unpublished rfl hnew⟩

-- An inclusion that is not resolved publishes nothing either.
theorem unpublished_of_link (hr : s.registry = some r) {self : Compiled} {index : Nat}
    {target : String} {err : RenderError}
    (h : Session.link self index target s = (.error err, s')) :
    ∃ r', s'.registry = some r' ∧ r'.published = r.published ∧
      r'.compileCount = r.compileCount := by
  unfold Session.link at h
  dsimp only at h
  split at h
  · cases h
  · split at h
    · cases h
      exact ⟨r, hr, rfl, rfl⟩
    · split at h
      · cases h
      · next e s₁ hrequest =>
        cases h
        obtain ⟨r', hr', hsame, hcount, -⟩ := unpublished_of_failure hr (.inl rfl) hrequest
        exact ⟨r', hr', hsame, hcount⟩
      · next s₁ hrequest =>
        rw [request_eq hr] at hrequest
        cases hrequest

-- At any time in the use of a registry: the count of programs is the number of keys that have one.
-- A key that has one keeps it for ever, and requests for it run no supplier; a key that has none
-- gets what a supplier makes, and an attempt that fails changes nothing of this. What was parsed
-- stays, and its name is not loaded again; within one operation too, a name is loaded only until it
-- was read.
theorem published_at_most_once {s₀ : Session} {number : Nat} {oracle : Oracle} {config : Config}
    (hs₀ : s₀.registry = some (.new number oracle config)) (h : Uses s₀ s) :
    ∃ r, s.registry = some r ∧
      {key | r.isCompiled key = true}.encard = r.compileCount ∧
      (∀ key, r.isCompiled key = true → ∃ c, r.find? key = some c ∧
        ∀ s', Uses s s' → s'.Settled key c ∧ ∃ r', s'.registry = some r' ∧
          r'.find? key = some c) ∧
      (∀ key, r.isCompiled key = false → s.Pending r key) ∧
      (∀ key, ∀ supplier ∈ Workshop.Suppliers key, ∀ e s',
        s.request (Workshop.obtain key supplier) = (some (.error e), s') →
        ∃ r', s'.registry = some r' ∧ r'.published = r.published ∧
          r'.compileCount = r.compileCount ∧ s'.Pending r' key) ∧
      (∀ self index target err s', Session.link self index target s = (.error err, s') →
        ∃ r', s'.registry = some r' ∧ r'.published = r.published ∧
          r'.compileCount = r.compileCount) ∧
      (∀ name t, r.parsed? name = some t → ∀ s', Uses s s' → ∃ r' names,
        s'.registry = some r' ∧ r'.parsed? name = some t ∧ s'.loads = names ++ s.loads ∧
          name ∉ names) ∧
      ∀ s', Operation s s' → ∃ r' names, s'.registry = some r' ∧
        (s.workshop r).Loaded (s'.workshop r') names := by
  obtain ⟨r, hr, hmemory⟩ := h.remembers hs₀
  have hcounted : r.Counted := hmemory.counted (Registry.counted_new number oracle config)
  refine ⟨r, hr, hcounted.encard, fun key hkey => ?_, fun key hkey => ?_,
    fun key supplier hsupplier e s' => unpublished_of_failure hr hsupplier,
    fun self index target err s' => unpublished_of_link hr, fun name t ht s' hs' => ?_,
    fun s' hs' => hs'.loaded hr⟩
  · obtain ⟨c, hc⟩ := Option.isSome_iff_exists.mp hkey
    refine ⟨c, hc, fun s' hs' => ?_⟩
    obtain ⟨r', hr', hlater⟩ := hs'.remembers hr
    have hc' : r'.find? key = some c := hlater.published hc
    exact ⟨settled_of_published hr' hc', r', hr', hc'⟩
  · have hnew : r.find? key = none := by simpa [Registry.isCompiled] using hkey
    exact pending_of_unpublished hr hnew
  · obtain ⟨r', hr', hlater⟩ := hs'.remembers hr
    obtain ⟨names, hloads, hnames⟩ := hlater.loads
    refine ⟨r', names, hr', hlater.parsed ht, hloads, fun hmem => ?_⟩
    rw [hnames name hmem] at ht
    cases ht

-- A page that fails while a part is missing, and where another program for it is to be put but is
-- not made either, is rendered once the part is there, and asked for again.
theorem published_at_most_once_repaired :
    let source := MemorySource.empty.insert "page" "@param int n\n<@template.part(n)>"
    let repaired := source.insert "part" "@param int n\n${n + 1}"
    let s₀ := Session.new source.load Declarations.empty.oracle .default
    let page : Key := ⟨"page", .text⟩
    let missing : Failure := .load (.notFound "page")
    let s₁ := (s₀.request (Workshop.getOrCompile page)).2
    let s₂ := (s₁.request (Workshop.getOrCompileWith page (.error missing))).2
    let s₃ := s₂.withLoader repaired.load
    let model : Model Nat := .ofFields fun _ _ => some (.int 2)
    s₀.registry = some (.new 0 Declarations.empty.oracle .default) ∧
    ∃ o r, s₃.renderFresh "page" .text model 0 = some o ∧ Uses s₀ o.session ∧
      o.result = .ok (.text ⟨.html, "<3>"⟩) ∧ o.session.loads = ["part", "part", "page"] ∧
      o.session.registry = some r ∧ {key | r.isCompiled key = true}.encard = 2 ∧
      ∃ c, r.find? page = some c ∧ (o.session.withLoader source.load).Settled page c := by
  intro source repaired s₀ page missing s₁ s₂ s₃ model
  have hshown : (s₃.renderFresh "page" .text model 0).map (fun o =>
      (o.result, o.session.loads, o.session.registry.map fun r =>
        (r.compileCount, r.isCompiled page))) =
      some (.ok (.text ⟨.html, "<3>"⟩), ["part", "part", "page"], some (2, true)) := by decide +kernel
  obtain ⟨o, ho, hseen⟩ := Option.map_eq_some_iff.mp hshown
  simp only [Prod.mk.injEq, Option.map_eq_some_iff] at hseen
  obtain ⟨hresult, hloads, r, hr, hcount, hpage⟩ := hseen
  have hfailed : Uses s₀ s₂ :=
    (ReflTransGen.single (.getOrCompile page)).tail (.getOrCompileWith page (.error missing))
  have huses : Uses s₀ o.session :=
    (hfailed.tail (.withLoader repaired.load)).tail (.renderFresh "page" .text model 0 ho)
  have hs₀ : s₀.registry = some (.new 0 Declarations.empty.oracle .default) := rfl
  obtain ⟨r', hr', hencard, hpublished, -⟩ := published_at_most_once hs₀ huses
  obtain rfl := Option.some.inj (hr.symm.trans hr')
  obtain ⟨c, hc, hlater⟩ := hpublished _ hpage
  refine ⟨hs₀, o, r, ho, huses, hresult, hloads, hr, ?_, c, hc,
    (hlater _ (.single (.withLoader source.load))).1⟩
  rw [hencard, hcount]
  rfl

end Session

end Stencil
