import Stencil.Proofs.Meaning.Shelf
import Stencil.Proofs.Registry.Serving

/-!
All that can be reached by using one registry: requests, renders, and programs held and let go. Its
inclusions mean the templates of its library.
-/

namespace Stencil

open Run

namespace Library

-- The templates that there are programs of.
def shelf (lib : Library) : Shelf where
  context := lib.context
  find name := match lib.template name, lib.checked name with
    | .ok t, .ok _ => .ok t.template
    | _, .error e => .error (.unresolvedInclusion name e.message)
    | .error e, _ => .error (.unresolvedInclusion name e.message)

theorem checked_of_template {lib : Library} {name : String} {t : NamedTemplate}
    (h : lib.template name = .ok t) :
    lib.checked name = t.check lib.context := by
  rw [checked, h]
  rfl

theorem parts_of_program {lib : Library} {key : Key} {p : Program} (h : lib.program key = .ok p) :
    ∃ t checked, lib.template key.name = .ok t ∧ lib.checked key.name = .ok checked ∧
      t.check lib.context = .ok checked ∧ p = checked.program key.name key.mode := by
  cases ht : lib.template key.name with
  | error e =>
      rw [program, checked, ht] at h
      cases h
  | ok t =>
      have hchecked := checked_of_template ht
      rw [program, hchecked] at h
      cases hcheck : t.check lib.context with
      | error e =>
          rw [hcheck] at h
          cases h
      | ok checked =>
          rw [hcheck] at h hchecked
          cases h
          exact ⟨t, checked, rfl, hchecked, hcheck, rfl⟩

theorem find_of_program {lib : Library} {key : Key} {p : Program} {t : NamedTemplate}
    (h : lib.program key = .ok p) (ht : lib.template key.name = .ok t) :
    lib.shelf.find key.name = .ok t.template := by
  obtain ⟨u, checked, hu, hchecked, -⟩ := parts_of_program h
  obtain rfl := Except.ok.inj (ht.symm.trans hu)
  simp only [shelf, ht, hchecked]

theorem find_of_no_program {lib : Library} {key : Key} {e : Failure}
    (h : lib.program key = .error e) :
    lib.shelf.find key.name = .error (.unresolvedInclusion key.name e.message) := by
  cases hchecked : lib.checked key.name with
  | ok checked =>
      rw [program, hchecked] at h
      cases h
  | error e' =>
      rw [program, hchecked] at h
      cases h
      cases ht : lib.template key.name <;> simp only [shelf, hchecked, ht]

-- A program of the library, and the template it is made from.
structure Gives (lib : Library) (p : Program) (t : Template) : Prop where
  program : lib.program ⟨p.name, p.mode⟩ = .ok p
  template : ∃ named, lib.template p.name = .ok named ∧ named.template = t

variable {lib : Library} {p : Program} {t : Template}

theorem gives_of_program {key : Key} {named : NamedTemplate} (h : lib.program key = .ok p)
    (hnamed : lib.template key.name = .ok named) : lib.Gives p named.template := by
  have hkey := key_of_program h
  exact ⟨by rw [hkey, h], named, by rw [← hkey] at hnamed; exact hnamed, rfl⟩

theorem Gives.makes (h : lib.Gives p t) : lib.shelf.Makes t p := by
  obtain ⟨named, hnamed, rfl⟩ := h.template
  obtain ⟨u, checked, hu, -, hcheck, hp⟩ := parts_of_program h.program
  obtain rfl := Except.ok.inj (hnamed.symm.trans hu)
  exact ⟨checked, named.elaborates_of_check hcheck, hp⟩

-- What can be rendered can be included, with the same parameters.
theorem schemas_of_program {key : Key} (h : lib.program key = .ok p) :
    lib.shelf.context.schemas key.name = some p.schema := by
  obtain ⟨named, checked, hnamed, -, hcheck, hp⟩ := parts_of_program h
  have hschema : named.schema lib.oracle = .ok checked.schema := named.schema_of_check hcheck
  change lib.schema? key.name = _
  rw [Library.schema?, hnamed, hp]
  change (named.schema lib.oracle).toOption = _
  rw [hschema]
  rfl

end Library

namespace Session

variable {lib : Library} {cat : Catalogue} {s : Session} {c : Compiled}

-- A session in order, in which some programs are known.
def Knows (lib : Library) (K : Compiled → Prop) (s : Session) : Prop :=
  ∃ cat, s.Serves lib cat ∧ ∀ c, K c → cat c.serial = some c

theorem linker_serves (lib : Library) :
    linker.Serves lib.shelf (fun c t => lib.Gives c.program t) (Knows lib) where
  made h := h.makes
  forget hKK' := fun ⟨cat, hserves, hK⟩ => ⟨cat, hserves, fun c hc => hK c (hKK' c hc)⟩
  found := by
    rintro K s s' self _ site target callee ⟨cat, hserves, hK⟩ hself ⟨-, named, hnamed, rfl⟩
      htarget hlink
    obtain ⟨callee', s'', cat', hlink', hprogram, hserves', hgrows, hcallee⟩ |
      ⟨e, s'', hlink', -⟩ := hserves.link (hK self hself) hnamed htarget
    · have heq := hlink'.symm.trans hlink
      obtain ⟨rfl, rfl⟩ : callee' = callee ∧ s'' = s' := by simpa using heq
      obtain ⟨u, -, hu, -⟩ := Library.parts_of_program hprogram
      have hmode := congrArg Key.mode (Library.key_of_program hprogram)
      refine ⟨⟨u.template, Library.find_of_program hprogram hu,
        Library.gives_of_program hprogram hu⟩, hmode, Library.schemas_of_program hprogram, cat',
        hserves', ?_⟩
      rintro c (hc | rfl)
      · exact hgrows _ _ (hK c hc)
      · exact hcallee
    · have heq := hlink'.symm.trans hlink
      simp at heq
  missing := by
    rintro K s s' self _ site target err ⟨cat, hserves, hK⟩ hself ⟨-, named, hnamed, rfl⟩
      htarget hlink
    obtain ⟨callee', s'', cat', hlink', -⟩ | ⟨e, s'', hlink', hprogram, hserves'⟩ :=
      hserves.link (hK self hself) hnamed htarget
    · have heq := hlink'.symm.trans hlink
      simp at heq
    · have heq := hlink'.symm.trans hlink
      obtain ⟨rfl, rfl⟩ :
          RenderError.unresolvedInclusion target e.message = err ∧ s'' = s' := by simpa using heq
      exact ⟨Library.find_of_no_program hprogram, cat, hserves', hK⟩

-- A program in the catalogue, and its template.
theorem Serves.gives (h : s.Serves lib cat) {n : Nat} (hc : cat n = some c) :
    ∃ t, lib.Gives c.program t := by
  obtain ⟨named, -, hnamed, -⟩ := Library.parts_of_program (h.made hc)
  exact ⟨_, Library.gives_of_program (h.made hc) hnamed⟩

-- A program that is at hand: kept, or published.
def Holds (s : Session) (c : Compiled) : Prop :=
  (∃ name, (name, c) ∈ s.kept) ∨ ∃ r key, s.registry = some r ∧ r.find? key = some c

theorem Serves.held (h : s.Serves lib cat) (hc : s.Holds c) : cat c.serial = some c := by
  obtain ⟨name, hc⟩ | ⟨r, key, hr, hc⟩ := hc
  · exact h.kept hc
  · exact (h.published hr hc).1

-- Sessions that come of a new one by requests, renders, and keeping programs or not.
inductive Reachable (lib : Library) : Session → Prop
  | new : Reachable lib (.new lib.loader lib.oracle lib.config)
  | template {s : Session} (name : String) :
    Reachable lib s → Reachable lib (s.request (Workshop.template name)).2
  | schema {s : Session} (name : String) :
    Reachable lib s → Reachable lib (s.request (Workshop.schema name)).2
  | program {s : Session} (key : Key) :
    Reachable lib s → Reachable lib (s.request (Workshop.getOrCompile key)).2
  | render {s : Session} {c : Compiled} {ρ : Type} [DecidableEq ρ] (model : Model ρ) (root : ρ)
    (sink : Sink) :
    Reachable lib s → s.Holds c → Reachable lib (s.renderProgram c model root sink).links
  | keep {s : Session} {c : Compiled} (name : String) :
    Reachable lib s → s.Holds c → Reachable lib (s.keep name c)
  | forget {s : Session} (name : String) : Reachable lib s → Reachable lib (s.forget name)
  | takeLoads {s : Session} : Reachable lib s → Reachable lib s.takeLoads.2

theorem serves_new (lib : Library) :
    (Session.new lib.loader lib.oracle lib.config).Serves lib fun _ => none where
  loader := rfl
  registered := ⟨_, rfl⟩
  parses := by
    rintro _ ⟨⟩
    exact ⟨rfl, rfl, fun h => nomatch h⟩
  homed := fun _ h => nomatch h
  published := by
    rintro _ _ _ ⟨⟩ h
    cases h
  numbered := fun h => nomatch h
  made := fun h => nomatch h
  kept := fun h => nomatch h
  linked := fun h => nomatch h

theorem Serves.keep (h : s.Serves lib cat) (hc : s.Holds c) (name : String) :
    (s.keep name c).Serves lib cat := by
  refine { h with kept := fun {other c'} hmem => ?_ }
  obtain heq | hmem := List.mem_cons.mp hmem
  · obtain ⟨rfl, rfl⟩ := Prod.mk.inj heq
    exact h.held hc
  · exact h.kept (List.mem_filter.mp hmem).1

theorem Serves.forget (h : s.Serves lib cat) (name : String) : (s.forget name).Serves lib cat :=
  { h with kept := fun hmem => h.kept (List.mem_filter.mp hmem).1 }

-- A render leaves the session in order.
theorem Serves.renderProgram {ρ : Type} [DecidableEq ρ] (h : s.Serves lib cat)
    (hc : cat c.serial = some c) (model : Model ρ) (root : ρ) (sink : Sink) :
    ∃ cat', (s.renderProgram c model root sink).links.Serves lib cat' := by
  by_cases hmode : c.program.mode = sink.mode
  · obtain ⟨t, ht⟩ := h.gives hc
    have hknows : Knows lib (· = c) s := ⟨cat, h, fun c' hc' => hc' ▸ hc⟩
    obtain ⟨-, -, cat', hserves, -⟩ :=
      (linker_serves lib).render (K := (· = c)) ht rfl hknows hmode model root
    exact ⟨cat', hserves⟩
  · have hlinks : (s.renderProgram c model root sink).links = s := by
      simp only [Session.renderProgram, render, linker, hmode, if_false]
    rw [hlinks]
    exact ⟨cat, h⟩

theorem Reachable.serves (h : Reachable lib s) : ∃ cat, s.Serves lib cat := by
  induction h with
  | new => exact ⟨_, serves_new lib⟩
  | template name _ ih =>
      obtain ⟨cat, ih⟩ := ih
      obtain ⟨r, hr⟩ := ih.registered
      obtain ⟨w, hrun, hw, hgrows, -⟩ := Workshop.run_template (ih.parses_workshop hr) name
      rw [request_eq hr, hrun]
      exact ⟨cat, ih.after_grows hr hw hgrows⟩
  | schema name _ ih =>
      obtain ⟨cat, ih⟩ := ih
      obtain ⟨r, hr⟩ := ih.registered
      obtain ⟨w, hrun, hw, hgrows⟩ := Workshop.run_schema (ih.parses_workshop hr) name
      rw [request_eq hr, hrun]
      exact ⟨cat, ih.after_grows hr hw hgrows⟩
  | program key _ ih =>
      obtain ⟨cat, ih⟩ := ih
      obtain ⟨c, s', cat', hrequest, -, hserves, -⟩ | ⟨e, s', hrequest, -, hserves⟩ :=
        ih.request_getOrCompile key
      · exact ⟨cat', by rw [hrequest]; exact hserves⟩
      · exact ⟨cat, by rw [hrequest]; exact hserves⟩
  | render model root sink _ hc ih =>
      obtain ⟨cat, ih⟩ := ih
      exact ih.renderProgram (ih.held hc) model root sink
  | keep name _ hc ih =>
      obtain ⟨cat, ih⟩ := ih
      exact ⟨cat, ih.keep hc name⟩
  | forget name _ ih =>
      obtain ⟨cat, ih⟩ := ih
      exact ⟨cat, ih.forget name⟩
  | takeLoads _ ih =>
      obtain ⟨cat, ih⟩ := ih
      exact ⟨cat, { ih with }⟩

-- A request for a program gives the one that the library says, if there is one.
theorem Reachable.request_of_program (h : Reachable lib s) {key : Key} {p : Program}
    {t : NamedTemplate} (hp : lib.program key = .ok p) (ht : lib.template key.name = .ok t) :
    ∃ c s', s.request (Workshop.getOrCompile key) = (some (.ok c), s') ∧ c.program = p ∧
      lib.Gives c.program t.template ∧ Knows lib (· = c) s' := by
  obtain ⟨cat, hserves⟩ := h.serves
  obtain ⟨c, s', cat', hrequest, hprogram, hserves', -, hc, -⟩ | ⟨e, s', -, hprogram, -⟩ :=
    hserves.request_getOrCompile key
  · have hcp : c.program = p := Except.ok.inj (hprogram.symm.trans hp)
    exact ⟨c, s', hrequest, hcp, Library.gives_of_program hprogram ht, cat', hserves',
      fun c' hc' => hc' ▸ hc⟩
  · rw [hp] at hprogram
    cases hprogram

-- Else it fails as the library says.
theorem Reachable.request_of_failure (h : Reachable lib s) {key : Key} {e : Failure}
    (he : lib.program key = .error e) :
    ∃ s', s.request (Workshop.getOrCompile key) = (some (.error e), s') := by
  obtain ⟨cat, hserves⟩ := h.serves
  obtain ⟨c, s', cat', -, hprogram, -⟩ | ⟨e', s', hrequest, hprogram, -⟩ :=
    hserves.request_getOrCompile key
  · rw [he] at hprogram
    cases hprogram
  · obtain rfl := Except.error.inj (hprogram.symm.trans he)
    exact ⟨s', hrequest⟩

-- What is given was made from a template that passed its check.
theorem Reachable.parts_of_request (h : Reachable lib s) {key : Key} {s' : Session}
    (hrequest : s.request (Workshop.getOrCompile key) = (some (.ok c), s')) :
    ∃ t checked, lib.template key.name = .ok t ∧ t.check lib.context = .ok checked ∧
      c.program = checked.program key.name key.mode ∧ lib.Gives c.program t.template ∧
      Knows lib (· = c) s' := by
  cases hprogram : lib.program key with
  | error e =>
      obtain ⟨_, hfailed⟩ := h.request_of_failure hprogram
      rw [hrequest] at hfailed
      cases hfailed
  | ok p =>
      obtain ⟨t, checked, ht, -, hcheck, rfl⟩ := Library.parts_of_program hprogram
      obtain ⟨c', _, hrequest', hc', hgives, hknows⟩ := h.request_of_program hprogram ht
      rw [hrequest] at hrequest'
      cases hrequest'
      exact ⟨t, checked, ht, hcheck, hc', hgives, hknows⟩

end Session

end Stencil
