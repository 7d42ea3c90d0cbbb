import Stencil.Proofs.Registry.Arising
import Stencil.Proofs.Registry.Cells

/-!
Programs are compiled when they are asked for and not before. A request for a program publishes no
other; a render publishes the programs of the inclusions that it executes.
-/

namespace Stencil

open Relation Run

theorem Workshop.published_getOrCompile (w : Workshop) (key : Key) :
    ((getOrCompile key).run w).2.registry.published = w.registry.published ∨
      ∃ c, ((getOrCompile key).run w).2.registry.published = (key, c) :: w.registry.published := by
  cases hfind : w.registry.find? key with
  | some c =>
      rw [getOrCompile, run_obtain_of_published hfind]
      exact .inl rfl
  | none =>
      have hsame := (persists_reads.compile w key).same
      rw [getOrCompile, run_obtain_of_new hfind]
      generalize (compile key).run w = r at hsame ⊢
      obtain ⟨_ | ⟨home, p⟩, w'⟩ := r
      · exact .inl hsame
      · exact .inr ⟨⟨w'.nextSerial, home, p⟩, congrArg (List.cons _) hsame⟩

namespace Session

variable {cat : Catalogue} {s : Session} {c : Compiled} {key other : Key}

-- There is a program for a key.
def Publishes (s : Session) (key : Key) : Prop :=
  ∃ r, s.registry = some r ∧ r.isCompiled key = true

theorem publishes_of_request (h : (s.request (Workshop.getOrCompile key)).2.Publishes other) :
    s.Publishes other ∨ other = key := by
  obtain ⟨r', hr', hother⟩ := h
  cases hr : s.registry with
  | none =>
      rw [request, hr] at hr'
      rw [hr] at hr'
      cases hr'
  | some r =>
      rw [request_eq hr] at hr'
      obtain rfl := Option.some.inj hr'
      rw [Registry.isCompiled_iff_mem] at hother
      obtain hsame | ⟨c, hmore⟩ := Workshop.published_getOrCompile (s.workshop r) key
      · rw [hsame] at hother
        exact .inl ⟨r, hr, Registry.isCompiled_iff_mem.mpr hother⟩
      · rw [hmore, List.map_cons, List.mem_cons] at hother
        exact hother.symm.imp_left fun hmem => ⟨r, hr, Registry.isCompiled_iff_mem.mpr hmem⟩

-- An inclusion publishes its target, for the mode of the program that it stands in.
theorem publishes_of_link {self : Compiled} {index : Nat} {target : String}
    (h : (Session.link self index target s).2.Publishes key) :
    s.Publishes key ∨ self.home ≠ none ∧ key = ⟨target, self.program.mode⟩ := by
  cases halive : s.linkAt ⟨self.serial, index⟩ with
  | some callee =>
      rw [link_of_linkAt halive] at h
      exact .inl h
  | none =>
      have hresolve : (resolve self target s).2.Publishes key := by
        rw [link_of_no_linkAt halive] at h
        generalize resolve self target s = resolved at h ⊢
        obtain ⟨_ | _, _⟩ := resolved <;> exact h
      cases hhome : s.home? self with
      | none =>
          rw [resolve_of_no_home hhome] at hresolve
          exact .inl hresolve
      | some r =>
          have hrequest : (s.request
              (Workshop.getOrCompile ⟨target, self.program.mode⟩)).2.Publishes key := by
            simp only [resolve, hhome] at hresolve
            generalize s.request (Workshop.getOrCompile ⟨target, self.program.mode⟩) = given
              at hresolve ⊢
            obtain ⟨_ | _ | _, _⟩ := given <;> exact hresolve
          refine (publishes_of_request hrequest).imp_right fun hkey => ⟨?_, hkey⟩
          rw [(home?_eq_some_iff.mp hhome).2]
          simp

section Rendering

variable {ρ : Type} [DecidableEq ρ] {model : Model ρ} {home : Option Nat} {mode : Mode}

-- So does all that is run from a moment on, of inclusions at later moments.
theorem tracks_published (number : Option Nat) : linker.Tracks model fun m e =>
    ∀ K : Compiled → Prop, K m.self → Op.leavesOfAll m.ops ⊆ (linker.program m.self).leaves →
      Tends home mode number K m.effects.links → ∀ key, e.links.Publishes key →
      m.effects.links.Publishes key ∨ ∃ m' site target,
        ReflTransGen (linker.Leads model) m m' ∧ m'.Executes site target ∧
          key = ⟨target, mode⟩ where
  asks _ _ _ _ _ _ _ hkey := .inl hkey
  prints _ _ _ _ _ _ _ hkey := .inl hkey
  links := by
    intro m site target args ops result links requests hfirst hdepth hlink K hself _ hknows key hkey
    obtain ⟨-, cat, -, hK⟩ := hknows
    have hkey : (Session.link m.self site target m.effects.links).2.Publishes key := by
      have heq : Session.link m.self site target m.effects.links = (result, links) := hlink
      rw [heq]
      exact hkey
    refine (publishes_of_link hkey).imp_right fun ⟨hhome, hkey⟩ => ?_
    obtain ⟨-, hmode⟩ := (hK m.self hself).2.resolve_left hhome
    exact ⟨m, site, target, .refl, ⟨hdepth, args, ops, hfirst⟩, hmode ▸ hkey⟩
  leads := by
    intro m m' e hm hway hrest K hself hleaves hknows key hkey
    obtain ⟨K', hself', hknows'⟩ :=
      (minds home mode number).leads hm hself hleaves hknows
    have hthen := hrest K' hself' (hm.leaves hleaves) hknows' key hkey
    obtain hbefore | ⟨m'', site, target, hreached, hexecutes, rfl⟩ := hthen
    · exact hway K hself hleaves hknows key hbefore
    · exact .inr ⟨m'', site, target, .head hm hreached, hexecutes, rfl⟩

-- A render publishes only targets of inclusions that it executes.
theorem Ledger.publishes_of_render (h : s.Ledger cat) (hc : cat c.serial = some c)
    (hmade : c.MadeFor home mode) {root : ρ} {sink : Sink}
    (hkey : (s.renderProgram c model root sink).links.Publishes key) :
    s.Publishes key ∨ ∃ m site target, linker.Reaches model root c s m ∧
      m.Executes site target ∧ key = ⟨target, mode⟩ := by
  have htends : Tends home mode (s.registry.map Registry.number) (· = c) s := by
    refine ⟨rfl, cat, h, ?_⟩
    rintro _ rfl
    exact ⟨hc, hmade⟩
  obtain hsame | ⟨values, requests, e, hread, he, hend⟩ :=
    (@tracks_published ρ _ model home mode (s.registry.map Registry.number)).render c root sink s
  · exact .inl (hsame ▸ hkey)
  · obtain hbefore | ⟨m, site, target, hreached, hexecutes, rfl⟩ :=
      he (· = c) rfl (List.Subset.refl _) htends key (hend ▸ hkey)
    · exact .inl hbefore
    · exact .inr ⟨m, site, target, ⟨values, requests, hread, hreached⟩, hexecutes, rfl⟩

end Rendering

-- A request for a program comes to an end, whatever the source holds and whatever includes what. It
-- asks for the cell of that program first, and while it fills it only for parsed templates: for the
-- one that is compiled and for those it includes, which may be the same. Parsing asks for nothing
-- else. So no cell is asked for while it is being filled, where one would wait for ever; and no
-- other program is published. A render by name publishes, besides the program of that name, only
-- programs for inclusions that it executed, all for the one mode.
theorem compiles_lazily :
    (∀ (w : Workshop) (key : Key) (demands : List Demand),
      let (result, w') := (Workshop.getOrCompile key).run w
      let asked : List Demand :=
        ⟨[], .compiled key⟩ :: (w.needs key).map (⟨[.compiled key], .parsed ·⟩)
      (Guarded.getOrCompile [] key).exec ⟨w, demands⟩ = some (result, ⟨w', demands ++ asked⟩) ∧
      (∀ d ∈ asked, d.cell ∉ d.filling) ∧
      (w'.registry.published = w.registry.published ∨
        ∃ c, w'.registry.published = (key, c) :: w.registry.published)) ∧
    (∀ (w : Workshop) (name : String) (filling : List Cell) (demands : List Demand),
      .parsed name ∉ filling →
      let (result, w') := (Workshop.template name).run w
      (Guarded.template filling name).exec ⟨w, demands⟩ =
        some (result, ⟨w', demands ++ [⟨filling, .parsed name⟩]⟩)) ∧
    (∀ (w : Workshop) (key : Key) (filling : List Cell) (demands : List Demand),
      .compiled key ∈ filling → w.registry.isCompiled key = false →
      (Guarded.getOrCompile filling key).exec ⟨w, demands⟩ = none) ∧
    ∀ (s : Session), Arises s → ∀ (ρ : Type) [DecidableEq ρ] (key : Key) (model : Model ρ)
      (root : ρ) (sink : Sink) (o : Outcome ρ), s.renderKey key model root sink = some o →
      ∀ other, o.session.Publishes other → s.Publishes other ∨ other = key ∨
        ∃ c s' m site target, s.request (Workshop.getOrCompile key) = (some (.ok c), s') ∧
          linker.Reaches model root c s' m ∧ m.Executes site target ∧
          other = ⟨target, key.mode⟩ := by
  refine ⟨fun w key demands => ⟨?_, ?_, Workshop.published_getOrCompile w key⟩,
    fun w name filling demands hname => Guarded.exec_template hname ⟨w, demands⟩,
    fun w key filling demands hkey hnew => ?_, fun s hs ρ _ key model root sink o ho other => ?_⟩
  · exact Guarded.exec_getOrCompile List.not_mem_nil (fun _ => List.not_mem_nil) ⟨w, demands⟩
  · intro d hd
    obtain rfl | hd := List.mem_cons.mp hd
    · exact List.not_mem_nil
    · obtain ⟨name, -, rfl⟩ := List.mem_map.mp hd
      simp
  · refine Guarded.exec_enter_of_filling hkey ?_ _
    simpa [Registry.isCompiled] using hnew
  · obtain ⟨cat, hledger⟩ := hs.ledger
    obtain ⟨cat', hobtained⟩ := hledger.request_getOrCompile key
    have hrequested := @publishes_of_request s key other
    unfold renderKey at ho
    generalize hrequest : s.request (Workshop.getOrCompile key) = given
      at ho hobtained hrequested
    intro hother
    obtain ⟨_ | _ | c, s'⟩ := given
    · cases ho
    · cases ho
      exact (hrequested hother).imp_right .inl
    · cases ho
      obtain ⟨r, hr, hfind, hc⟩ := hobtained.found c rfl
      have hmade := (hobtained.ledger.published hr hfind).2
      obtain hbefore | ⟨m, site, target, hreached, hexecutes, hkey⟩ :=
        hobtained.ledger.publishes_of_render hc hmade hother
      · exact (hrequested hbefore).imp_right .inl
      · exact .inr (.inr ⟨c, s', m, site, target, rfl, hreached, hexecutes, hkey⟩)

-- A page that includes itself and a part. Neither what it includes for other models nor anything in
-- another mode is compiled.
def lazyLibrary : Library where
  loader :=
    let source := MemorySource.empty.insert "page"
      "@param bool more\n@if(more)<@template.page(false)>@else@template.part()@end"
    let source := source.insert "part" "-@if(false)@template.other()@end-"
    (source.insert "other" "@template.page(true)").load
  oracle := Declarations.empty.oracle
  config := .default

theorem compiles_lazily_itself :
    let s := Session.new lazyLibrary.loader lazyLibrary.oracle lazyLibrary.config
    let w : Workshop := ⟨.new 0 lazyLibrary.oracle lazyLibrary.config, lazyLibrary.loader, [], 0⟩
    let page : Key := ⟨"page", .text⟩
    let part : Key := ⟨"part", .text⟩
    let inPage : List Cell := [.compiled page]
    let model : Model Nat := .ofFields fun _ _ => some (.bool true)
    ((Guarded.getOrCompile [] page).exec ⟨w, []⟩).map (·.2.demands) =
      some [⟨[], .compiled page⟩, ⟨inPage, .parsed "page"⟩, ⟨inPage, .parsed "page"⟩,
        ⟨inPage, .parsed "part"⟩] ∧
    .parsed "part" ∉ inPage ∧
    ((Guarded.template inPage "part").exec ⟨w, []⟩).map (·.2.demands) =
      some [⟨inPage, .parsed "part"⟩] ∧
    .compiled page ∈ inPage ∧ w.registry.isCompiled page = false ∧
    (Guarded.getOrCompile inPage page).exec ⟨w, []⟩ = none ∧
    Arises s ∧
    ∃ o, s.renderKey page model 0 (.empty .text .plain) = some o ∧
      o.result = .ok (.text ⟨.plain, "<-->"⟩) ∧
      o.session.registry.map (·.published.map (·.1)) = some [part, page] ∧
      o.session.Publishes part ∧
      ∃ c s' m site target, s.request (Workshop.getOrCompile page) = (some (.ok c), s') ∧
        linker.Reaches model 0 c s' m ∧ m.Executes site target ∧ part = ⟨target, .text⟩ := by
  intro s w page part inPage model
  obtain ⟨hrequest, htemplate, hwaits, hrender⟩ := compiles_lazily
  have hs : Arises s := .new _ _ _
  have hneeds : w.needs page = ["page", "page", "part"] := by decide +kernel
  have hparsed : .parsed "part" ∉ inPage := by decide
  have hinPage : .compiled page ∈ inPage := by decide
  have hnew : w.registry.isCompiled page = false := by decide
  have hshown : (s.renderKey page model 0 (.empty .text .plain)).map (fun o =>
      (o.result, o.session.registry.map (·.published.map (·.1)))) =
      some (.ok (.text ⟨.plain, "<-->"⟩), some [part, page]) := by decide +kernel
  obtain ⟨o, ho, hseen⟩ := Option.map_eq_some_iff.mp hshown
  obtain ⟨hresult, hkeys⟩ := Prod.mk.inj hseen
  have hpart : o.session.Publishes part := by
    obtain ⟨r, hr, hpublished⟩ := Option.map_eq_some_iff.mp hkeys
    refine ⟨r, hr, ?_⟩
    rw [Registry.isCompiled_iff_mem, hpublished]
    exact List.mem_cons_self
  refine ⟨?_, hparsed, ?_, hinPage, hnew, hwaits w page inPage [] hinPage hnew, hs, o, ho, hresult,
    hkeys, hpart, ?_⟩
  · rw [(hrequest w page []).1, hneeds]
    rfl
  · rw [htemplate w "part" inPage [] hparsed]
    rfl
  · obtain ⟨r, hr, hbefore⟩ | hpage | hexecuted :=
      hrender s hs Nat page model 0 (.empty .text .plain) o ho part hpart
    · cases hr
      cases hbefore
    · exact absurd hpage (by decide)
    · exact hexecuted

end Session

end Stencil
