import Stencil.Proofs.Program.Inclusions
import Stencil.Proofs.Program.Leaves
import Stencil.Proofs.Registry.Publication
import Stencil.Proofs.Registry.Reachable
import Stencil.Proofs.Render.Nesting

/-!
All that can come of a session, by any use of it: sources may change, programs may be given by the
caller, and the registry may be dropped, or another put in its place, while programs of it are held.
-/

namespace Stencil

open Relation Run

-- Each inclusion is told by its number from those of other templates.
def Program.Sited (p : Program) : Prop :=
  ∀ {site target target' args args'}, .inclusion site target args ∈ p.leaves →
    .inclusion site target' args' ∈ p.leaves → target = target'

theorem Template.Elaborates.sited {context : CheckContext} {t : Template}
    {checked : CheckedTemplate} (h : t.Elaborates context checked) (name : String) (mode : Mode) :
    (checked.program name mode).Sited := by
  intro site target target' args args' hleaf hleaf'
  obtain ⟨written, hwritten, hmade⟩ := h.made (Op.mem_inclusionsOfAll_of_leaf _ hleaf)
  obtain ⟨written', hwritten', hmade'⟩ := h.made (Op.mem_inclusionsOfAll_of_leaf _ hleaf')
  obtain rfl := Option.some.inj (hwritten.symm.trans hwritten')
  exact (hmade.target : target = _).trans hmade'.target.symm

-- A program that a registry made for a mode, or one that belongs to no registry.
def Compiled.MadeFor (home : Option Nat) (mode : Mode) (c : Compiled) : Prop :=
  c.home = none ∨ c.home = home ∧ c.program.mode = mode

theorem Compiled.MadeFor.trans {home : Option Nat} {mode : Mode} {self callee : Compiled}
    (h : self.MadeFor home mode) (h' : callee.MadeFor self.home self.program.mode) :
    callee.MadeFor home mode := by
  obtain hnone | ⟨hhome, hmode⟩ := h'
  · exact .inl hnone
  · obtain hself | ⟨hself, hmode'⟩ := h
    · exact .inl (hhome.trans hself)
    · exact .inr ⟨hhome.trans hself, hmode.trans hmode'⟩

theorem Workshop.made_of_compile {w w' : Workshop} {key : Key} {home : Option Nat} {p : Program}
    (h : (compile key).run w = (.ok (home, p), w')) :
    home = some w.registry.number ∧ p.mode = key.mode ∧ p.Sited := by
  unfold compile at h
  rw [run_bind] at h
  have hfirst := grows_template w key.name
  generalize (template key.name).run w = r at h hfirst
  obtain ⟨e | t, w₁⟩ := r
  · cases h
  dsimp only at h
  rw [run_bind] at h
  have hthen := hfirst.trans (persists_grows.prepare w₁ t.template.targets)
  generalize (prepare t.template.targets).run w₁ = r at h hthen
  obtain ⟨e | _, w₂⟩ := r
  · cases h
  dsimp only at h
  rw [run_get] at h
  cases hprogram : t.compile ⟨w₂.registry.oracle, w₂.registry.knownSchema?⟩ key.mode with
  | error e =>
      rw [hprogram] at h
      cases h
  | ok program =>
      rw [hprogram] at h
      cases h
      obtain ⟨checked, hcheck, rfl⟩ := exists_of_map_eq_ok hprogram
      exact ⟨congrArg some hthen.number, rfl, (t.elaborates_of_check hcheck).sited _ _⟩

namespace Session

variable {cat : Catalogue} {s : Session} {r : Registry} {w : Workshop} {c : Compiled}

-- Sessions that come of a new one: by requests, with programs that the caller gives among them, by
-- renders of programs at hand, by keeping programs or not, by dropping the registry or putting
-- another in its place, and by changes of the source.
inductive Arises : Session → Prop
  | new (loader : Loader) (oracle : Oracle) (config : Config) : Arises (.new loader oracle config)
  | template {s : Session} (name : String) :
    Arises s → Arises (s.request (Workshop.template name)).2
  | schema {s : Session} (name : String) : Arises s → Arises (s.request (Workshop.schema name)).2
  | program {s : Session} (key : Key) :
    Arises s → Arises (s.request (Workshop.getOrCompile key)).2
  | given {s : Session} (key : Key) (made : Except Failure Program) :
    Arises s → Arises (s.request (Workshop.getOrCompileWith key made)).2
  | render {s : Session} {c : Compiled} {ρ : Type} [DecidableEq ρ] (model : Model ρ) (root : ρ)
    (sink : Sink) : Arises s → s.Holds c → Arises (s.renderProgram c model root sink).links
  | keep {s : Session} {c : Compiled} (name : String) :
    Arises s → s.Holds c → Arises (s.keep name c)
  | forget {s : Session} (name : String) : Arises s → Arises (s.forget name)
  | drop {s : Session} : Arises s → Arises s.drop
  | withConfig {s : Session} (config : Config) : Arises s → Arises (s.withConfig config)
  | withOracle {s : Session} (oracle : Oracle) : Arises s → Arises (s.withOracle oracle)
  | withLoader {s : Session} (loader : Loader) : Arises s → Arises (s.withLoader loader)
  | takeLoads {s : Session} : Arises s → Arises s.takeLoads.2

-- What a site was linked to, when its program was executed. While the registry that both belong to
-- is there, it publishes the target under the name that the inclusion has.
structure Linked (cat : Catalogue) (registry : Option Registry) (site : Site) (callee : Compiled) :
    Prop where
  known : cat callee.serial = some callee
  owned : ∃ owner target args, cat site.owner = some owner ∧ owner.home ≠ none ∧
    .inclusion site.index target args ∈ owner.program.leaves ∧
    callee.MadeFor owner.home owner.program.mode ∧
    ∀ r, registry = some r → owner.home = some r.number →
      r.find? ⟨target, owner.program.mode⟩ = some callee

-- A session in order, with all programs that were ever made.
structure Ledger (cat : Catalogue) (s : Session) : Prop where
  numbered : ∀ {n c}, cat n = some c → c.serial = n ∧ n < s.nextSerial
  sited : ∀ {n c}, cat n = some c → c.home ≠ none → c.program.Sited
  homed : ∀ {n c home}, cat n = some c → c.home = some home → home < s.nextRegistry
  registered : ∀ {r}, s.registry = some r → r.number < s.nextRegistry
  published : ∀ {r key c}, s.registry = some r → r.find? key = some c →
    cat c.serial = some c ∧ c.MadeFor (some r.number) key.mode
  kept : ∀ {name c}, (name, c) ∈ s.kept → cat c.serial = some c
  linked : ∀ {site callee}, s.links.lookup site = some callee →
    Linked cat s.registry site callee

theorem ledger_new (loader : Loader) (oracle : Oracle) (config : Config) :
    (Session.new loader oracle config).Ledger fun _ => none where
  numbered := fun h => nomatch h
  sited := fun h => nomatch h
  homed := fun h => nomatch h
  registered := by
    rintro _ ⟨⟩
    exact Nat.zero_lt_one
  published := by
    rintro _ _ _ ⟨⟩ h
    cases h
  kept := fun h => nomatch h
  linked := fun h => nomatch h

theorem Ledger.held (h : s.Ledger cat) (hc : s.Holds c) : cat c.serial = some c := by
  obtain ⟨name, hc⟩ | ⟨r, key, hr, hc⟩ := hc
  · exact h.kept hc
  · exact (h.published hr hc).1

-- Parsing changes nothing in it,
theorem Ledger.after_grows (h : s.Ledger cat) (hr : s.registry = some r)
    (hgrows : (s.workshop r).Grows w) : (s.after w).Ledger cat := by
  have hnumber : w.registry.number = r.number := hgrows.number
  have hfind (key : Key) : w.registry.find? key = r.find? key :=
    congrArg (List.lookup key) hgrows.published
  refine ⟨?_, h.sited, h.homed, ?_, ?_, h.kept, ?_⟩
  · have hserial : w.nextSerial = s.nextSerial := hgrows.nextSerial
    intro n c hc
    simp only [after, hserial]
    exact h.numbered hc
  · rintro _ ⟨⟩
    rw [hnumber]
    exact h.registered hr
  · rintro _ key c ⟨⟩ hc
    rw [hnumber]
    exact h.published hr ((hfind key).symm.trans hc)
  · intro site callee hlink
    obtain ⟨hcallee, owner, target, args, howner, hhome, hleaf, hmade, hcurrent⟩ := h.linked hlink
    refine ⟨hcallee, owner, target, args, howner, hhome, hleaf, hmade, ?_⟩
    rintro _ ⟨⟩ hthis
    rw [hfind]
    exact hcurrent r hr (hthis.trans (congrArg some hnumber))

-- and a program that is published is a new one.
theorem Ledger.after_publish (h : s.Ledger cat) (hr : s.registry = some r) {key : Key}
    (hnew : r.find? key = none) (hc : c.serial = s.nextSerial)
    (hmade : c.MadeFor (some r.number) key.mode) (hsited : c.home ≠ none → c.program.Sited) :
    (s.after ((s.workshop r).publish key c)).Ledger (cat.add c) := by
  have hadd : cat.Grows (cat.add c) := Catalogue.grows_add fun n d hd => by
    rw [hc]
    exact (h.numbered hd).2
  refine ⟨?_, ?_, ?_, ?_, ?_, fun hd => hadd _ _ (h.kept hd), ?_⟩
  · intro n d hd
    change d.serial = n ∧ n < c.serial + 1
    rw [hc]
    obtain ⟨rfl, rfl⟩ | hd := Catalogue.add_cases hd
    · exact ⟨rfl, hc ▸ Nat.lt_succ_self _⟩
    · obtain ⟨hserial, hlt⟩ := h.numbered hd
      exact ⟨hserial, Nat.lt_succ_of_lt hlt⟩
  · intro n d hd
    obtain ⟨-, rfl⟩ | hd := Catalogue.add_cases hd
    · exact hsited
    · exact h.sited hd
  · intro n d home hd hhome
    obtain ⟨-, rfl⟩ | hd := Catalogue.add_cases hd
    · obtain hnone | ⟨hsome, -⟩ := hmade
      · rw [hnone] at hhome
        cases hhome
      · obtain rfl := Option.some.inj (hsome.symm.trans hhome)
        exact h.registered hr
    · exact h.homed hd hhome
  · rintro _ ⟨⟩
    exact (h.registered hr : r.number < s.nextRegistry)
  · rintro _ other d ⟨⟩ hd
    rw [Workshop.find?_publish] at hd
    split at hd
    · next hkey =>
      obtain rfl := Option.some.inj hd
      exact ⟨Catalogue.add_self _ _, hkey ▸ hmade⟩
    · obtain ⟨hcat, hmade'⟩ := h.published hr hd
      exact ⟨hadd _ _ hcat, hmade'⟩
  · intro site callee hlink
    obtain ⟨hcallee, owner, target, args, howner, hhome, hleaf, hmade', hcurrent⟩ := h.linked hlink
    refine ⟨hadd _ _ hcallee, owner, target, args, hadd _ _ howner, hhome, hleaf, hmade', ?_⟩
    rintro _ ⟨⟩ hthis
    have hfound := hcurrent r hr hthis
    have hne : (⟨target, owner.program.mode⟩ : Key) ≠ key := by
      rintro rfl
      rw [hnew] at hfound
      cases hfound
    rw [Workshop.find?_publish, if_neg hne]
    exact hfound

-- What became of a request for a program: what it gave is known from then on, and published.
structure Obtained (cat : Catalogue) (s : Session) (key : Key)
    (given : Option (Except Failure Compiled) × Session) (cat' : Catalogue) : Prop where
  grows : cat.Grows cat'
  ledger : given.2.Ledger cat'
  number : given.2.registry.map Registry.number = s.registry.map Registry.number
  found : ∀ c, given.1 = some (.ok c) →
    ∃ r, given.2.registry = some r ∧ r.find? key = some c ∧ cat' c.serial = some c

theorem Ledger.request_obtain (h : s.Ledger cat) {key : Key}
    {supplier : Workshop.Request (Option Nat × Program)}
    (hgrows : ∀ w, Workshop.Grows w (supplier.run w).2)
    (hmade : ∀ {w home p w'}, supplier.run w = (.ok (home, p), w') →
      home = none ∨ home = some w.registry.number ∧ p.mode = key.mode ∧ p.Sited) :
    ∃ cat', Obtained cat s key (s.request (Workshop.obtain key supplier)) cat' := by
  cases hr : s.registry with
  | none =>
      have hnone : s.request (Workshop.obtain key supplier) = (none, s) := by
        rw [request, hr]
      rw [hnone]
      exact ⟨cat, fun _ _ => id, h, rfl, fun _ hc => nomatch hc⟩
  | some r =>
      rw [request_eq hr]
      cases hfind : r.find? key with
      | some c =>
          rw [Workshop.run_obtain_of_published hfind]
          refine ⟨cat, fun _ _ => id, h.after_grows hr (.refl _), ?_, fun d hd => ?_⟩
          · exact congrArg (Option.map _) hr.symm
          · obtain rfl := Except.ok.inj (Option.some.inj hd)
            exact ⟨r, rfl, hfind, (h.published hr hfind).1⟩
      | none =>
          have hgrows := hgrows (s.workshop r)
          rw [Workshop.run_obtain_of_new hfind]
          cases hrun : supplier.run (s.workshop r) with
          | mk result w =>
              rw [hrun] at hgrows
              have hnumber : w.registry.number = r.number := hgrows.number
              have hsame : some w.registry.number = s.registry.map Registry.number := by
                rw [hr, hnumber]
                rfl
              have hafter := h.after_grows hr hgrows
              cases result with
              | error e => exact ⟨cat, fun _ _ => id, hafter, hsame, fun _ hd => nomatch hd⟩
              | ok made =>
                  obtain ⟨home, p⟩ := made
                  have hnew : w.registry.find? key = none :=
                    (congrArg (List.lookup key) hgrows.published).trans hfind
                  have hfor : Compiled.MadeFor (some w.registry.number) key.mode
                      ⟨w.nextSerial, home, p⟩ :=
                    (hmade hrun).imp_right fun hmade =>
                      ⟨hmade.1.trans (congrArg some hnumber.symm), hmade.2.1⟩
                  have hsited (hhome : home ≠ none) : p.Sited :=
                    ((hmade hrun).resolve_left hhome).2.2
                  refine ⟨_, ?_, hafter.after_publish rfl hnew rfl hfor hsited, hsame,
                    fun d hd => ?_⟩
                  · exact Catalogue.grows_add fun n d hd => (hafter.numbered hd).2
                  · obtain rfl := Except.ok.inj (Option.some.inj hd)
                    refine ⟨_, rfl, ?_, Catalogue.add_self _ _⟩
                    rw [Workshop.find?_publish, if_pos rfl]

theorem Ledger.request_getOrCompile (h : s.Ledger cat) (key : Key) :
    ∃ cat', Obtained cat s key (s.request (Workshop.getOrCompile key)) cat' :=
  h.request_obtain (Workshop.persists_grows.compile · key) fun hrun =>
    .inr (Workshop.made_of_compile hrun)

-- A program that the caller gives belongs to no registry.
theorem Ledger.request_getOrCompileWith (h : s.Ledger cat) (key : Key)
    (made : Except Failure Program) :
    ∃ cat', Obtained cat s key (s.request (Workshop.getOrCompileWith key made)) cat' := by
  cases made with
  | ok p =>
      refine h.request_obtain (fun w => .refl w) fun {w home q w'} hrun => .inl ?_
      obtain ⟨rfl, -⟩ := Prod.mk.inj (Except.ok.inj (Prod.mk.inj hrun).1)
      rfl
  | error e => exact h.request_obtain (fun w => .refl w) fun hrun => nomatch hrun

section Linking

-- The target of an inclusion, as if it had never been linked.
def resolve (self : Compiled) (target : String) (s : Session) :
    Except RenderError Compiled × Session :=
  let unresolved (reason : String) : RenderError := .unresolvedInclusion target reason
  match s.home? self with
  | none => (.error (unresolved "no registry is available"), s)
  | some _ =>
    match s.request (Workshop.getOrCompile ⟨target, self.program.mode⟩) with
    | (some (.ok callee), s) => (.ok callee, s)
    | (some (.error e), s) => (.error (unresolved e.message), s)
    | (none, s) => (.error (unresolved "no registry is available"), s)

-- Only the first target of a site is its link.
def note (site : Site) (callee : Compiled) (s : Session) : Session :=
  { s with links := if (s.links.lookup site).isSome then s.links else (site, callee) :: s.links }

-- What a site is linked to, if that is alive.
def linkAt (s : Session) (site : Site) : Option Compiled :=
  (s.links.lookup site).filter s.isAlive

variable {self : Compiled} {index : Nat} {target : String} {site : Site} {callee : Compiled}

-- Linking is following a link or else resolving, and noting what comes of it.
theorem link_of_linkAt (h : s.linkAt ⟨self.serial, index⟩ = some callee) (target : String) :
    Session.link self index target s = (.ok callee, s) := by
  unfold linkAt at h
  simp only [Session.link, h]

theorem link_of_no_linkAt (h : s.linkAt ⟨self.serial, index⟩ = none) (target : String) :
    Session.link self index target s =
      match resolve self target s with
      | (.ok callee, s') => (.ok callee, s'.note ⟨self.serial, index⟩ callee)
      | (.error e, s') => (.error e, s') := by
  unfold linkAt at h
  simp only [Session.link, h, resolve]
  cases s.home? self with
  | none => rfl
  | some r =>
      dsimp only
      generalize s.request (Workshop.getOrCompile ⟨target, self.program.mode⟩) = given
      obtain ⟨_ | _ | _, _⟩ := given <;> rfl

theorem home?_eq_some_iff : s.home? c = some r ↔ s.registry = some r ∧ c.home = some r.number := by
  simp [home?, Option.filter_eq_some_iff]

theorem resolve_of_no_home (h : s.home? self = none) (target : String) :
    resolve self target s =
      (.error (.unresolvedInclusion target "no registry is available"), s) := by
  simp only [resolve, h]

theorem Ledger.resolve (h : s.Ledger cat) (self : Compiled) (target : String) :
    ∃ cat', cat.Grows cat' ∧ (Session.resolve self target s).2.Ledger cat' ∧
      (Session.resolve self target s).2.registry.map Registry.number =
        s.registry.map Registry.number ∧
      ∀ callee, (Session.resolve self target s).1 = .ok callee →
        ∃ r, (Session.resolve self target s).2.registry = some r ∧ self.home = some r.number ∧
          r.find? ⟨target, self.program.mode⟩ = some callee ∧
          cat' callee.serial = some callee := by
  unfold Session.resolve
  dsimp only
  cases hhome : s.home? self with
  | none => exact ⟨cat, fun _ _ => id, h, rfl, fun _ hc => nomatch hc⟩
  | some r =>
      obtain ⟨hr, hself⟩ := home?_eq_some_iff.mp hhome
      obtain ⟨cat', hgrows, hledger, hnumber, hfound⟩ :=
        h.request_getOrCompile ⟨target, self.program.mode⟩
      generalize s.request (Workshop.getOrCompile ⟨target, self.program.mode⟩) = given
        at hledger hnumber hfound
      refine ⟨cat', hgrows, ?_⟩
      obtain ⟨_ | _ | callee, s'⟩ := given
      · exact ⟨hledger, hnumber, fun _ hc => nomatch hc⟩
      · exact ⟨hledger, hnumber, fun _ hc => nomatch hc⟩
      · refine ⟨hledger, hnumber, fun c hc => ?_⟩
        obtain rfl := Except.ok.inj hc
        obtain ⟨r', hr', hfind, hcat⟩ := hfound callee rfl
        refine ⟨r', hr', ?_, hfind, hcat⟩
        rw [hr, hr'] at hnumber
        exact hself.trans hnumber.symm

theorem Ledger.note (h : s.Ledger cat) (hlinked : Linked cat s.registry site callee) :
    (s.note site callee).Ledger cat := by
  refine { h with linked := fun {other d} hd => ?_ }
  unfold Session.note at hd
  split at hd
  · exact h.linked hd
  · simp only [List.lookup_cons] at hd
    split at hd
    · next hsite =>
      obtain rfl : other = site := by simpa using hsite
      obtain rfl := Option.some.inj hd
      exact hlinked
    · exact h.linked hd

-- An inclusion of a known program is linked to a known program, made for the same mode.
theorem Ledger.link (h : s.Ledger cat) (hself : cat self.serial = some self)
    {args : List (Option Formula)} (hleaf : .inclusion index target args ∈ self.program.leaves) :
    ∃ cat', cat.Grows cat' ∧ (Session.link self index target s).2.Ledger cat' ∧
      (Session.link self index target s).2.registry.map Registry.number =
        s.registry.map Registry.number ∧
      ∀ callee, (Session.link self index target s).1 = .ok callee →
        cat' callee.serial = some callee ∧ callee.MadeFor self.home self.program.mode := by
  cases halive : s.linkAt ⟨self.serial, index⟩ with
  | some callee =>
      rw [link_of_linkAt halive]
      refine ⟨cat, fun _ _ => id, h, rfl, fun c hc => ?_⟩
      obtain rfl := Except.ok.inj hc
      obtain ⟨hcallee, owner, -, -, howner, -, -, hmade, -⟩ :=
        h.linked (Option.filter_eq_some_iff.mp halive).1
      obtain rfl := Option.some.inj (hself.symm.trans howner)
      exact ⟨hcallee, hmade⟩
  | none =>
      obtain ⟨cat', hgrows, hledger, hnumber, hfound⟩ := h.resolve self target
      rw [link_of_no_linkAt halive]
      generalize Session.resolve self target s = resolved at hledger hnumber hfound
      refine ⟨cat', hgrows, ?_⟩
      obtain ⟨_ | callee, s'⟩ := resolved
      · exact ⟨hledger, hnumber, fun _ hc => nomatch hc⟩
      · obtain ⟨r, hr, hhome, hfind, hcat⟩ := hfound callee rfl
        have hmade : callee.MadeFor self.home self.program.mode := by
          rw [hhome]
          exact (hledger.published hr hfind).2
        have hlinked : Linked cat' s'.registry ⟨self.serial, index⟩ callee := by
          refine ⟨hcat, self, target, args, hgrows _ _ hself, by simp [hhome], hleaf, hmade, ?_⟩
          intro r' hr' _
          obtain rfl := Option.some.inj (hr.symm.trans hr')
          exact hfind
        refine ⟨hledger.note hlinked, hnumber, fun c hc => ?_⟩
        obtain rfl := Except.ok.inj hc
        exact ⟨hcat, hmade⟩

end Linking

-- Sessions in order with one registry, in which some programs are known. All of these were made by
-- one registry for one mode, or belong to none.
def Tends (home : Option Nat) (mode : Mode) (number : Option Nat) (K : Compiled → Prop)
    (s : Session) : Prop :=
  s.registry.map Registry.number = number ∧
    ∃ cat, s.Ledger cat ∧ ∀ c, K c → cat c.serial = some c ∧ c.MadeFor home mode

-- Inclusions lead from such programs to others.
theorem minds (home : Option Nat) (mode : Mode) (number : Option Nat) :
    linker.Minds (Tends home mode number) where
  forget hKK' := fun ⟨hnumber, cat, hledger, hK⟩ =>
    ⟨hnumber, cat, hledger, fun c hc => hK c (hKK' c hc)⟩
  found := by
    rintro K s s' self site target args callee ⟨hnumber, cat, hledger, hK⟩ hself hleaf hlink
    obtain ⟨hknown, hfor⟩ := hK self hself
    obtain ⟨cat', hgrows, hledger', hnumber', hfound⟩ := hledger.link hknown hleaf
    have heq : Session.link self site target s = (.ok callee, s') := hlink
    rw [heq] at hledger' hnumber' hfound
    obtain ⟨hcallee, hmade⟩ := hfound callee rfl
    refine ⟨hnumber'.trans hnumber, cat', hledger', ?_⟩
    rintro c (hc | rfl)
    · exact ⟨hgrows _ _ (hK c hc).1, (hK c hc).2⟩
    · exact ⟨hcallee, hfor.trans hmade⟩
  missing := by
    rintro K s s' self site target args err ⟨hnumber, cat, hledger, hK⟩ hself hleaf hlink
    obtain ⟨cat', hgrows, hledger', hnumber', -⟩ := hledger.link (hK self hself).1 hleaf
    have heq : Session.link self site target s = (.error err, s') := hlink
    rw [heq] at hledger' hnumber'
    exact ⟨hnumber'.trans hnumber, cat', hledger',
      fun c hc => ⟨hgrows _ _ (hK c hc).1, (hK c hc).2⟩⟩

-- A program at hand, as it is known before it is rendered.
theorem Ledger.tends (h : s.Ledger cat) (hc : cat c.serial = some c) :
    Tends c.home c.program.mode (s.registry.map Registry.number) (· = c) s := by
  refine ⟨rfl, cat, h, ?_⟩
  rintro _ rfl
  exact ⟨hc, .inr ⟨rfl, rfl⟩⟩

theorem Ledger.replace (h : s.Ledger cat) (oracle : Oracle) (config : Config) :
    (s.replace oracle config).Ledger cat where
  numbered := h.numbered
  sited := h.sited
  homed hc hhome := Nat.lt_succ_of_lt (h.homed hc hhome)
  registered := by
    rintro _ ⟨⟩
    exact Nat.lt_succ_self _
  published := by
    rintro _ _ _ ⟨⟩ hc
    cases hc
  kept := h.kept
  linked := by
    intro site callee hlink
    obtain ⟨hcallee, owner, target, args, howner, hhome, hleaf, hmade, -⟩ := h.linked hlink
    refine ⟨hcallee, owner, target, args, howner, hhome, hleaf, hmade, ?_⟩
    -- Nothing belongs to the new registry yet.
    rintro _ ⟨⟩ hthis
    exact absurd (h.homed howner hthis) (Nat.lt_irrefl _)

theorem Ledger.drop (h : s.Ledger cat) : s.drop.Ledger cat where
  numbered := h.numbered
  sited := h.sited
  homed := h.homed
  registered := fun hr => nomatch hr
  published := fun hr => nomatch hr
  kept := h.kept
  linked := by
    intro site callee hlink
    obtain ⟨hcallee, owner, target, args, howner, hhome, hleaf, hmade, -⟩ := h.linked hlink
    exact ⟨hcallee, owner, target, args, howner, hhome, hleaf, hmade, fun _ hr => nomatch hr⟩

theorem Ledger.request_of_grows {α : Type} (h : s.Ledger cat) {x : Workshop.Request α}
    (hgrows : ∀ w, Workshop.Grows w (x.run w).2) : (s.request x).2.Ledger cat := by
  cases hr : s.registry with
  | none =>
      rw [request, hr]
      exact h
  | some r =>
      rw [request_eq hr]
      exact h.after_grows hr (hgrows _)

-- Any use leaves it in order.
theorem Arises.ledger (h : Arises s) : ∃ cat, s.Ledger cat := by
  induction h with
  | new loader oracle config => exact ⟨_, ledger_new loader oracle config⟩
  | template name _ ih =>
      obtain ⟨cat, ih⟩ := ih
      exact ⟨cat, ih.request_of_grows fun w => w.grows_template name⟩
  | schema name _ ih =>
      obtain ⟨cat, ih⟩ := ih
      exact ⟨cat, ih.request_of_grows (Workshop.persists_grows.schema · name)⟩
  | program key _ ih =>
      obtain ⟨cat, ih⟩ := ih
      obtain ⟨cat', hobtained⟩ := ih.request_getOrCompile key
      exact ⟨cat', hobtained.ledger⟩
  | given key made _ ih =>
      obtain ⟨cat, ih⟩ := ih
      obtain ⟨cat', hobtained⟩ := ih.request_getOrCompileWith key made
      exact ⟨cat', hobtained.ledger⟩
  | render model root sink _ hc ih =>
      obtain ⟨cat, ih⟩ := ih
      obtain ⟨-, cat', hledger, -⟩ :=
        (minds _ _ _).render (ih.tends (ih.held hc)) model root sink
      exact ⟨cat', hledger⟩
  | keep name _ hc ih =>
      obtain ⟨cat, ih⟩ := ih
      refine ⟨cat, { ih with kept := fun {other d} hmem => ?_ }⟩
      obtain heq | hmem := List.mem_cons.mp hmem
      · obtain ⟨rfl, rfl⟩ := Prod.mk.inj heq
        exact ih.held hc
      · exact ih.kept (List.mem_filter.mp hmem).1
  | forget name _ ih =>
      obtain ⟨cat, ih⟩ := ih
      exact ⟨cat, { ih with kept := fun hmem => ih.kept (List.mem_filter.mp hmem).1 }⟩
  | drop _ ih =>
      obtain ⟨cat, ih⟩ := ih
      exact ⟨cat, ih.drop⟩
  | @withConfig s config _ ih =>
      obtain ⟨cat, ih⟩ := ih
      refine ⟨cat, ?_⟩
      unfold Session.withConfig
      cases s.registry with
      | none => exact ih
      | some r => exact ih.replace _ _
  | @withOracle s oracle _ ih =>
      obtain ⟨cat, ih⟩ := ih
      refine ⟨cat, ?_⟩
      unfold Session.withOracle
      cases s.registry with
      | none => exact ih
      | some r => exact ih.replace _ _
  | withLoader loader _ ih =>
      obtain ⟨cat, ih⟩ := ih
      exact ⟨cat, { ih with }⟩
  | takeLoads _ ih =>
      obtain ⟨cat, ih⟩ := ih
      exact ⟨cat, { ih with }⟩

end Session

end Stencil
