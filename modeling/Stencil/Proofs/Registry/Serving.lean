import Stencil.Proofs.Registry.Library
import Stencil.Registry.Session

/-!
A session serves what its library gives: whatever was parsed, compiled, kept and linked before, a
request for a program and a link give the program that the library says, or its failure.
-/

namespace Stencil

namespace Workshop

variable {lib : Library} {w : Workshop}

-- After a program was made for a key.
def publish (w : Workshop) (key : Key) (c : Compiled) : Workshop :=
  { w with
    nextSerial := c.serial + 1
    registry := { w.registry with
      published := (key, c) :: w.registry.published
      compileCount := w.registry.compileCount + 1 } }

theorem find?_publish (w : Workshop) (key other : Key) (c : Compiled) :
    (w.publish key c).registry.find? other =
      if other = key then some c else w.registry.find? other := by
  simp only [Registry.find?, publish, List.lookup_cons]
  by_cases h : other = key
  · simp [h]
  · simp [h, beq_false_of_ne h]

-- A published program is given as it is, whatever the supplier would do.
theorem run_obtain_of_published {key : Key} {c : Compiled} (h : w.registry.find? key = some c)
    (supplier : Request (Option Nat × Program)) : (obtain key supplier).run w = (.ok c, w) := by
  rw [obtain, run_get, h]
  rfl

-- Else the supplier is run, and what it makes is published.
theorem run_obtain_of_new {key : Key} (h : w.registry.find? key = none)
    (supplier : Request (Option Nat × Program)) :
    (obtain key supplier).run w =
      match supplier.run w with
      | (.ok (home, p), w') =>
        (.ok ⟨w'.nextSerial, home, p⟩, w'.publish key ⟨w'.nextSerial, home, p⟩)
      | (.error e, w') => (.error e, w') := by
  rw [obtain, run_get, h]
  dsimp only
  rw [run_bind]
  rcases supplier.run w with ⟨_ | _, _⟩ <;> rfl

-- Either way, what is given is published from then on.
theorem find?_of_run_obtain {w' : Workshop} {key : Key} {c : Compiled}
    {supplier : Request (Option Nat × Program)} (h : (obtain key supplier).run w = (.ok c, w')) :
    w'.registry.find? key = some c := by
  cases hfind : w.registry.find? key with
  | some d =>
      rw [run_obtain_of_published hfind] at h
      cases h
      exact hfind
  | none =>
      rw [run_obtain_of_new hfind] at h
      split at h
      · cases h
        rw [find?_publish, if_pos rfl]
      · cases h

-- A key without a program gets the one that the library says.
theorem run_getOrCompile_of_new (h : w.Parses lib) {key : Key}
    (hnew : w.registry.find? key = none) :
    ∃ w', w'.Parses lib ∧ Grows w w' ∧
      (getOrCompile key).run w =
        match lib.program key with
        | .ok p =>
          (.ok ⟨w.nextSerial, some w.registry.number, p⟩,
            w'.publish key ⟨w.nextSerial, some w.registry.number, p⟩)
        | .error e => (.error e, w') := by
  obtain ⟨w', hrun, hparses, hgrows⟩ := run_compile h key
  refine ⟨w', hparses, hgrows, ?_⟩
  rw [getOrCompile, run_obtain_of_new hnew, hrun]
  cases hprogram : lib.program key with
  | error e => rfl
  | ok p =>
      rw [← hgrows.nextSerial]
      rfl

end Workshop

-- All programs that were compiled, by their serial numbers.
abbrev Catalogue := Nat → Option Compiled

-- One catalogue and a later one.
def Catalogue.Grows (cat cat' : Catalogue) : Prop := ∀ n c, cat n = some c → cat' n = some c

namespace Catalogue

-- A catalogue with one more program.
def add (cat : Catalogue) (c : Compiled) : Catalogue :=
  fun n => if n = c.serial then some c else cat n

theorem add_self (cat : Catalogue) (c : Compiled) : cat.add c c.serial = some c := by
  simp [add]

theorem add_cases {cat : Catalogue} {c c' : Compiled} {n : Nat} (h : cat.add c n = some c') :
    (n = c.serial ∧ c = c') ∨ cat n = some c' := by
  unfold add at h
  split at h
  · next hn => exact .inl ⟨hn, Option.some.inj h⟩
  · exact .inr h

theorem grows_add {cat : Catalogue} {c : Compiled}
    (h : ∀ n c', cat n = some c' → n < c.serial) : cat.Grows (cat.add c) := by
  intro n c' hc'
  have hne : n ≠ c.serial := Nat.ne_of_lt (h n c' hc')
  simp [add, hne, hc']

end Catalogue

namespace Session

-- A session with a registry whose programs are all as the library says.
structure Serves (lib : Library) (cat : Catalogue) (s : Session) : Prop where
  loader : s.loader = lib.loader
  registered : ∃ r, s.registry = some r
  parses : ∀ {r}, s.registry = some r → r.Parses lib
  homed : ∀ {r n c}, s.registry = some r → cat n = some c → c.home = some r.number
  published : ∀ {r key c}, s.registry = some r → r.find? key = some c →
    cat c.serial = some c ∧ lib.program key = .ok c.program
  numbered : ∀ {n c}, cat n = some c → c.serial = n ∧ n < s.nextSerial
  made : ∀ {n c}, cat n = some c → lib.program ⟨c.program.name, c.program.mode⟩ = .ok c.program
  kept : ∀ {name c}, (name, c) ∈ s.kept → cat c.serial = some c
  linked : ∀ {site callee}, s.links.lookup site = some callee → cat callee.serial = some callee ∧
    ∃ owner t target, cat site.owner = some owner ∧ lib.template owner.program.name = .ok t ∧
      t.template.targets[site.index]? = some target ∧
      lib.program ⟨target, owner.program.mode⟩ = .ok callee.program

variable {lib : Library} {cat : Catalogue} {s : Session} {r : Registry} {w : Workshop}

-- What a request is made to, and the session after it.
def workshop (s : Session) (r : Registry) : Workshop := ⟨r, s.loader, s.loads, s.nextSerial⟩

def after (s : Session) (w : Workshop) : Session :=
  { s with registry := some w.registry, loads := w.loads, nextSerial := w.nextSerial }

theorem request_eq {α : Type} (hr : s.registry = some r) (x : Workshop.Request α) :
    s.request x = (some (x.run (s.workshop r)).1, s.after (x.run (s.workshop r)).2) := by
  unfold request
  rw [hr]
  rfl

theorem Serves.parses_workshop (h : s.Serves lib cat) (hr : s.registry = some r) :
    (s.workshop r).Parses lib :=
  ⟨h.parses hr, h.loader⟩

-- Parsing changes nothing that was compiled.
theorem Serves.after_grows (h : s.Serves lib cat) (hr : s.registry = some r)
    (hw : w.Parses lib) (hgrows : (s.workshop r).Grows w) : (s.after w).Serves lib cat where
  loader := h.loader
  registered := ⟨w.registry, rfl⟩
  parses := by
    rintro _ ⟨⟩
    exact hw.registry
  homed := by
    rintro _ n c ⟨⟩ hc
    rw [h.homed hr hc, hgrows.number]
    rfl
  published := by
    rintro _ key c ⟨⟩ hc
    rw [Registry.find?, hgrows.published] at hc
    exact h.published hr hc
  numbered := by
    intro n c hc
    have hserial : (s.after w).nextSerial = s.nextSerial := hgrows.nextSerial
    rw [hserial]
    exact h.numbered hc
  made := h.made
  kept := h.kept
  linked := h.linked

theorem Serves.grows_add (h : s.Serves lib cat) (home : Option Nat) (p : Program) :
    cat.Grows (cat.add ⟨s.nextSerial, home, p⟩) := by
  refine Catalogue.grows_add fun n c hc => ?_
  exact (h.numbered hc).2

-- A program that was just made is the one that its key stands for from now on.
theorem Serves.after_publish (h : s.Serves lib cat) (hr : s.registry = some r)
    (hw : w.Parses lib) (hgrows : (s.workshop r).Grows w) {key : Key} {p : Program}
    (hp : lib.program key = .ok p) :
    (s.after (w.publish key ⟨s.nextSerial, some r.number, p⟩)).Serves lib
      (cat.add ⟨s.nextSerial, some r.number, p⟩) := by
  have hadd := h.grows_add (some r.number) p
  have hself : cat.add ⟨s.nextSerial, some r.number, p⟩ s.nextSerial =
      some ⟨s.nextSerial, some r.number, p⟩ := Catalogue.add_self _ _
  refine ⟨h.loader, ⟨_, rfl⟩, ?_, ?_, ?_, ?_, ?_, fun hc => hadd _ _ (h.kept hc), ?_⟩
  · rintro _ ⟨⟩
    exact ⟨hw.registry.oracle, hw.registry.config, hw.registry.parsed⟩
  · rintro _ n c ⟨⟩ hc
    have hnumber : w.registry.number = r.number := hgrows.number
    obtain ⟨rfl, rfl⟩ | hc := Catalogue.add_cases hc
    · exact congrArg some hnumber.symm
    · exact (h.homed hr hc).trans (congrArg some hnumber.symm)
  · rintro _ other c ⟨⟩ hc
    rw [Workshop.find?_publish] at hc
    split at hc
    · next hkey =>
      subst hkey
      obtain rfl := Option.some.inj hc
      exact ⟨hself, hp⟩
    · rw [Registry.find?, hgrows.published] at hc
      obtain ⟨hcat, hprogram⟩ := h.published hr hc
      exact ⟨hadd _ _ hcat, hprogram⟩
  · intro n c hc
    obtain ⟨rfl, rfl⟩ | hc := Catalogue.add_cases hc
    · exact ⟨rfl, Nat.lt_succ_self _⟩
    · obtain ⟨hserial, hlt⟩ := h.numbered hc
      exact ⟨hserial, Nat.lt_succ_of_lt hlt⟩
  · intro n c hc
    obtain ⟨rfl, rfl⟩ | hc := Catalogue.add_cases hc
    · rw [Library.key_of_program hp, hp]
    · exact h.made hc
  · intro site callee hlink
    obtain ⟨hcallee, owner, t, target, howner, ht, htarget, hprogram⟩ := h.linked hlink
    exact ⟨hadd _ _ hcallee, owner, t, target, hadd _ _ howner, ht, htarget, hprogram⟩

-- A request for a program gives what the library says. What is given is in the catalogue.
theorem Serves.request_getOrCompile (h : s.Serves lib cat) (key : Key) :
    (∃ c s' cat', s.request (Workshop.getOrCompile key) = (some (.ok c), s') ∧
      lib.program key = .ok c.program ∧ s'.Serves lib cat' ∧ cat.Grows cat' ∧
      cat' c.serial = some c ∧ s'.links = s.links) ∨
    ∃ e s', s.request (Workshop.getOrCompile key) = (some (.error e), s') ∧
      lib.program key = .error e ∧ s'.Serves lib cat := by
  obtain ⟨r, hr⟩ := h.registered
  rw [request_eq hr]
  cases hfind : r.find? key with
  | some c =>
      obtain ⟨hc, hprogram⟩ := h.published hr hfind
      rw [Workshop.getOrCompile, Workshop.run_obtain_of_published hfind]
      refine .inl ⟨c, _, cat, rfl, hprogram, ?_, fun _ _ => id, hc, rfl⟩
      exact h.after_grows hr (h.parses_workshop hr) (.refl _)
  | none =>
      obtain ⟨w, hw, hgrows, hrun⟩ :=
        Workshop.run_getOrCompile_of_new (h.parses_workshop hr) hfind
      rw [hrun]
      cases hprogram : lib.program key with
      | error e => exact .inr ⟨e, _, rfl, rfl, h.after_grows hr hw hgrows⟩
      | ok p =>
          exact .inl ⟨_, _, _, rfl, rfl, h.after_publish hr hw hgrows hprogram, h.grows_add _ _,
            Catalogue.add_self _ _, rfl⟩

-- The registry that a program comes from is still there.
theorem Serves.home?_isSome (h : s.Serves lib cat) {n : Nat} {c : Compiled} (hc : cat n = some c) :
    ∃ r, s.home? c = some r := by
  obtain ⟨r, hr⟩ := h.registered
  refine ⟨r, ?_⟩
  rw [home?, hr]
  simp [Option.filter, h.homed hr hc]

-- A new link of a site that has none.
theorem Serves.add_link (h : s.Serves lib cat) {site : Site} {owner callee : Compiled}
    {t : NamedTemplate} {target : String} (hcallee : cat callee.serial = some callee)
    (howner : cat site.owner = some owner) (ht : lib.template owner.program.name = .ok t)
    (htarget : t.template.targets[site.index]? = some target)
    (hprogram : lib.program ⟨target, owner.program.mode⟩ = .ok callee.program) :
    ({ s with links := (site, callee) :: s.links } : Session).Serves lib cat where
  loader := h.loader
  registered := h.registered
  parses := h.parses
  homed := h.homed
  published := h.published
  numbered := h.numbered
  made := h.made
  kept := h.kept
  linked := by
    intro other callee' hlink
    simp only [List.lookup_cons] at hlink
    split at hlink
    · next hsite =>
      obtain rfl : other = site := by simpa using hsite
      obtain rfl := Option.some.inj hlink
      exact ⟨hcallee, owner, t, target, howner, ht, htarget, hprogram⟩
    · exact h.linked hlink

-- An inclusion is linked to what the library says, or fails with its failure.
theorem Serves.link (h : s.Serves lib cat) {self : Compiled} {t : NamedTemplate} {index : Nat}
    {target : String} (hself : cat self.serial = some self)
    (ht : lib.template self.program.name = .ok t)
    (htarget : t.template.targets[index]? = some target) :
    (∃ callee s' cat', Session.link self index target s = (.ok callee, s') ∧
      lib.program ⟨target, self.program.mode⟩ = .ok callee.program ∧ s'.Serves lib cat' ∧
      cat.Grows cat' ∧ cat' callee.serial = some callee) ∨
    ∃ e s', Session.link self index target s =
        (.error (.unresolvedInclusion target e.message), s') ∧
      lib.program ⟨target, self.program.mode⟩ = .error e ∧ s'.Serves lib cat := by
  unfold Session.link
  dsimp only
  cases hlive : (s.links.lookup ⟨self.serial, index⟩).filter s.isAlive with
  | some callee =>
      obtain ⟨hlink, -⟩ := Option.filter_eq_some_iff.mp hlive
      obtain ⟨hcallee, owner, u, target', howner, hu, htarget', hprogram⟩ := h.linked hlink
      obtain rfl : self = owner := Option.some.inj (hself.symm.trans howner)
      obtain rfl : t = u := Except.ok.inj (ht.symm.trans hu)
      obtain rfl : target = target' := Option.some.inj (htarget.symm.trans htarget')
      exact .inl ⟨callee, s, cat, rfl, hprogram, h, fun _ _ => id, hcallee⟩
  | none =>
      obtain ⟨r, hr⟩ := h.home?_isSome hself
      rw [hr]
      obtain ⟨callee, s', cat', hrequest, hprogram, hs', hgrows, hcallee, hlinks⟩ |
        ⟨e, s', hrequest, hprogram, hs'⟩ := h.request_getOrCompile ⟨target, self.program.mode⟩
      · simp only [hrequest]
        refine .inl ⟨callee, _, cat', rfl, hprogram, ?_, hgrows, hcallee⟩
        split
        · exact hs'
        · exact hs'.add_link hcallee (hgrows _ _ hself) ht htarget hprogram
      · simp only [hrequest]
        exact .inr ⟨e, s', rfl, hprogram, hs'⟩

end Session

end Stencil
