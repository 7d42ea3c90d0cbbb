import Stencil.Proofs.Registry.Arising
import Stencil.Proofs.Render.Lockstep

/-!
Links are a cache. While the registry of a program is there, it makes no difference which of its
inclusions were linked before; once the registry is gone, a link that outlives it does.
-/

namespace Stencil

open Relation Run

-- All that can be seen of a render.
def Rendering.seen {ρ ω : Type} (r : Rendering ρ ω) :
    Except RenderError Unit × List Piece × Sink × List (Request ρ) :=
  (r.outcome, r.pieces, r.sink, r.requests)

namespace Session

variable {cat : Catalogue} {s s' : Session} {r : Registry} {self c : Compiled} {index : Nat}
  {target : String}

-- A session in which no inclusion was ever linked.
def unlinked (s : Session) : Session := { s with links := [] }

-- Sessions that differ in what was linked, at most.
def Alike (s s' : Session) : Prop := s.unlinked = s'.unlinked

-- A linker that looks for the target of an inclusion each time.
def resolving : Linker Compiled Session :=
  ⟨Compiled.program, fun self _ target s => resolve self target s⟩

-- A program whose registry is gone has an inclusion that is linked to something alive.
def Outlives (s : Session) (self : Compiled) (index : Nat) : Prop :=
  s.home? self = none ∧ (s.linkAt ⟨self.serial, index⟩).isSome

theorem request_withLinks {α : Type} (x : Workshop.Request α) (s : Session)
    (links : List (Site × Compiled)) :
    ({ s with links := links } : Session).request x =
      ((s.request x).1, { (s.request x).2 with links := links }) := by
  obtain ⟨_ | r, _, _, _, _, _, _⟩ := s <;> rfl

-- Looking for a target neither follows links nor makes any.
theorem resolve_withLinks (self : Compiled) (target : String) (s : Session)
    (links : List (Site × Compiled)) :
    resolve self target { s with links := links } =
      ((resolve self target s).1, { (resolve self target s).2 with links := links }) := by
  have hhome : ({ s with links := links } : Session).home? self = s.home? self := rfl
  unfold resolve
  rw [hhome, request_withLinks]
  cases s.home? self with
  | none => rfl
  | some r =>
      dsimp only
      generalize s.request (Workshop.getOrCompile ⟨target, self.program.mode⟩) = given
      obtain ⟨_ | _ | _, _⟩ := given <;> rfl

theorem resolve_congr (h : s.Alike s') (self : Compiled) (target : String) :
    (resolve self target s).1 = (resolve self target s').1 ∧
      (resolve self target s).2.Alike (resolve self target s').2 := by
  have hthis := resolve_withLinks self target s []
  have hthat := resolve_withLinks self target s' []
  have hsame := (hthis.symm.trans (congrArg (resolve self target) h)).trans hthat
  exact ⟨(Prod.mk.inj hsame).1, (Prod.mk.inj hsame).2⟩

-- Unless it outlives its registry, a link says what looking for the target would.
theorem Ledger.link_eq_resolve (h : s.Ledger cat) (hself : cat self.serial = some self)
    {args : List (Option Formula)} (hleaf : .inclusion index target args ∈ self.program.leaves)
    (hlives : ¬ s.Outlives self index) :
    (Session.link self index target s).1 = (Session.resolve self target s).1 ∧
      (Session.link self index target s).2.Alike (Session.resolve self target s).2 := by
  cases hlink : s.linkAt ⟨self.serial, index⟩ with
  | none =>
      rw [link_of_no_linkAt hlink]
      generalize Session.resolve self target s = resolved
      obtain ⟨_ | _, _⟩ := resolved <;> exact ⟨rfl, rfl⟩
  | some callee =>
      obtain ⟨-, owner, target', args', howner, hhome, hleaf', -, hcurrent⟩ :=
        h.linked (Option.filter_eq_some_iff.mp hlink).1
      obtain rfl := Option.some.inj (hself.symm.trans howner)
      obtain rfl : target' = target := h.sited hself hhome hleaf' hleaf
      cases hthere : s.home? self with
      | none => exact absurd ⟨hthere, by simp [hlink]⟩ hlives
      | some r =>
          obtain ⟨hr, hnumber⟩ := home?_eq_some_iff.mp hthere
          have hsettled := settled_of_published hr (hcurrent r hr hnumber)
            (Workshop.compile ⟨target', self.program.mode⟩)
          rw [link_of_linkAt hlink]
          simp only [Session.resolve, hthere, Workshop.getOrCompile, hsettled]
          exact ⟨trivial, rfl⟩

-- Without a registry, an inclusion gives what it is linked to, and nothing changes.
theorem link_of_no_home (h : s.home? self = none) (target : String) :
    Session.link self index target s =
      match s.linkAt ⟨self.serial, index⟩ with
      | some callee => (.ok callee, s)
      | none => (.error (.unresolvedInclusion target "no registry is available"), s) := by
  cases hlink : s.linkAt ⟨self.serial, index⟩ with
  | some callee => exact link_of_linkAt hlink target
  | none => rw [link_of_no_linkAt hlink, resolve_of_no_home h]

theorem Outlives.link (h : s.Outlives self index) (target : String) :
    ∃ callee, Session.link self index target s = (.ok callee, s) ∧
      resolve self target s =
        (.error (.unresolvedInclusion target "no registry is available"), s) := by
  obtain ⟨hhome, hlink⟩ := h
  obtain ⟨callee, hlink⟩ := Option.isSome_iff_exists.mp hlink
  exact ⟨callee, link_of_linkAt hlink target, resolve_of_no_home hhome target⟩

theorem home?_congr (h : self.home = c.home) (s : Session) : s.home? self = s.home? c := by
  simp only [home?, h]

theorem home?_of_homeless (h : c.home = none) (s : Session) : s.home? c = none := by
  simp [home?, h]

theorem Ledger.unlinked (h : s.Ledger cat) : s.unlinked.Ledger cat :=
  { h with linked := fun hlink => nomatch hlink }

section Rendering

variable {ρ : Type} [DecidableEq ρ] {model : Model ρ} {root : ρ} {m : Moment Compiled ρ Session}
  {site : Nat}

-- What is known of a program that is executed in a render.
theorem Ledger.at_moment (h : s.Ledger cat) (hc : cat c.serial = some c)
    (hm : linker.Reaches model root c s m) :
    m.self.MadeFor c.home c.program.mode ∧
      m.effects.links.registry.map Registry.number = s.registry.map Registry.number ∧
      ∃ cat', m.effects.links.Ledger cat' ∧ cat' m.self.serial = some m.self := by
  obtain ⟨K, hself, hnumber, cat', hledger, hK⟩ :=
    (minds _ _ _).knows_of_reaches (h.tends hc) hm
  obtain ⟨hknown, hmade⟩ := hK m.self hself
  exact ⟨hmade, hnumber, cat', hledger, hknown⟩

theorem Ledger.link_at_moment (h : s.Ledger cat) (hc : cat c.serial = some c)
    (hm : linker.Reaches model root c s m) (hexecutes : m.Executes site target)
    (hlives : ¬ m.effects.links.Outlives m.self site) :
    (Session.link m.self site target m.effects.links).1 =
        (Session.resolve m.self target m.effects.links).1 ∧
      (Session.link m.self site target m.effects.links).2.Alike
        (Session.resolve m.self target m.effects.links).2 := by
  obtain ⟨-, args, ops, hfirst⟩ := hexecutes
  obtain ⟨-, -, cat', hledger, hself⟩ := h.at_moment hc hm
  have hleaf : Op.inclusion site target args ∈ (linker.program m.self).leaves := by
    refine hm.leaves ?_
    rw [hfirst]
    exact List.mem_cons_self
  exact hledger.link_eq_resolve hself hleaf hlives

-- While the registry of the program that is rendered is there, no link outlives it,
theorem Ledger.not_outlives (h : s.Ledger cat) (hc : cat c.serial = some c)
    (hhome : (s.home? c).isSome) (hm : linker.Reaches model root c s m) :
    ¬ m.effects.links.Outlives m.self site := by
  rintro ⟨hgone, hlink⟩
  obtain ⟨hmade, hnumber, cat', hledger, hself⟩ := h.at_moment hc hm
  obtain hnone | ⟨hsame, -⟩ := hmade
  · obtain ⟨callee, hlink⟩ := Option.isSome_iff_exists.mp hlink
    obtain ⟨-, owner, -, -, howner, howned, -⟩ :=
      hledger.linked (Option.filter_eq_some_iff.mp hlink).1
    obtain rfl := Option.some.inj (hself.symm.trans howner)
    exact howned hnone
  · obtain ⟨r, hr⟩ := Option.isSome_iff_exists.mp hhome
    obtain ⟨hr, hc⟩ := home?_eq_some_iff.mp hr
    rw [hr] at hnumber
    obtain ⟨r', hr', hsameNumber⟩ := Option.map_eq_some_iff.mp hnumber
    have hthere : m.effects.links.home? m.self = some r' :=
      home?_eq_some_iff.mpr ⟨hr', by rw [hsame, hc, hsameNumber]⟩
    rw [hgone] at hthere
    cases hthere

-- and once it is gone, nothing is linked any more.
theorem Ledger.minds_gone (h : s.Ledger cat) (hgone : s.home? c = none) :
    linker.Minds fun K s' => s' = s ∧
      ∀ d, K d → cat d.serial = some d ∧ d.MadeFor c.home c.program.mode := by
  have hhomeless {d : Compiled} (hd : d.MadeFor c.home c.program.mode) : s.home? d = none := by
    obtain hnone | ⟨hsame, -⟩ := hd
    · exact home?_of_homeless hnone s
    · rw [home?_congr hsame, hgone]
  refine ⟨fun hKK' hK => ⟨hK.1, fun d hd => hK.2 d (hKK' d hd)⟩, ?_, ?_⟩
  · rintro K links s' self site target args callee ⟨hsame, hK⟩ hself - hlink
    obtain ⟨hknown, hmade⟩ := hK self hself
    rw [hsame] at hlink
    have heq := (link_of_no_home (hhomeless hmade) target).symm.trans hlink
    cases hat : s.linkAt ⟨self.serial, site⟩ with
    | none =>
        rw [hat] at heq
        cases heq
    | some callee' =>
        rw [hat] at heq
        cases heq
        obtain ⟨hcallee, owner, -, -, howner, -, -, hmade', -⟩ :=
          h.linked (Option.filter_eq_some_iff.mp hat).1
        obtain rfl := Option.some.inj (hknown.symm.trans howner)
        refine ⟨rfl, ?_⟩
        rintro d (hd | rfl)
        · exact hK d hd
        · exact ⟨hcallee, hmade.trans hmade'⟩
  · rintro K links s' self site target args err ⟨hsame, hK⟩ hself - hlink
    obtain ⟨-, hmade⟩ := hK self hself
    rw [hsame] at hlink
    have heq := (link_of_no_home (hhomeless hmade) target).symm.trans hlink
    refine ⟨?_, hK⟩
    cases hat : s.linkAt ⟨self.serial, site⟩ <;> rw [hat] at heq <;> cases heq
    rfl

theorem Ledger.links_of_gone (h : s.Ledger cat) (hc : cat c.serial = some c)
    (hgone : s.home? c = none) (hm : linker.Reaches model root c s m) : m.effects.links = s := by
  obtain ⟨-, -, hsame, -⟩ := (h.minds_gone hgone).knows_of_reaches
    (⟨rfl, by rintro _ rfl; exact ⟨hc, .inr ⟨rfl, rfl⟩⟩⟩) hm
  exact hsame

-- Without links, none outlives its registry.
theorem Ledger.not_outlives_unlinked (h : s.Ledger cat) (hc : cat c.serial = some c)
    (hm : linker.Reaches model root c s.unlinked m) : ¬ m.effects.links.Outlives m.self site := by
  cases hhome : s.unlinked.home? c with
  | some r => exact h.unlinked.not_outlives hc (by simp [hhome]) hm
  | none =>
      rintro ⟨-, hlink⟩
      rw [h.unlinked.links_of_gone hc hhome hm] at hlink
      simp [linkAt, Session.unlinked] at hlink

theorem Ledger.seen_resolving (h : s.Ledger cat) (hc : cat c.serial = some c)
    (hlives : ∀ m site target, linker.Reaches model root c s m → m.Executes site target →
      ¬ m.effects.links.Outlives m.self site) (hs' : s.Alike s') (sink : Sink) :
    (s.renderProgram c model root sink).seen = (render resolving c model root sink s').seen := by
  have halike : ∀ m, linker.Reaches model root c s m →
      linker.LinksAlike resolving Alike m := by
    intro m hm site target hexecutes links' hlinks'
    obtain ⟨hresult, hafter⟩ :=
      h.link_at_moment hc hm hexecutes (hlives m site target hm hexecutes)
    obtain ⟨hresult', hafter'⟩ := resolve_congr hlinks' m.self target
    exact ⟨hresult.trans hresult', hafter.trans hafter'⟩
  have hprogram : linker.program = resolving.program := rfl
  obtain ⟨houtcome, hpieces, hsink, hrequests, -⟩ :=
    Linker.render_alike hprogram halike hs' sink
  simp only [Rendering.seen, renderProgram, houtcome, hpieces, hsink, hrequests]

end Rendering

-- At each inclusion that is executed in a render of a program at hand, following the links is the
-- same as looking for the target, just if no link outlives the registry there. One can do so only
-- when the registry of the program that is rendered is gone: then it leads to a program where
-- looking for the target fails. If none does, the render is the same as if no inclusion had ever
-- been linked, and as if none were ever linked.
theorem links_transparent_iff (hs : Arises s) (hc : s.Holds c) {ρ : Type} [DecidableEq ρ]
    (model : Model ρ) (root : ρ) (sink : Sink) :
    let Executes (m : Moment Compiled ρ Session) (site : Nat) (target : String) : Prop :=
      linker.Reaches model root c s m ∧ m.Executes site target
    (∀ m site target, Executes m site target →
      ((Session.link m.self site target m.effects.links).1 =
        (resolve m.self target m.effects.links).1 ↔ ¬ m.effects.links.Outlives m.self site)) ∧
    (∀ m site target, Executes m site target → m.effects.links.Outlives m.self site →
      s.home? c = none ∧ m.effects.links = s ∧
      ∃ callee, Session.link m.self site target s = (.ok callee, s) ∧
        resolve m.self target s =
          (.error (.unresolvedInclusion target "no registry is available"), s)) ∧
    ((∀ m site target, Executes m site target → ¬ m.effects.links.Outlives m.self site) →
      let r := s.renderProgram c model root sink
      r.seen = (s.unlinked.renderProgram c model root sink).seen ∧
        r.seen = (render resolving c model root sink s).seen) := by
  intro Executes
  obtain ⟨cat, hledger⟩ := hs.ledger
  have hknown : cat c.serial = some c := hledger.held hc
  refine ⟨fun m site target ⟨hm, hexecutes⟩ => ⟨fun hsame houtlives => ?_, fun hlives => ?_⟩,
    fun m site target ⟨hm, hexecutes⟩ houtlives => ?_, fun hlives => ⟨?_, ?_⟩⟩
  · obtain ⟨callee, hlink, hresolve⟩ := houtlives.link target
    rw [hlink, hresolve] at hsame
    cases hsame
  · exact (hledger.link_at_moment hknown hm hexecutes hlives).1
  · cases hgone : s.home? c with
    | some r => exact absurd houtlives (hledger.not_outlives hknown (by simp [hgone]) hm)
    | none =>
        have hsame : m.effects.links = s := hledger.links_of_gone hknown hgone hm
        rw [hsame] at houtlives
        exact ⟨rfl, hsame, houtlives.link target⟩
  · have hunlinked : ∀ m site target, linker.Reaches model root c s.unlinked m →
        m.Executes site target → ¬ m.effects.links.Outlives m.self site :=
      fun m site target hm _ => hledger.not_outlives_unlinked hknown hm
    have halike : s.unlinked.Alike s := rfl
    have hresolving : (s.unlinked.renderProgram c model root sink).seen =
        (render resolving c model root sink s).seen :=
      hledger.unlinked.seen_resolving hknown hunlinked halike sink
    rw [hresolving]
    exact hledger.seen_resolving hknown
      (fun m site target hm hexecutes => hlives m site target ⟨hm, hexecutes⟩) rfl sink
  · exact hledger.seen_resolving hknown
      (fun m site target hm hexecutes => hlives m site target ⟨hm, hexecutes⟩) rfl sink

-- Asks for a program, and holds it.
def hold (s : Session) (name : String) (key : Key) : Option (Compiled × Session) :=
  match s.request (Workshop.getOrCompile key) with
  | (some (.ok c), s) => some (c, s.keep name c)
  | _ => none

theorem Arises.hold (h : Arises s) {name : String} {key : Key}
    (hhold : s.hold name key = some (c, s')) : Arises s' ∧ (name, c) ∈ s'.kept := by
  obtain ⟨cat, hledger⟩ := h.ledger
  obtain ⟨cat', hobtained⟩ := hledger.request_getOrCompile key
  have hafter := h.program key
  unfold Session.hold at hhold
  generalize s.request (Workshop.getOrCompile key) = given at hhold hobtained hafter
  obtain ⟨_ | _ | d, s₁⟩ := given
  · cases hhold
  · cases hhold
  · cases hhold
    obtain ⟨r, hr, hfind, -⟩ := hobtained.found c rfl
    exact ⟨hafter.keep name (.inr ⟨r, key, hr, hfind⟩), List.mem_cons_self⟩

-- Neither a request nor a render lets go of a program.
theorem kept_request {α : Type} (x : Workshop.Request α) (s : Session) :
    (s.request x).2.kept = s.kept := by
  obtain ⟨_ | r, _, _, _, _, _, _⟩ := s <;> rfl

theorem kept_renderProgram {ρ : Type} [DecidableEq ρ] (s : Session) (c : Compiled)
    (model : Model ρ) (root : ρ) (sink : Sink) :
    (s.renderProgram c model root sink).links.kept = s.kept := by
  have hsteps : ReflTransGen linker.Links s (s.renderProgram c model root sink).links :=
    linker.steps_render c model root sink s
  generalize (s.renderProgram c model root sink).links = s' at hsteps ⊢
  induction hsteps with
  | refl => rfl
  | @tail before after _ hlink ih =>
      obtain ⟨self, index, target, rfl⟩ := hlink
      obtain hsame | ⟨links, hlink⟩ := link_cases self index target before
      · exact (congrArg Session.kept hsame).trans ih
      · exact ((congrArg Session.kept hlink).trans (kept_request _ before)).trans ih

-- A page and the part that it includes.
def pairLibrary : Library where
  loader := ((MemorySource.empty.insert "page" "1@template.part()").insert "part" "2").load
  oracle := Declarations.empty.oracle
  config := .default

def pairModel : Model Nat := .ofFields fun _ _ => none

-- Both are held, and the page was rendered.
def heldPair : Option (Compiled × Session) := do
  let s := Session.new pairLibrary.loader pairLibrary.oracle pairLibrary.config
  let (page, s) ← s.hold "page" ⟨"page", .text⟩
  let (_, s) ← s.hold "part" ⟨"part", .text⟩
  return (page, (s.renderProgram page pairModel 0 (.empty .text .html)).links)

theorem kept_of_hold {name other : String} {key : Key} {d : Compiled} (h : (other, d) ∈ s.kept)
    (hother : other ≠ name) (hhold : s.hold name key = some (c, s')) : (other, d) ∈ s'.kept := by
  have hsame := kept_request (Workshop.getOrCompile key) s
  unfold Session.hold at hhold
  generalize s.request (Workshop.getOrCompile key) = given at hhold hsame
  obtain ⟨_ | _ | d, s₁⟩ := given
  · cases hhold
  · cases hhold
  · cases hhold
    refine List.mem_cons_of_mem _ (List.mem_filter.mpr ⟨?_, by simpa using hother⟩)
    exact (hsame : s₁.kept = s.kept) ▸ h

theorem arises_of_heldPair {page : Compiled} (h : heldPair = some (page, s)) :
    Arises s ∧ ("page", page) ∈ s.kept := by
  obtain ⟨⟨page, s₁⟩, hpage, h⟩ := Option.bind_eq_some_iff.mp h
  obtain ⟨⟨part, s₂⟩, hpart, h⟩ := Option.bind_eq_some_iff.mp h
  cases h
  obtain ⟨hs₁, hkept⟩ := (Arises.new _ _ _).hold hpage
  obtain ⟨hs₂, -⟩ := hs₁.hold hpart
  have hkept : ("page", page) ∈ s₂.kept := kept_of_hold hkept (by decide) hpart
  refine ⟨hs₂.render pairModel 0 _ (.inl ⟨_, hkept⟩), ?_⟩
  rw [kept_renderProgram]
  exact hkept

theorem exists_heldPair :
    let sink := Sink.empty .text .html
    ∃ page s, Arises s ∧ ("page", page) ∈ s.kept ∧ (s.home? page).isSome ∧
      (s.drop.renderProgram page pairModel 0 sink).outcome = .ok () ∧
      (s.drop.unlinked.renderProgram page pairModel 0 sink).outcome =
        .error (.unresolvedInclusion "part" "no registry is available") := by
  intro sink
  have hshown : heldPair.map (fun (page, s) =>
      ((s.home? page).isSome,
        (s.drop.renderProgram page pairModel 0 sink).outcome,
        (s.drop.unlinked.renderProgram page pairModel 0 sink).outcome)) =
      some (true, .ok (),
        .error (.unresolvedInclusion "part" "no registry is available")) := by decide +kernel
  obtain ⟨⟨page, s⟩, hpair, hseen⟩ := Option.map_eq_some_iff.mp hshown
  simp only [Prod.mk.injEq] at hseen
  obtain ⟨hhome, houtcome, houtcome'⟩ := hseen
  obtain ⟨hs, hpage⟩ := arises_of_heldPair hpair
  exact ⟨page, s, hs, hpage, hhome, houtcome, houtcome'⟩

-- While the registry is there, it does not matter that the part was linked. Once it is dropped, the
-- part is still found by its link.
theorem links_transparent_iff_pair :
    let sink := Sink.empty .text .html
    ∃ page s, Arises s ∧ s.Holds page ∧ (s.home? page).isSome ∧
      (s.renderProgram page pairModel 0 sink).seen =
        (s.unlinked.renderProgram page pairModel 0 sink).seen ∧
      Arises s.drop ∧ s.drop.Holds page ∧
      ∃ m site target, linker.Reaches pairModel 0 page s.drop m ∧ m.Executes site target ∧
        m.effects.links.Outlives m.self site ∧ s.drop.home? page = none ∧
        (Session.link m.self site target m.effects.links).1 ≠
          (resolve m.self target m.effects.links).1 := by
  intro sink
  obtain ⟨page, s, hs, hpage, hhome, houtcome, houtcome'⟩ := exists_heldPair
  have hholds : s.Holds page := .inl ⟨_, hpage⟩
  have hholds' : s.drop.Holds page := .inl ⟨_, hpage⟩
  obtain ⟨-, hthere, hsame⟩ := links_transparent_iff hs hholds pairModel 0 sink
  obtain ⟨hiff, hgone, hsame'⟩ := links_transparent_iff hs.drop hholds' pairModel 0 sink
  refine ⟨page, s, hs, hholds, hhome, (hsame fun m site target hm houtlives => ?_).1, hs.drop,
    hholds', ?_⟩
  · rw [(hthere m site target hm houtlives).1] at hhome
    cases hhome
  · by_contra hnone
    have hseen := (hsame' fun m site target hm houtlives => hnone ⟨m, site, target, hm.1, hm.2,
      houtlives, (hgone m site target hm houtlives).1,
      fun heq => (hiff m site target hm).mp heq houtlives⟩).1
    have hends := congrArg Prod.fst hseen
    dsimp only [Rendering.seen] at hends
    rw [houtcome, houtcome'] at hends
    cases hends

-- So links are not transparent where programs outlive their registry.
theorem links_not_transparent :
    ¬ ∀ (s : Session) (c : Compiled), Arises s → s.Holds c →
      ∀ (model : Model Nat) (root : Nat) (sink : Sink),
        (s.renderProgram c model root sink).seen =
          (s.unlinked.renderProgram c model root sink).seen := by
  intro h
  obtain ⟨page, s, hs, hpage, -, houtcome, houtcome'⟩ := exists_heldPair
  have hends := congrArg Prod.fst
    (h s.drop page hs.drop (.inl ⟨_, hpage⟩) pairModel 0 (.empty .text .html))
  dsimp only [Rendering.seen] at hends
  rw [houtcome, houtcome'] at hends
  cases hends

end Session

end Stencil
