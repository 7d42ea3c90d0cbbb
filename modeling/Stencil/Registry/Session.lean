import Stencil.Registry.Basic

/-!
A registry in use. Programs taken from it may be kept, and may outlive it. An inclusion is linked to
its target when it is first executed; a link does not keep its target alive.
-/

namespace Stencil

-- An inclusion of a program: the serial number of the program, and the site in it.
structure Site where
  owner : Nat
  index : Nat
deriving DecidableEq

structure Session where
  -- `none` once the registry is dropped
  registry : Option Registry
  loader : Loader
  -- names loaded, latest first
  loads : List String
  -- programs held, each under a name of its own
  kept : List (String × Compiled)
  -- what sites were first linked to
  links : List (Site × Compiled)
  nextSerial : Nat
  nextRegistry : Nat

namespace Session

def new (loader : Loader) (oracle : Oracle) (config : Config) : Session where
  registry := some (.new 0 oracle config)
  loader := loader
  loads := []
  kept := []
  links := []
  nextSerial := 0
  nextRegistry := 1

-- Is the program held, or published by the registry?
def isAlive (s : Session) (c : Compiled) : Bool :=
  s.kept.any (·.2.serial == c.serial) ||
    s.registry.any fun r => r.published.any (·.2.serial == c.serial)

-- Makes a request to the registry, if there is one.
def request {α : Type} (s : Session) (r : Workshop.Request α) :
    Option (Except Failure α) × Session :=
  match s.registry with
  | none => (none, s)
  | some registry =>
    let (result, w) := r.run ⟨registry, s.loader, s.loads, s.nextSerial⟩
    (some result,
      { s with registry := some w.registry, loads := w.loads, nextSerial := w.nextSerial })

-- The registry that the inclusions of a program are looked up in, while it lasts.
def home? (s : Session) (c : Compiled) : Option Registry :=
  s.registry.filter fun r => c.home == some r.number

-- The target of an inclusion: what it is linked to, if that is alive, or else what the registry of
-- the including program gives. The first such target becomes the link.
def link (self : Compiled) (index : Nat) (target : String) (s : Session) :
    Except RenderError Compiled × Session :=
  let site : Site := ⟨self.serial, index⟩
  match (s.links.lookup site).filter s.isAlive with
  | some callee => (.ok callee, s)
  | none =>
    let unresolved (reason : String) : RenderError := .unresolvedInclusion target reason
    match s.home? self with
    | none => (.error (unresolved "no registry is available"), s)
    | some _ =>
      match s.request (Workshop.getOrCompile ⟨target, self.program.mode⟩) with
      | (some (.ok callee), s) =>
        let links := if (s.links.lookup site).isSome then s.links else (site, callee) :: s.links
        (.ok callee, { s with links := links })
      | (some (.error e), s) => (.error (unresolved e.message), s)
      | (none, s) => (.error (unresolved "no registry is available"), s)

def linker : Linker Compiled Session := ⟨Compiled.program, link⟩

variable {ρ : Type} [DecidableEq ρ]

-- Renders a program that is held.
def renderProgram (s : Session) (c : Compiled) (model : Model ρ) (root : ρ) (sink : Sink) :
    Rendering ρ Session :=
  render linker c model root sink s

-- What came of rendering a template by its name.
structure Outcome (ρ : Type) where
  result : Except Failure Sink
  requests : List (Request ρ)
  session : Session

-- Renders the program that a template has for the mode of the sink, or for the mode given.
def renderKey (s : Session) (key : Key) (model : Model ρ) (root : ρ) (sink : Sink) :
    Option (Outcome ρ) :=
  match s.request (Workshop.getOrCompile key) with
  | (none, _) => none
  | (some (.error e), s) => some ⟨.error e, [], s⟩
  | (some (.ok c), s) =>
    let r := s.renderProgram c model root sink
    some ⟨(r.outcome.mapError .render).map fun _ => r.sink, r.requests, r.links⟩

-- Renders a template into a sink, with the program that is compiled for its mode.
def renderInto (s : Session) (name : String) (model : Model ρ) (root : ρ) (sink : Sink) :
    Option (Outcome ρ) :=
  s.renderKey ⟨name, sink.mode⟩ model root sink

-- Renders a template into a new sink.
def renderFresh (s : Session) (name : String) (mode : Mode) (model : Model ρ) (root : ρ) :
    Option (Outcome ρ) := do
  let r ← s.registry
  s.renderInto name model root (.empty mode r.config.contentType)

-- Holds a program under a name, in place of any other.
def keep (s : Session) (name : String) (c : Compiled) : Session :=
  { s with kept := (name, c) :: s.kept.filter (·.1 ≠ name) }

def forget (s : Session) (name : String) : Session :=
  { s with kept := s.kept.filter (·.1 ≠ name) }

def kept? (s : Session) (name : String) : Option Compiled := s.kept.lookup name

-- Drops the registry, and with it all programs that are not held.
def drop (s : Session) : Session := { s with registry := none }

-- Puts a new registry in the place of the old one. It has nothing parsed and nothing compiled.
def replace (s : Session) (oracle : Oracle) (config : Config) : Session :=
  { s with
    registry := some (.new s.nextRegistry oracle config)
    nextRegistry := s.nextRegistry + 1 }

def withConfig (s : Session) (config : Config) : Session :=
  s.registry.elim s fun r => s.replace r.oracle config

def withOracle (s : Session) (oracle : Oracle) : Session :=
  s.registry.elim s fun r => s.replace oracle r.config

def withLoader (s : Session) (loader : Loader) : Session := { s with loader := loader }

-- The names loaded since this was last asked, in order.
def takeLoads (s : Session) : List String × Session := (s.loads.reverse, { s with loads := [] })

end Session

end Stencil
