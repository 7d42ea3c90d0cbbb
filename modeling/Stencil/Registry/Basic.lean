import Stencil.Compile
import Stencil.Config
import Stencil.Render.Run

/-!
A registry keeps what it has parsed and compiled. A template is parsed once under its name, and
compiled once under its name and mode; what failed is tried again at the next request.
-/

namespace Stencil

structure Key where
  name : String
  mode : Mode
deriving DecidableEq

def Key.text (k : Key) : String := s!"{k.name} ({k.mode.name})"

-- A program with a number that tells it from all others, and the registry that its inclusions are
-- looked up in, if there is one.
structure Compiled where
  serial : Nat
  home : Option Nat
  program : Program

structure Registry where
  -- tells registries apart
  number : Nat
  oracle : Oracle
  config : Config
  parsed : List (String × NamedTemplate)
  published : List (Key × Compiled)
  compileCount : Nat

namespace Registry

def new (number : Nat) (oracle : Oracle) (config : Config) : Registry :=
  ⟨number, oracle, config, [], [], 0⟩

def find? (r : Registry) (key : Key) : Option Compiled := r.published.lookup key

def isCompiled (r : Registry) (key : Key) : Bool := (r.find? key).isSome

def parsed? (r : Registry) (name : String) : Option NamedTemplate := r.parsed.lookup name

-- The schema of a template already parsed, if its header has no errors.
def knownSchema? (r : Registry) (name : String) : Option Schema := do
  (← r.parsed? name).schema r.oracle |>.toOption

end Registry

mutual

-- The targets of all inclusions, in the order in which they stand in the template.
def Node.targets : Node → List String
  | .text _ _ | .interpolation _ _ _ => []
  | .conditional arms none _ => Node.targetsOfArms arms
  | .conditional arms (some otherwise) _ => Node.targetsOfArms arms ++ Node.targetsOfAll otherwise
  | .loop _ _ _ body none _ => Node.targetsOfAll body
  | .loop _ _ _ body (some otherwise) _ => Node.targetsOfAll body ++ Node.targetsOfAll otherwise
  | .inclusion _ target _ _ => [target]

def Node.targetsOfAll : List Node → List String
  | [] => []
  | n :: ns => n.targets ++ Node.targetsOfAll ns

def Node.targetsOfArms : List Arm → List String
  | [] => []
  | .mk _ body :: arms => Node.targetsOfAll body ++ Node.targetsOfArms arms

end

def Template.targets (t : Template) : List String := Node.targetsOfAll t.body

-- Everything that requests to a registry read and change: the registry, the loader of its sources,
-- the names that were loaded, latest first, and the next free serial number.
structure Workshop where
  registry : Registry
  loader : Loader
  loads : List String
  nextSerial : Nat

namespace Workshop

abbrev Request (α : Type) := ExceptT Failure (StateM Workshop) α

def load (name : String) : Request String := do
  modify fun w => { w with loads := name :: w.loads }
  match (← get).loader name with
  | .ok text => return text
  | .error e => throw (.load e)

-- The parsed form of a template.
def template (name : String) : Request NamedTemplate := do
  match (← get).registry.parsed? name with
  | some t => return t
  | none =>
    let source ← load name
    match NamedTemplate.parse name source (← get).registry.config.trimControlLines with
    | .error e => throw e
    | .ok t =>
      modify fun w => { w with registry := { w.registry with
        parsed := (name, t) :: w.registry.parsed } }
      return t

-- Tries to parse each template that may be included.
def prepare : List String → Request Unit
  | [] => return ()
  | name :: names => do
    try
      let _ ← template name
    catch _ => pure ()
    prepare names

-- The parameters of a template.
def schema (name : String) : Request Schema := do
  let t ← template name
  match t.schema (← get).registry.oracle with
  | .ok s => return s
  | .error e => throw e

-- Compiles a template. Inclusions are checked against the headers of their targets only, so that a
-- template may include itself.
def compile (key : Key) : Request (Option Nat × Program) := do
  let t ← template key.name
  prepare t.template.targets
  let registry := (← get).registry
  match t.compile ⟨registry.oracle, registry.knownSchema?⟩ key.mode with
  | .ok program => return (some registry.number, program)
  | .error e => throw e

-- The program of a key. If there is none yet, it is made by `supplier`, and published if that
-- succeeds.
def obtain (key : Key) (supplier : Request (Option Nat × Program)) : Request Compiled := do
  match (← get).registry.find? key with
  | some c => return c
  | none =>
    let (home, program) ← supplier
    let serial := (← get).nextSerial
    let compiled : Compiled := ⟨serial, home, program⟩
    modify fun w => { w with
      nextSerial := serial + 1
      registry := { w.registry with
        published := (key, compiled) :: w.registry.published
        compileCount := w.registry.compileCount + 1 } }
    return compiled

def getOrCompile (key : Key) : Request Compiled := obtain key (compile key)

-- As `getOrCompile`, with a program that the caller makes. It has no registry of its own.
def getOrCompileWith (key : Key) (supplier : Except Failure Program) : Request Compiled :=
  obtain key (match supplier with
    | .ok program => return (none, program)
    | .error e => throw e)

end Workshop

end Stencil
