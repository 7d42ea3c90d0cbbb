import Stencil.Proofs.Registry.Lasting

/-!
What a registry keeps is in cells, each filled once. Who asks for a cell while it is being filled
waits for ever. To compile a program is to ask for parsed templates only, and to parse one is to ask
for nothing else, so nobody waits for what waits for him.
-/

namespace Stencil

inductive Cell
  | parsed (name : String)
  | compiled (key : Key)
deriving DecidableEq

-- What is asked for, and the cells that are being filled by then, the innermost first.
structure Demand where
  filling : List Cell
  cell : Cell
deriving DecidableEq

-- A workshop, and all that was asked for, in order.
structure Watch where
  workshop : Workshop
  demands : List Demand

-- Puts a program that was just made where it is found from then on.
def Workshop.issue (key : Key) (made : Option Nat × Program) : Workshop.Request Compiled := do
  let serial := (← get).nextSerial
  let compiled : Compiled := ⟨serial, made.1, made.2⟩
  modify fun w => { w with
    nextSerial := serial + 1
    registry := { w.registry with
      published := (key, compiled) :: w.registry.published
      compileCount := w.registry.compileCount + 1 } }
  return compiled

-- Requests that say which cells they ask for. `none` is to wait for ever.
abbrev Guarded (α : Type) := ExceptT Failure (StateT Watch Option) α

namespace Guarded

variable {α β : Type}

def exec (x : Guarded α) (s : Watch) : Option (Except Failure α × Watch) := x.run s

-- Does what asks for no cell.
def perform (x : Workshop.Request α) : Guarded α := ExceptT.mk fun s =>
  let (result, w) := x.run s.workshop
  some (result, { s with workshop := w })

-- What is in a cell. If nothing is, it is filled, unless that is being done already.
def enter (filling : List Cell) (cell : Cell) (find : Workshop → Option α)
    (fill : List Cell → Guarded α) : Guarded α := ExceptT.mk fun s =>
  let s := { s with demands := s.demands ++ [⟨filling, cell⟩] }
  match find s.workshop with
  | some a => some (.ok a, s)
  | none => if cell ∈ filling then none else (fill (cell :: filling)).exec s

def template (filling : List Cell) (name : String) : Guarded NamedTemplate :=
  enter filling (.parsed name) (·.registry.parsed? name) fun _ => perform do
    let source ← Workshop.load name
    match NamedTemplate.parse name source (← get).registry.config.trimControlLines with
    | .error e => throw e
    | .ok t =>
      modify fun w => { w with registry := { w.registry with
        parsed := (name, t) :: w.registry.parsed } }
      return t

def prepare (filling : List Cell) : List String → Guarded Unit
  | [] => return ()
  | name :: names => do
    try
      let _ ← template filling name
    catch _ => pure ()
    prepare filling names

def compile (filling : List Cell) (key : Key) : Guarded (Option Nat × Program) := do
  let t ← template filling key.name
  prepare filling t.template.targets
  perform do
    let registry := (← get).registry
    match t.compile ⟨registry.oracle, registry.knownSchema?⟩ key.mode with
    | .ok program => return (some registry.number, program)
    | .error e => throw e

def getOrCompile (filling : List Cell) (key : Key) : Guarded Compiled :=
  enter filling (.compiled key) (·.registry.find? key) fun filling => do
    perform (Workshop.issue key (← compile filling key))

end Guarded

-- What a request comes to that does what another does, and asks for some cells on its way.
def Watch.after {α : Type} (s : Watch) (x : Workshop.Request α) (demands : List Demand) :
    Option (Except Failure α × Watch) :=
  some ((x.run s.workshop).1, ⟨(x.run s.workshop).2, s.demands ++ demands⟩)

theorem Watch.after_congr {α : Type} {x y : Workshop.Request α} (s : Watch)
    (h : x.run s.workshop = y.run s.workshop) (demands : List Demand) :
    s.after x demands = s.after y demands := by
  rw [after, after, h]

namespace Guarded

variable {α β : Type} {s : Watch} {filling : List Cell}

theorem exec_perform (x : Workshop.Request α) (s : Watch) :
    exec (perform x) s = s.after x [] := by
  simp only [Watch.after, List.append_nil]
  rfl

theorem exec_bind (x : Guarded α) (f : α → Guarded β) (s : Watch) :
    exec (x >>= f) s =
      match exec x s with
      | some (.ok a, s) => exec (f a) s
      | some (.error e, s) => some (.error e, s)
      | none => none := by
  simp only [exec, ExceptT.run_bind]
  change StateT.bind x.run _ s = _
  unfold StateT.bind
  rcases x.run s with _ | ⟨_ | _, _⟩ <;> rfl

-- One request after another, as those that they do the same as.
theorem exec_bind_of_ok {x : Guarded α} {f : α → Guarded β} {y : Workshop.Request α}
    {g : α → Workshop.Request β} {demands later : List Demand} {a : α} {w : Workshop}
    (hx : exec x s = s.after y demands) (hrun : y.run s.workshop = (.ok a, w))
    (hf : ∀ s' : Watch, s'.workshop = w → exec (f a) s' = s'.after (g a) later) :
    exec (x >>= f) s = s.after (y >>= g) (demands ++ later) := by
  rw [exec_bind, hx, Watch.after, Watch.after, run_bind, hrun]
  dsimp only
  rw [hf _ rfl, Watch.after, List.append_assoc]

theorem exec_bind_of_error {x : Guarded α} {f : α → Guarded β} {y : Workshop.Request α}
    {g : α → Workshop.Request β} {demands : List Demand} {e : Failure} {w : Workshop}
    (hx : exec x s = s.after y demands) (hrun : y.run s.workshop = (.error e, w)) :
    exec (x >>= f) s = s.after (y >>= g) demands := by
  rw [exec_bind, hx, Watch.after, Watch.after, run_bind, hrun]

-- A failure is passed over.
theorem exec_passOver {x : Guarded α} {y : Workshop.Request α} {demands : List Demand}
    (hx : exec x s = s.after y demands) :
    exec (tryCatch (do let _ ← x; pure ()) fun _ => pure () : Guarded Unit) s =
      s.after (tryCatch (do let _ ← y; pure ()) fun _ => pure ()) demands := by
  have hrun := exec_bind x (fun _ => (pure () : Guarded Unit)) s
  rw [hx] at hrun
  simp only [tryCatch, tryCatchThe, MonadExceptOf.tryCatch, ExceptT.tryCatch, exec,
    ExceptT.run_mk] at hrun ⊢
  change StateT.bind (ExceptT.run _) _ s = _
  unfold StateT.bind
  rw [hrun, Watch.after, Watch.after]
  have hpass := Workshop.run_passOver y s.workshop
  simp only [tryCatch, tryCatchThe, MonadExceptOf.tryCatch, ExceptT.tryCatch] at hpass
  rw [hpass]
  rcases y.run s.workshop with ⟨_ | _, _⟩ <;> rfl

-- Nobody comes out of a cell that is being filled,
theorem exec_enter_of_filling {cell : Cell} (hcell : cell ∈ filling) {find : Workshop → Option α}
    (hfind : find s.workshop = none) (fill : List Cell → Guarded α) :
    exec (enter filling cell find fill) s = none := by
  simp only [exec, enter, ExceptT.run_mk, hfind, hcell, if_true]

-- and any other is found filled, or is filled.
theorem exec_enter {cell : Cell} (hcell : cell ∉ filling) {find : Workshop → Option α}
    {fill : List Cell → Guarded α} (x : Workshop.Request α) (demands : List Demand)
    (hfound : ∀ a, find s.workshop = some a → x.run s.workshop = (.ok a, s.workshop))
    (hfill : find s.workshop = none → ∀ s' : Watch, s'.workshop = s.workshop →
      exec (fill (cell :: filling)) s' = s'.after x demands) :
    exec (enter filling cell find fill) s =
      s.after x (⟨filling, cell⟩ :: if (find s.workshop).isSome then [] else demands) := by
  cases hfind : find s.workshop with
  | some a =>
      simp only [exec, enter, ExceptT.run_mk, hfind, Watch.after, hfound a hfind]
      rfl
  | none =>
      have hthis := hfill hfind ⟨s.workshop, s.demands ++ [⟨filling, cell⟩]⟩ rfl
      rw [exec, Watch.after, List.append_assoc] at hthis
      simp only [exec, enter, ExceptT.run_mk, hfind, hcell, if_false]
      exact hthis

-- To parse a template is to ask for no other.
theorem exec_template {name : String} (hfilling : .parsed name ∉ filling) (s : Watch) :
    exec (template filling name) s =
      s.after (Workshop.template name) [⟨filling, .parsed name⟩] := by
  unfold template
  rw [exec_enter hfilling (Workshop.template name) [], ite_self]
  · exact fun t ht => Workshop.run_template_of_parsed ht
  · intro hnew s' hs'
    refine (exec_perform _ s').trans (s'.after_congr ?_ [])
    rewrite [hs', Workshop.template, Workshop.run_get, hnew]
    rfl

-- To prepare templates is to ask for each of them, in order.
theorem exec_prepare (hfilling : ∀ name, .parsed name ∉ filling) (names : List String) (s : Watch) :
    exec (prepare filling names) s =
      s.after (Workshop.prepare names) (names.map (⟨filling, .parsed ·⟩)) := by
  induction names generalizing s with
  | nil => exact exec_perform (pure ()) s
  | cons name names ih =>
      have hfirst := exec_passOver (exec_template (hfilling name) s)
      exact exec_bind_of_ok hfirst (Workshop.run_passOver _ _) fun s' _ => ih s'

end Guarded

namespace Workshop

-- The templates that are asked for to compile one: that template, and all that it includes.
def consults (w : Workshop) (name : String) : List String :=
  name :: match ((template name).run w).1 with
    | .ok t => t.template.targets
    | .error _ => []

-- Those that are asked for by a request for a program.
def needs (w : Workshop) (key : Key) : List String :=
  if w.registry.isCompiled key then [] else w.consults key.name

-- Templates that cannot be parsed do not matter yet.
theorem run_prepare_ok (names : List String) (w : Workshop) :
    (prepare names).run w = (.ok (), ((prepare names).run w).2) := by
  induction names generalizing w with
  | nil => rfl
  | cons name names ih =>
      rw [run_prepare_cons]
      exact ih _

theorem run_obtain_eq_issue {w : Workshop} {key : Key} (h : w.registry.find? key = none)
    (supplier : Request (Option Nat × Program)) :
    (obtain key supplier).run w = (supplier >>= issue key).run w := by
  rw [obtain, run_get, h]
  rfl

end Workshop

namespace Guarded

variable {filling : List Cell} {key : Key}

theorem exec_compile (hfilling : ∀ name, .parsed name ∉ filling) (key : Key) (s : Watch) :
    exec (compile filling key) s = s.after (Workshop.compile key)
      ((s.workshop.consults key.name).map (⟨filling, .parsed ·⟩)) := by
  have hfirst := exec_template (hfilling key.name) s
  unfold compile Workshop.compile Workshop.consults
  cases hrun : (Workshop.template key.name).run s.workshop with
  | mk result w =>
      cases result with
      | error e => exact exec_bind_of_error hfirst hrun
      | ok t =>
          refine exec_bind_of_ok hfirst hrun fun s' _ => ?_
          have hprepare := exec_prepare hfilling t.template.targets s'
          rw [← List.append_nil (List.map _ _)]
          exact exec_bind_of_ok (g := fun _ => _) hprepare (Workshop.run_prepare_ok _ _)
            fun s'' _ => exec_perform _ s''

-- A program that is not there yet is compiled while its own cell is being filled.
theorem exec_getOrCompile (hkey : .compiled key ∉ filling)
    (hfilling : ∀ name, .parsed name ∉ filling) (s : Watch) :
    exec (getOrCompile filling key) s = s.after (Workshop.getOrCompile key)
      (⟨filling, .compiled key⟩ ::
        (s.workshop.needs key).map (⟨.compiled key :: filling, .parsed ·⟩)) := by
  unfold getOrCompile Workshop.needs
  rw [apply_ite (List.map _), List.map_nil]
  refine exec_enter hkey (Workshop.getOrCompile key) _
    (fun c hc => Workshop.run_obtain_of_published hc _) fun hnew s' hs' => ?_
  have hcompile := @exec_compile (.compiled key :: filling)
    (fun name => by simpa using hfilling name) key s'
  have hissue : s'.after (Workshop.getOrCompile key) =
      s'.after (Workshop.compile key >>= Workshop.issue key) :=
    funext (s'.after_congr (Workshop.run_obtain_eq_issue (hs'.symm ▸ hnew) _))
  rw [hissue, ← hs']
  cases hrun : (Workshop.compile key).run s'.workshop with
  | mk result w =>
      cases result with
      | error e => exact exec_bind_of_error hcompile hrun
      | ok made =>
          rw [← List.append_nil (List.map _ _)]
          exact exec_bind_of_ok hcompile hrun fun s'' _ => exec_perform _ s''

end Guarded

end Stencil
