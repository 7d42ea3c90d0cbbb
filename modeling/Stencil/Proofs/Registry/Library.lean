import Stencil.Proofs.Effects
import Stencil.Proofs.Typing.Header
import Stencil.Registry.Basic

/-!
What a registry serves, whatever it has parsed and compiled before. A check looks up the schemas of
the templates that are included, and no others.
-/

namespace Stencil

section Targets

variable {context context' : CheckContext}

mutual

theorem Node.check_congr (horacle : context.oracle = context'.oracle) (scope : Scope) :
    ∀ node : Node, (∀ target ∈ node.targets, context.schemas target = context'.schemas target) →
      node.check context scope = node.check context' scope
  | .text _ _, _ => rfl
  | .interpolation raw value _, _ => by
      simp only [Node.check, horacle]
  | .conditional arms none _, h => by
      have harms := Arm.checkAll_congr horacle scope arms h
      simp only [Node.check, harms]
  | .conditional arms (some nodes) _, h => by
      have harms := Arm.checkAll_congr horacle scope arms fun target ht =>
        h target (List.mem_append_left _ ht)
      have hnodes := Node.checkAll_congr horacle scope nodes fun target ht =>
        h target (List.mem_append_right _ ht)
      simp only [Node.check, harms, hnodes]
  | .loop element index iterable body none _, h => by
      have hbody (scope : Scope) := Node.checkAll_congr horacle scope body h
      simp only [Node.check, horacle, hbody]
  | .loop element index iterable body (some nodes) _, h => by
      have hbody (scope : Scope) := Node.checkAll_congr horacle scope body fun target ht =>
        h target (List.mem_append_left _ ht)
      have hnodes := Node.checkAll_congr horacle scope nodes fun target ht =>
        h target (List.mem_append_right _ ht)
      simp only [Node.check, horacle, hbody, hnodes]
  | .inclusion _ target args _, h => by
      have htarget := h target (List.mem_singleton_self target)
      simp only [Node.check, horacle, htarget]

theorem Node.checkAll_congr (horacle : context.oracle = context'.oracle) (scope : Scope) :
    ∀ nodes : List Node,
      (∀ target ∈ Node.targetsOfAll nodes, context.schemas target = context'.schemas target) →
      Node.checkAll context scope nodes = Node.checkAll context' scope nodes
  | [], _ => rfl
  | node :: nodes, h => by
      have hfirst := Node.check_congr horacle scope node fun target ht =>
        h target (List.mem_append_left _ ht)
      have hrest := Node.checkAll_congr horacle scope nodes fun target ht =>
        h target (List.mem_append_right _ ht)
      simp only [Node.checkAll, hfirst, hrest]

theorem Arm.checkAll_congr (horacle : context.oracle = context'.oracle) (scope : Scope) :
    ∀ arms : List Arm,
      (∀ target ∈ Node.targetsOfArms arms, context.schemas target = context'.schemas target) →
      Arm.checkAll context scope arms = Arm.checkAll context' scope arms
  | [], _ => rfl
  | .mk test body :: arms, h => by
      have hbody := Node.checkAll_congr horacle scope body fun target ht =>
        h target (List.mem_append_left _ ht)
      have hrest := Arm.checkAll_congr horacle scope arms fun target ht =>
        h target (List.mem_append_right _ ht)
      simp only [Arm.checkAll, horacle, hbody, hrest]

end

theorem Template.bind_congr {t : Template} (horacle : context.oracle = context'.oracle)
    (h : ∀ target ∈ t.targets, context.schemas target = context'.schemas target)
    (source : String) : t.bind context source = t.bind context' source := by
  have hcheck : t.check context = t.check context' := by
    have hbody (scope : Scope) := Node.checkAll_congr horacle scope t.body h
    simp only [Template.check, horacle, hbody]
  simp only [Template.bind, hcheck]

end Targets

-- What does not change while a registry is used: where its sources come from, and how they are
-- read.
structure Library where
  loader : Loader
  oracle : Oracle
  config : Config

namespace Library

def template (lib : Library) (name : String) : Except Failure NamedTemplate :=
  match lib.loader name with
  | .ok source => NamedTemplate.parse name source lib.config.trimControlLines
  | .error e => .error (.load e)

-- The parameters of a template, if it can be included.
def schema? (lib : Library) (name : String) : Option Schema := do
  ((← (lib.template name).toOption).schema lib.oracle).toOption

def context (lib : Library) : CheckContext := ⟨lib.oracle, lib.schema?⟩

def checked (lib : Library) (name : String) : Except Failure CheckedTemplate := do
  (← lib.template name).check lib.context

def program (lib : Library) (key : Key) : Except Failure Program :=
  (lib.checked key.name).map (·.program key.name key.mode)

theorem name_of_template {lib : Library} {name : String} {t : NamedTemplate}
    (h : lib.template name = .ok t) : t.name = name := by
  unfold template at h
  split at h
  · unfold NamedTemplate.parse at h
    split at h
    · cases h
      rfl
    · cases h
  · cases h

-- A program bears the name and the mode that it was asked for by.
theorem key_of_program {lib : Library} {key : Key} {p : Program} (h : lib.program key = .ok p) :
    (⟨p.name, p.mode⟩ : Key) = key := by
  unfold program at h
  cases hchecked : lib.checked key.name with
  | error e => rw [hchecked] at h; cases h
  | ok checked =>
      rw [hchecked] at h
      cases h
      rfl

end Library

-- A registry that has cached nothing but what the library gives.
structure Registry.Parses (lib : Library) (r : Registry) : Prop where
  oracle : r.oracle = lib.oracle
  config : r.config = lib.config
  parsed : ∀ {name t}, r.parsed? name = some t → lib.template name = .ok t

namespace Workshop

variable {lib : Library} {w w' : Workshop}

structure Parses (lib : Library) (w : Workshop) : Prop where
  registry : w.registry.Parses lib
  loader : w.loader = lib.loader

-- One state of a workshop and a later one, if nothing was compiled in between.
structure Grows (w w' : Workshop) : Prop where
  number : w'.registry.number = w.registry.number
  published : w'.registry.published = w.registry.published
  nextSerial : w'.nextSerial = w.nextSerial
  parsed : ∀ {name t}, w.registry.parsed? name = some t → w'.registry.parsed? name = some t

theorem Grows.refl (w : Workshop) : Grows w w := ⟨rfl, rfl, rfl, id⟩

theorem Grows.trans {w'' : Workshop} (h : Grows w w') (h' : Grows w' w'') : Grows w w'' :=
  ⟨h'.number.trans h.number, h'.published.trans h.published, h'.nextSerial.trans h.nextSerial,
    fun ht => h'.parsed (h.parsed ht)⟩

-- A request that first looks at the workshop.
theorem run_get {α : Type} (f : Workshop → Request α) (w : Workshop) :
    (get >>= f : Request α).run w = (f w).run w := rfl

theorem run_template_of_parsed {name : String} {t : NamedTemplate}
    (h : w.registry.parsed? name = some t) : (template name).run w = (.ok t, w) := by
  rw [template, run_get, h]
  rfl

theorem run_load (name : String) (w : Workshop) :
    (load name).run w =
      ((w.loader name).mapError .load, { w with loads := name :: w.loads }) := by
  unfold load
  simp only [run_bind]
  change (match w.loader name with
    | .ok text => return text
    | .error e => throw (.load e) : Request String).run _ = _
  cases w.loader name <;> rfl

-- After a template was read that was not there before.
def keep (w : Workshop) (name : String) (t : NamedTemplate) : Workshop :=
  { w with
    loads := name :: w.loads
    registry := { w.registry with parsed := (name, t) :: w.registry.parsed } }

theorem parsed?_keep (name other : String) (t : NamedTemplate) :
    (w.keep name t).registry.parsed? other =
      if other = name then some t else w.registry.parsed? other := by
  simp only [Registry.parsed?, keep, List.lookup_cons]
  by_cases h : other = name
  · simp [h]
  · simp [h, beq_false_of_ne h]

theorem Parses.keep (h : w.Parses lib) {name : String} {t : NamedTemplate}
    (ht : lib.template name = .ok t) : (w.keep name t).Parses lib := by
  refine ⟨⟨h.registry.oracle, h.registry.config, fun {other u} hu => ?_⟩, h.loader⟩
  rw [parsed?_keep] at hu
  split at hu
  · next hname => rw [hname, ht, Option.some.inj hu]
  · exact h.registry.parsed hu

theorem grows_keep {name : String} (h : w.registry.parsed? name = none) (t : NamedTemplate) :
    Grows w (w.keep name t) := by
  refine ⟨rfl, rfl, rfl, fun {other u} hu => ?_⟩
  have hne : other ≠ name := by
    rintro rfl
    rw [h] at hu
    cases hu
  rw [parsed?_keep, if_neg hne, hu]

theorem run_template_of_new {name : String} (h : w.registry.parsed? name = none) :
    (template name).run w =
      match w.loader name with
      | .error e => (.error (.load e), { w with loads := name :: w.loads })
      | .ok source =>
        match NamedTemplate.parse name source w.registry.config.trimControlLines with
        | .error e => (.error e, { w with loads := name :: w.loads })
        | .ok t => (.ok t, w.keep name t) := by
  rw [template, run_get, h]
  dsimp only
  rw [run_bind, run_load]
  cases w.loader name with
  | error e => rfl
  | ok source =>
      dsimp only [Except.mapError]
      rw [run_get]
      cases NamedTemplate.parse name source w.registry.config.trimControlLines <;> rfl

-- Asking for a template gives what the library says. It is kept if there is one.
theorem run_template (h : w.Parses lib) (name : String) :
    ∃ w', (template name).run w = (lib.template name, w') ∧ w'.Parses lib ∧ Grows w w' ∧
      ∀ t, lib.template name = .ok t → w'.registry.parsed? name = some t := by
  cases hparsed : w.registry.parsed? name with
  | some t =>
      have ht := h.registry.parsed hparsed
      refine ⟨w, by rw [run_template_of_parsed hparsed, ht], h, .refl w, fun u hu => ?_⟩
      rw [hparsed, ← Except.ok.inj (ht.symm.trans hu)]
  | none =>
      have hlib : lib.template name =
          match w.loader name with
          | .ok source => NamedTemplate.parse name source w.registry.config.trimControlLines
          | .error e => .error (.load e) := by
        rw [h.loader, h.registry.config]
        rfl
      have hloads : Workshop.Parses lib { w with loads := name :: w.loads } :=
        ⟨h.registry, h.loader⟩
      have hgrows : Grows w { w with loads := name :: w.loads } := ⟨rfl, rfl, rfl, id⟩
      rw [run_template_of_new hparsed]
      cases hsource : w.loader name with
      | error e =>
          rw [hsource] at hlib
          exact ⟨_, by rw [hlib], hloads, hgrows, fun u hu => by rw [hlib] at hu; cases hu⟩
      | ok source =>
          rw [hsource] at hlib
          dsimp only at hlib ⊢
          cases hparse : NamedTemplate.parse name source w.registry.config.trimControlLines with
          | error e =>
              rw [hparse] at hlib
              exact ⟨_, by rw [hlib], hloads, hgrows, fun u hu => by rw [hlib] at hu; cases hu⟩
          | ok t =>
              rw [hparse] at hlib
              refine ⟨w.keep name t, by rw [hlib], h.keep hlib, grows_keep hparsed t,
                fun u hu => ?_⟩
              rw [parsed?_keep, if_pos rfl, Except.ok.inj (hlib.symm.trans hu)]

-- A failure is passed over.
theorem run_passOver {α : Type} (x : Request α) (w : Workshop) :
    (tryCatch (do let _ ← x; pure ()) fun _ => pure () : Request Unit).run w =
      (.ok (), (x.run w).2) := by
  have hrun := run_bind x (fun _ => (pure () : Request Unit)) w
  simp only [tryCatch, tryCatchThe, MonadExceptOf.tryCatch, ExceptT.tryCatch, ExceptT.run_mk]
  change StateT.bind (ExceptT.run _) _ w = _
  unfold StateT.bind
  rw [hrun]
  rcases x.run w with ⟨_ | _, _⟩ <;> rfl

theorem run_prepare_cons (name : String) (names : List String) (w : Workshop) :
    (prepare (name :: names)).run w = (prepare names).run ((template name).run w).2 := by
  rw [prepare, run_bind, run_passOver]

-- All templates that may be included are parsed, if they can be.
theorem run_prepare (h : w.Parses lib) (names : List String) :
    ∃ w', (prepare names).run w = (.ok (), w') ∧ w'.Parses lib ∧ Grows w w' ∧
      ∀ name ∈ names, ∀ t, lib.template name = .ok t → w'.registry.parsed? name = some t := by
  induction names generalizing w with
  | nil => exact ⟨w, rfl, h, .refl w, fun _ hmem => nomatch hmem⟩
  | cons name names ih =>
      obtain ⟨w₁, hrun, hparses, hgrows, hfirst⟩ := run_template h name
      obtain ⟨w₂, hrest, hparses', hgrows', hnames⟩ := ih hparses
      refine ⟨w₂, ?_, hparses', hgrows.trans hgrows', ?_⟩
      · rw [run_prepare_cons, hrun, hrest]
      · intro other hmem t ht
        obtain rfl | hmem := List.mem_cons.mp hmem
        · exact hgrows'.parsed (hfirst t ht)
        · exact hnames other hmem t ht

-- Once its targets are prepared, a template is checked against what the library says of them.
theorem knownSchema?_of_prepared (h : w.Parses lib) {name : String}
    (hname : ∀ t, lib.template name = .ok t → w.registry.parsed? name = some t) :
    w.registry.knownSchema? name = lib.schema? name := by
  unfold Registry.knownSchema? Library.schema?
  rw [h.registry.oracle]
  cases hlib : lib.template name with
  | ok t => rw [hname t hlib]; rfl
  | error e =>
      cases hparsed : w.registry.parsed? name with
      | some t =>
          have ht := h.registry.parsed hparsed
          rw [hlib] at ht
          cases ht
      | none => rfl

theorem compile_eq (h : w.Parses lib) {key : Key} {t : NamedTemplate}
    (ht : lib.template key.name = .ok t)
    (htargets : ∀ name ∈ t.template.targets, ∀ u, lib.template name = .ok u →
      w.registry.parsed? name = some u) :
    t.compile ⟨w.registry.oracle, w.registry.knownSchema?⟩ key.mode = lib.program key := by
  have hschemas : ∀ name ∈ t.template.targets,
      w.registry.knownSchema? name = lib.schema? name := fun name hmem =>
    knownSchema?_of_prepared h (htargets name hmem)
  have hbind : t.template.bind ⟨w.registry.oracle, w.registry.knownSchema?⟩ t.source =
      t.template.bind lib.context t.source :=
    Template.bind_congr h.registry.oracle hschemas t.source
  have hchecked : lib.checked key.name = t.check lib.context := by
    rw [Library.checked, ht]
    rfl
  rw [Library.program, hchecked]
  simp only [NamedTemplate.compile, NamedTemplate.check, hbind, Library.name_of_template ht]

-- Compiling gives what the library says.
theorem run_compile (h : w.Parses lib) (key : Key) :
    ∃ w', (compile key).run w =
        ((lib.program key).map (some w.registry.number, ·), w') ∧ w'.Parses lib ∧ Grows w w' := by
  obtain ⟨w₁, hrun, hparses, hgrows, hfirst⟩ := run_template h key.name
  cases ht : lib.template key.name with
  | error e =>
      refine ⟨w₁, ?_, hparses, hgrows⟩
      have hprogram : lib.program key = .error e := by
        rw [Library.program, Library.checked, ht]
        rfl
      unfold compile
      rw [run_bind, hrun, ht, hprogram]
      rfl
  | ok t =>
      obtain ⟨w₂, hprepare, hparses', hgrows', htargets⟩ := run_prepare hparses t.template.targets
      refine ⟨w₂, ?_, hparses', hgrows.trans hgrows'⟩
      have hcompile := compile_eq hparses' ht htargets
      unfold compile
      rw [run_bind, hrun, ht]
      dsimp only
      rw [run_bind, hprepare]
      dsimp only
      rw [run_get, hcompile, (hgrows.trans hgrows').number]
      cases lib.program key <;> rfl

-- So does asking for the parameters of a template.
theorem run_schema (h : w.Parses lib) (name : String) :
    ∃ w', (schema name).run w =
        ((do (← lib.template name).schema lib.oracle), w') ∧ w'.Parses lib ∧ Grows w w' := by
  obtain ⟨w', hrun, hparses, hgrows, -⟩ := run_template h name
  refine ⟨w', ?_, hparses, hgrows⟩
  unfold schema
  rw [run_bind, hrun]
  cases lib.template name with
  | error e => rfl
  | ok t =>
      change (get >>= _ : Request Schema).run w' = (t.schema lib.oracle, w')
      rw [run_get, hparses.registry.oracle]
      cases t.schema lib.oracle <;> rfl

end Workshop

end Stencil
