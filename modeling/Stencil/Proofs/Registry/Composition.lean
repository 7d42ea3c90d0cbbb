import Stencil.Proofs.Program.Inclusions
import Stencil.Proofs.Registry.Reachable
import Stencil.Proofs.Render.Supply

/-!
Inclusions are compositional. Wherever a program of a registry includes a target that compiles, the
target is rendered from its arguments alone, as it would be by itself.
-/

namespace Stencil

open Run

-- What is complete stays so when arguments are made ready, and when they are evaluated.
theorem Argument.Fill.complete {oracle : Oracle} {scope : Scope} {schema : Schema}
    {args : List Argument} {i : Nat} {params : List Parameter} {ts : List (Option Term)}
    (h : Fill oracle scope schema args i params ts) :
    Parameter.Complete params (ts.map (·.map Term.formula)) := by
  induction h with
  | nil => exact .nil
  | omitted absent default rest ih => exact .cons (fun _ => default) ih
  | given found elaborates accepts rest ih => exact .cons (by simp) ih

theorem Parameter.Complete.evalGiven {ρ : Type} [DecidableEq ρ] {params : List Parameter}
    {code : List (Option Formula)} (h : Parameter.Complete params code) {model : Model ρ}
    {frame : Frame ρ} {requests requests' : Array (Request ρ)} {args : List (Option (Value ρ))}
    (hrun : (Formula.evalGiven model frame code).run requests = (.ok args, requests')) :
    Parameter.Complete params args := by
  induction h generalizing requests args with
  | nil =>
      cases hrun
      exact .nil
  | @cons p c params code hfirst _ ih =>
      cases c with
      | none =>
          rw [Formula.evalGiven, run_bind] at hrun
          generalize hrest : (Formula.evalGiven model frame code).run requests = rest at hrun
          obtain ⟨_ | args', _⟩ := rest
          · cases hrun
          · cases hrun
            exact .cons (fun _ => hfirst rfl) (ih hrest)
      | some c =>
          rw [Formula.evalGiven, run_bind] at hrun
          generalize (c.eval model frame).run requests = first at hrun
          obtain ⟨_ | v, between⟩ := first
          · cases hrun
          · dsimp only at hrun
            rw [run_bind] at hrun
            generalize hrest : (Formula.evalGiven model frame code).run between = rest at hrun
            obtain ⟨_ | args', _⟩ := rest
            · cases hrun
            · cases hrun
              exact .cons (by simp) (ih hrest)

namespace Session

variable {lib : Library} {cat : Catalogue} {held : List Compiled} {s : Session}

-- Sessions in the midst of renders, with the programs that are being rendered or can be. A render
-- changes the session only where it links an inclusion of such a program.
inductive Passes (lib : Library) : List Compiled → Session → Prop
  | start {held : List Compiled} {s : Session} (reachable : Reachable lib s)
    (holds : ∀ c ∈ held, s.Holds c) : Passes lib held s
  | linked {held : List Compiled} {s s' : Session} {self callee : Compiled} {made : Op.Inclusion}
    (before : Passes lib held s) (rendered : self ∈ held)
    (executes : made ∈ self.program.inclusions)
    (links : Session.link self made.site made.target s = (.ok callee, s')) :
    Passes lib (callee :: held) s'
  | unresolved {held : List Compiled} {s s' : Session} {self : Compiled} {made : Op.Inclusion}
    {err : RenderError} (before : Passes lib held s) (rendered : self ∈ held)
    (executes : made ∈ self.program.inclusions)
    (fails : Session.link self made.site made.target s = (.error err, s')) : Passes lib held s'

-- A program in the catalogue has the inclusions of its template.
theorem Serves.made_of_inclusion (h : s.Serves lib cat) {self : Compiled}
    (hself : cat self.serial = some self) {made : Op.Inclusion}
    (hmade : made ∈ self.program.inclusions) :
    ∃ t written, lib.template self.program.name = .ok t ∧
      t.template.inclusions[made.site]? = some written ∧
      t.template.targets[made.site]? = some made.target ∧
      Op.Inclusion.Made lib.context (written, made.site) made := by
  obtain ⟨t, checked, ht, -, hcheck, hprogram⟩ := Library.parts_of_program (h.made hself)
  rw [hprogram] at hmade
  obtain ⟨written, hwritten, hmade⟩ := (t.elaborates_of_check hcheck).made hmade
  refine ⟨t, written, ht, hwritten, ?_, hmade⟩
  rw [Template.targets, ← Node.target_inclusionsOfAll, List.getElem?_map]
  change (t.template.inclusions[made.site]?).map _ = _
  rw [hwritten, hmade.target]
  rfl

-- Where an inclusion of a known program is linked, its target is known from then on. It has the
-- name that stands in the template.
theorem Knows.linked {K : Compiled → Prop} (h : Knows lib K s) {self callee : Compiled}
    (hself : K self) {made : Op.Inclusion} (hmade : made ∈ self.program.inclusions)
    {s' : Session} (hlink : Session.link self made.site made.target s = (.ok callee, s')) :
    Knows lib (fun c => K c ∨ c = callee) s' ∧
      lib.program ⟨made.target, self.program.mode⟩ = .ok callee.program ∧
      ∃ t, lib.template self.program.name = .ok t ∧ made.target ∈ t.template.targets := by
  obtain ⟨cat, hserves, hK⟩ := h
  obtain ⟨t, -, ht, -, htarget, -⟩ := hserves.made_of_inclusion (hK self hself) hmade
  obtain ⟨callee', s'', cat', hlink', hprogram, hserves', hgrows, hcallee⟩ |
    ⟨e, s'', hlink', -⟩ := hserves.link (hK self hself) ht htarget
  · rw [hlink] at hlink'
    cases hlink'
    refine ⟨⟨cat', hserves', ?_⟩, hprogram, t, ht, List.mem_of_getElem? htarget⟩
    rintro c (hc | rfl)
    · exact hgrows _ _ (hK c hc)
    · exact hcallee
  · rw [hlink] at hlink'
    cases hlink'

-- Where none is found, nothing is known that was not.
theorem Knows.unresolved {K : Compiled → Prop} (h : Knows lib K s) {self : Compiled}
    (hself : K self) {made : Op.Inclusion} (hmade : made ∈ self.program.inclusions)
    {err : RenderError} {s' : Session}
    (hlink : Session.link self made.site made.target s = (.error err, s')) : Knows lib K s' := by
  obtain ⟨cat, hserves, hK⟩ := h
  obtain ⟨t, -, ht, -, htarget, -⟩ := hserves.made_of_inclusion (hK self hself) hmade
  obtain ⟨callee', s'', cat', hlink', -⟩ | ⟨e, s'', hlink', -, hserves'⟩ :=
    hserves.link (hK self hself) ht htarget
  · rw [hlink] at hlink'
    cases hlink'
  · rw [hlink] at hlink'
    cases hlink'
    exact ⟨cat, hserves', hK⟩

theorem Passes.knows (h : Passes lib held s) : Knows lib (· ∈ held) s := by
  induction h with
  | start reachable holds =>
      obtain ⟨cat, hserves⟩ := reachable.serves
      exact ⟨cat, hserves, fun c hc => hserves.held (holds c hc)⟩
  | linked _ rendered executes links ih =>
      obtain ⟨⟨cat, hserves, hheld⟩, -⟩ := ih.linked rendered executes links
      refine ⟨cat, hserves, fun c hc => hheld c ?_⟩
      obtain rfl | hc := List.mem_cons.mp hc
      · exact .inr rfl
      · exact .inl hc
  | unresolved _ rendered executes fails ih => exact ih.unresolved rendered executes fails

-- An inclusion of a program that is being rendered finds its target, if that compiles. What it was
-- made from is an inclusion of the template, checked against the parameters of the target.
theorem Passes.link (h : Passes lib held s) {self : Compiled} (hself : self ∈ held)
    {made : Op.Inclusion} (hmade : made ∈ self.program.inclusions) {p : Program}
    (hp : lib.program ⟨made.target, self.program.mode⟩ = .ok p) :
    (∃ t written, lib.template self.program.name = .ok t ∧
      t.template.inclusions[made.site]? = some written ∧
      Op.Inclusion.Made lib.context (written, made.site) made) ∧
    ∃ callee s', Session.link self made.site made.target s = (.ok callee, s') ∧
      callee.program = p := by
  obtain ⟨cat, hserves, hheld⟩ := h.knows
  obtain ⟨t, written, ht, hwritten, htarget, hplan⟩ :=
    hserves.made_of_inclusion (hheld _ hself) hmade
  refine ⟨⟨t, written, ht, hwritten, hplan⟩, ?_⟩
  obtain ⟨callee, s', -, hlink, hprogram, -⟩ | ⟨e, s', -, hprogram, -⟩ :=
    hserves.link (hheld _ hself) ht htarget
  · exact ⟨callee, s', hlink, Except.ok.inj (hprogram.symm.trans hp)⟩
  · rw [hp] at hprogram
    cases hprogram


-- An inclusion that is executed, at any depth from which one more may be entered, and whose target
-- compiles. Its arguments are those of the inclusion that is written, in the order of the
-- parameters of the target, and they are evaluated in that order. Then every parameter is bound, to
-- its argument or its default. If the arguments conform, the rest is a render of the target by
-- itself, one level deeper, from a model that has just the arguments as fields: it ends alike but
-- for the mark on errors, and it does the same to the output and to the links. The frame of the
-- including program is as it was.
theorem inclusion_renders_target {ρ : Type} [DecidableEq ρ] {self : Compiled} {made : Op.Inclusion}
    {p : Program} {e : Effects ρ Session} (hs : Passes lib held e.links) (hself : self ∈ held)
    (hmade : made ∈ self.program.inclusions)
    (hp : lib.program ⟨made.target, self.program.mode⟩ = .ok p) (model : Model ρ) (depth : Nat)
    (frame : Frame ρ) :
    let op := Op.inclusion made.site made.target made.args
    let x := exec (op.run model (linker.opener model (depth + 1) self) frame) e
    (∃ t written scope ts, lib.template self.program.name = .ok t ∧
      t.template.inclusions[made.site]? = some written ∧ written.target = made.target ∧
      Argument.Fill lib.oracle scope p.schema written.args 0 p.schema.params ts ∧
      made.args = ts.map (·.map Term.formula)) ∧
    ∃ callee s', Session.link self made.site made.target e.links = (.ok callee, s') ∧
      callee.program = p ∧ Passes lib (callee :: held) s' ∧
      (∀ err requests,
        (Formula.evalGiven model frame made.args).run e.requests = (.error err, requests) →
        x = (.error err, ⟨requests, e.pieces, s'⟩)) ∧
      ∀ args requests,
        (Formula.evalGiven model frame made.args).run e.requests = (.ok args, requests) →
        (∃ values, bindArgs p.schema.params args = .ok values ∧
          values.length = p.schema.size ∧
          List.zipWith Parameter.bound p.schema.params args = values.map some) ∧
        (Parameter.Conform p.schema.params args →
          let inner := exec (linker.runWithin depth callee
            (model.supplying requests.size p.schema args) none) ⟨#[], #[], s'⟩
          x.1 = (inner.1.mapError (.inside made.target)).map (fun _ => frame) ∧
            Effects.Extends ⟨requests, e.pieces, s'⟩ x.2 p.schema inner.2) := by
  intro op x
  obtain ⟨⟨t, written, ht, hwritten, hplan⟩, callee, s', hlink, hprogram⟩ :=
    hs.link hself hmade hp
  obtain ⟨scope, schema, ts, hfound, hfill, hcode⟩ := hplan.args
  have hschema : schema = p.schema :=
    Option.some.inj (hfound.symm.trans (Library.schemas_of_program hp))
  subst hschema
  have hx := linker.exec_inclusion depth hlink model frame made.args
  change x = _ at hx
  have hcallee : (linker.program callee).schema = p.schema := congrArg Program.schema hprogram
  refine ⟨⟨t, written, scope, ts, ht, hwritten, hplan.target.symm, hfill, hcode⟩, callee, s',
    hlink, hprogram, .linked hs hself hmade hlink, fun err requests hgiven => ?_,
    fun args requests hgiven => ?_⟩
  · rw [hx, hgiven]
  · have hcomplete : Parameter.Complete p.schema.params args :=
      Parameter.Complete.evalGiven (hcode ▸ hfill.complete) hgiven
    obtain ⟨values, hbind, hbound⟩ := hcomplete.bindArgs
    have hlength : p.schema.params.length = args.length := hcomplete.length_eq
    refine ⟨⟨values, hbind, bindArgs_length hlength.symm hbind, hbound⟩, fun hconform => ?_⟩
    obtain ⟨u, checked, -, -, hcheck, hmadeOf⟩ := Library.parts_of_program hp
    have hnames : (p.schema.params.map (·.name)).Nodup := by
      rw [hmadeOf]
      exact u.distinct_of_check hcheck
    obtain ⟨houtcome, hextends⟩ := linker.run_of_supplying depth callee model hcallee hlength
      hnames hconform hbind ⟨requests, e.pieces, s'⟩
    rw [hx, hgiven]
    dsimp only
    rw [hcallee, hbind]
    dsimp only
    rw [houtcome]
    exact ⟨rfl, hextends⟩

-- A shelf whose label has a price, which is widened, and a unit, which is left to its default.
def shelfLibrary : Library where
  loader :=
    let source := MemorySource.empty.insert "shelf"
      "@param int n\n<@template.label(price = n, amount = 3)>"
    (source.insert "label"
      "@param int amount\n@param float price\n@param string unit = \"EUR\"\n${amount} ${unit}").load
  oracle := Declarations.empty.oracle
  config := .default

-- Executes the inclusion of the shelf: do its arguments conform, and what does it emit?
def shelfInclusion (s : Session) (model : Model Nat) (frame : Frame Nat) :
    Option (Bool × List Piece) := do
  let self ← (← s.registry).find? ⟨"shelf", .text⟩
  let made ← self.program.inclusions[0]?
  let p ← (shelfLibrary.program ⟨made.target, self.program.mode⟩).toOption
  let args ← ((Formula.evalGiven model frame made.args).run #[]).1.toOption
  let op := Op.inclusion made.site made.target made.args
  let x := exec (op.run model (linker.opener model 64 self) frame) ⟨#[], #[], s⟩
  return (decide (Parameter.Conform p.schema.params args), x.2.pieces.toList)

theorem inclusion_renders_label :
    let s := ((Session.new shelfLibrary.loader shelfLibrary.oracle shelfLibrary.config).request
      (Workshop.getOrCompile ⟨"shelf", .text⟩)).2
    let model : Model Nat := .ofFields fun _ _ => none
    let frame : Frame Nat := [.int 2]
    ∃ self made p args requests, Passes shelfLibrary [self] s ∧ made ∈ self.program.inclusions ∧
      shelfLibrary.program ⟨made.target, self.program.mode⟩ = .ok p ∧
      (Formula.evalGiven model frame made.args).run #[] = (.ok args, requests) ∧
      Parameter.Conform p.schema.params args ∧
      ∃ callee s', callee.program = p ∧
        (exec (linker.runWithin 63 callee (model.supplying requests.size p.schema args) none)
          ⟨#[], #[], s'⟩).2.pieces.toList =
            [.escaped "3", .literal (.text " "), .escaped "EUR"] := by
  intro s model frame
  have hshown : shelfInclusion s model frame =
      some (true, [.escaped "3", .literal (.text " "), .escaped "EUR"]) := by decide +kernel
  unfold shelfInclusion at hshown
  obtain ⟨r, hr, hshown⟩ := Option.bind_eq_some_iff.mp hshown
  obtain ⟨self, hself, hshown⟩ := Option.bind_eq_some_iff.mp hshown
  obtain ⟨made, hmade, hshown⟩ := Option.bind_eq_some_iff.mp hshown
  obtain ⟨p, hp, hshown⟩ := Option.bind_eq_some_iff.mp hshown
  obtain ⟨args, hargs, hshown⟩ := Option.bind_eq_some_iff.mp hshown
  obtain ⟨hconform, hpieces⟩ := Prod.mk.inj (Option.some.inj hshown)
  replace hmade := List.mem_of_getElem? hmade
  replace hp := eq_ok_of_toOption hp
  replace hconform := of_decide_eq_true hconform
  obtain ⟨requests, hgiven⟩ : ∃ requests,
      (Formula.evalGiven model frame made.args).run #[] = (.ok args, requests) :=
    ⟨_, Prod.ext (eq_ok_of_toOption hargs) rfl⟩
  have hs : Passes shelfLibrary [self] s := by
    refine .start (.program _ .new) fun c hc => ?_
    rw [List.mem_singleton.mp hc]
    exact .inr ⟨r, _, hr, hself⟩
  have hfirst : Passes shelfLibrary [self] (Effects.start (ρ := Nat) s).links := hs
  obtain ⟨-, callee, s', -, hcallee, -, -, hrender⟩ :=
    inclusion_renders_target hfirst (List.mem_singleton_self self) hmade hp model 63 frame
  obtain ⟨-, hinner⟩ := hrender args requests hgiven
  obtain ⟨-, hextends⟩ := hinner hconform
  refine ⟨self, made, p, args, requests, hs, hmade, hp, hgiven, hconform, callee, s', hcallee, ?_⟩
  have hsame := (congrArg Array.toList hextends.pieces).symm.trans hpieces
  simpa [Effects.start] using hsame

end Session

end Stencil
