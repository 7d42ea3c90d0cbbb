import Stencil.Proofs.Meaning.Preservation
import Stencil.Proofs.Output.Content

/-!
Templates that include each other. An interpreter finds them on a shelf; a program has its
inclusions linked to other programs. Both do the same where the programs were made from what is on
the shelf.
-/

namespace Stencil

open Run

variable {ρ κ ω : Type}

-- Templates by name, or why there is none, and what they are checked against.
structure Shelf where
  context : CheckContext
  find : String → Except RenderError Template

-- Inclusions, interpreted. `depth` more may be entered, one inside the other.
def Shelf.opener [DecidableEq ρ] (shelf : Shelf) (model : Model ρ) :
    Nat → Opener ρ (Ledger ρ Unit)
  | 0, _, target => throw (.recursionLimit target)
  | depth + 1, _, target => do
    let t ← Run.given (shelf.find target)
    let schema := (shelf.context.schemas target).getD .empty
    return fun args => do
      let values ← Run.given (bindArgs schema.params args)
      t.interpret ⟨shelf.context, .text, model, shelf.opener model depth⟩ schema values

-- The interpreter that finds inclusions on a shelf. It writes text.
def Shelf.interpreter [DecidableEq ρ] (shelf : Shelf) (model : Model ρ) (depth : Nat) :
    Interpreter ρ Unit :=
  ⟨shelf.context, .text, model, shelf.opener model depth⟩

-- What a template means among those on a shelf, with parameters from the root record of a model:
-- how it ends, the requests it makes and the pieces it writes, and what it does to values.
def Shelf.meaning [DecidableEq ρ] (shelf : Shelf) (t : Template) (schema : Schema)
    (model : Model ρ) (root : ρ) : Except RenderError Unit × Stencil.Effects ρ (Ledger ρ Unit) :=
  exec (t.interpretRoot (shelf.interpreter model maxInclusionDepth) schema root) (.start ⟨(), []⟩)

-- A program made from a template.
def Shelf.Makes (shelf : Shelf) (t : Template) (p : Program) : Prop :=
  ∃ checked, t.Elaborates shelf.context checked ∧ p = checked.program p.name p.mode

-- What a linker finds, against a shelf. `origin` tells the template of a program, `knows` says of
-- the links that they are in order and which programs they know of.
structure Linker.Serves (linker : Linker κ ω) (shelf : Shelf) (origin : κ → Template → Prop)
    (knows : (κ → Prop) → ω → Prop) : Prop where
  made : ∀ {c t}, origin c t → shelf.Makes t (linker.program c)
  forget : ∀ {K K' : κ → Prop} {links}, (∀ c, K' c → K c) → knows K links → knows K' links
  found : ∀ {K : κ → Prop} {links links' self t site target callee}, knows K links → K self →
    origin self t → t.targets[site]? = some target →
    linker.link self site target links = (.ok callee, links') →
    (∃ t', shelf.find target = .ok t' ∧ origin callee t') ∧
      (linker.program callee).mode = (linker.program self).mode ∧
      shelf.context.schemas target = some (linker.program callee).schema ∧
      knows (fun c => K c ∨ c = callee) links'
  missing : ∀ {K : κ → Prop} {links links' self t site target err}, knows K links → K self →
    origin self t → t.targets[site]? = some target →
    linker.link self site target links = (.error err, links') →
    shelf.find target = .error err ∧ knows K links'

theorem Piece.formOf_inMode (mode : Mode) : Piece.FormOf mode .text (Piece.inMode mode) :=
  ⟨fun _ => rfl, fun _ => rfl, fun _ => rfl⟩

-- A rendering in a mode does what a meaning says. Where fixed text is cut does not count.
structure Rendering.Follows (r : Rendering ρ ω) (mode : Mode)
    (x : Except RenderError Unit × Effects ρ (Ledger ρ Unit)) : Prop where
  outcome : r.outcome = x.1
  requests : r.requests = x.2.requests.toList
  pieces : Piece.merged r.pieces = Piece.merged (x.2.pieces.toList.map (Piece.inMode mode))

namespace Linker.Serves

variable [DecidableEq ρ] {linker : Linker κ ω} {shelf : Shelf} {origin : κ → Template → Prop}
  {knows : (κ → Prop) → ω → Prop} {model : Model ρ}

-- The effects of a program that knows of some programs, against those of an interpreter.
abbrev Effects (knows : (κ → Prop) → ω → Prop) (mode : Mode) (K : κ → Prop) :
    Stencil.Effects ρ ω → Stencil.Effects ρ (Ledger ρ Unit) → Prop :=
  Tally (Piece.inMode mode) (fun links _ => knows K links) []

omit [DecidableEq ρ] in
-- One step: a target is linked where it is found on the shelf.
theorem link (h : linker.Serves shelf origin knows) {mode : Mode} {self : κ} {t : Template}
    {K : κ → Prop} {site : Nat} {target : String} (horigin : origin self t) (hself : K self)
    (htarget : t.targets[site]? = some target) :
    Relates (Effects (ρ := ρ) knows mode K) (Effects knows mode K)
      (fun callee t' e e' => (origin callee t' ∧
        (linker.program callee).mode = (linker.program self).mode ∧
        shelf.context.schemas target = some (linker.program callee).schema) ∧
        Effects knows mode (fun c => K c ∨ c = callee) e e')
      (ofLink (linker.link self site target)) (Run.given (shelf.find target)) := by
  intro e e' he
  rw [exec_ofLink, exec_given]
  cases hlink : linker.link self site target e.links with
  | mk r links =>
      cases r with
      | ok callee =>
          obtain ⟨⟨t', hfind, horigin'⟩, hmode, hschema, hknows⟩ :=
            h.found he.links hself horigin htarget hlink
          rw [hfind]
          exact .ok ⟨⟨horigin', hmode, hschema⟩, he.requests, he.pieces, hknows⟩
      | error err =>
          obtain ⟨hfind, hknows⟩ := h.missing he.links hself horigin htarget hlink
          rw [hfind]
          exact .error ⟨he.requests, he.pieces, hknows⟩

omit [DecidableEq ρ] in
-- What a callee knows is also known outside of it, its own program apart.
theorem leave (h : linker.Serves shelf origin knows) {mode : Mode} {K : κ → Prop} {callee : κ}
    {x : Run ρ ω Unit} {y : Interp ρ Unit Unit}
    (hxy : Agrees (Effects knows mode fun c => K c ∨ c = callee) x y) :
    Relates (Effects knows mode fun c => K c ∨ c = callee) (Effects knows mode K)
      (With Eq (Effects knows mode K)) x y := by
  have hleave (e : Stencil.Effects ρ ω) (e' : Stencil.Effects ρ (Ledger ρ Unit))
      (he : Effects knows mode (fun c => K c ∨ c = callee) e e') : Effects knows mode K e e' :=
    ⟨he.requests, he.pieces, h.forget (fun _ => .inl) he.links⟩
  exact hxy.weaken (fun _ _ he => he) hleave fun _ _ e e' hQ => ⟨hQ.1, hleave e e' hQ.2⟩

-- The induction is on how deep inclusions may nest.
theorem parallel (h : linker.Serves shelf origin knows) {depth : Nat} {self : κ} {t : Template}
    {K : κ → Prop} (horigin : origin self t) (hself : K self) :
    Parallel (shelf.interpreter model depth) (linker.opener model depth self)
      (linker.program self).mode (Piece.inMode (linker.program self).mode)
      (fun links _ => knows K links) t.targets := by
  induction depth generalizing self t K with
  | zero =>
      refine ⟨Piece.formOf_inMode _, fun _ _ _ => ?_⟩
      exact Relates.bind (Q := fun _ _ _ _ => False) (Relates.throw fun _ _ he => he)
        fun _ _ _ _ hfalse => hfalse.elim
  | succ depth ih =>
      refine ⟨Piece.formOf_inMode _, @fun site target schema x y htarget hschema hargs => ?_⟩
      simp only [Run.inclusion, Linker.opener, Shelf.interpreter, Shelf.opener, bind_assoc,
        pure_bind]
      refine Relates.bind (h.link horigin hself htarget) fun callee t' => .of_values ?_
      rintro ⟨horigin', hmode, hschema'⟩
      obtain rfl : (linker.program callee).schema = schema :=
        Option.some.inj (hschema'.symm.trans hschema)
      have hparallel : Parallel (shelf.interpreter model depth) (linker.opener model depth callee)
          (linker.program self).mode (Piece.inMode (linker.program self).mode)
          (fun links _ => knows (fun c => K c ∨ c = callee) links) t'.targets :=
        hmode ▸ ih horigin' (.inr rfl)
      refine h.leave (Relates.bind (hargs _) fun vs ws => .of_values ?_)
      rintro ⟨rfl, hlength⟩
      refine Agrees.adapt _ ?_
      obtain ⟨name, checked, ht', hprogram⟩ : ∃ name checked, t'.Elaborates shelf.context checked ∧
          linker.program callee = checked.program name (linker.program self).mode := by
        obtain ⟨checked, ht', hprogram⟩ := h.made horigin'
        exact ⟨_, checked, ht', hmode ▸ hprogram⟩
      rw [hschema', Option.getD_some]
      cases hbind : bindArgs (linker.program callee).schema.params vs with
      | error err => exact Agrees.throw err
      | ok values =>
          have hvalues := bindArgs_length hlength hbind
          rw [hprogram] at hvalues ⊢
          exact Program.run_of_template hparallel ht' hvalues

-- A program that is known does what its template means.
theorem agrees_interpretRoot (h : linker.Serves shelf origin knows) {self : κ} {t : Template}
    {K : κ → Prop} (horigin : origin self t) (hself : K self) (model : Model ρ) (root : ρ) :
    Agrees (Effects knows (linker.program self).mode K) (linker.run self model root)
      (t.interpretRoot (shelf.interpreter model maxInclusionDepth) (linker.program self).schema
        root) := by
  have hparallel : Parallel (shelf.interpreter model maxInclusionDepth)
      (linker.opener model maxInclusionDepth self) (linker.program self).mode
      (Piece.inMode (linker.program self).mode) (fun links _ => knows K links) t.targets :=
    h.parallel horigin hself
  obtain ⟨checked, ht, hprogram⟩ := h.made horigin
  have hrun := Program.runRoot_of_template hparallel ht (linker.program self).name root
  have hschema : (linker.program self).schema = checked.schema := congrArg Program.schema hprogram
  rw [← hprogram, ← hschema] at hrun
  exact hrun

-- Rendering follows the meaning of the template, and leaves the links in order.
theorem render (h : linker.Serves shelf origin knows) {self : κ} {t : Template} {K : κ → Prop}
    {sink : Sink} {links : ω} (horigin : origin self t) (hself : K self) (hlinks : knows K links)
    (hmode : (linker.program self).mode = sink.mode) (model : Model ρ) (root : ρ) :
    let r := Stencil.render linker self model root sink links
    r.Follows sink.mode (shelf.meaning t (linker.program self).schema model root) ∧
      r.sink = sink.appendAll r.pieces ∧ knows K r.links := by
  intro r
  have hr := render_of_mode hmode model root links
  have hends := h.agrees_interpretRoot horigin hself model root (.start links)
    (.start ⟨(), []⟩) ⟨rfl, rfl, hlinks⟩
  rw [hmode] at hends
  rw [show r = _ from hr, Shelf.meaning]
  generalize exec (linker.run self model root) (.start links) = x at hends ⊢
  generalize exec (t.interpretRoot (shelf.interpreter model maxInclusionDepth)
    (linker.program self).schema root) (.start ⟨(), []⟩) = y at hends ⊢
  cases hends with
  | ok he =>
      exact ⟨⟨rfl, congrArg Array.toList he.2.requests, by simpa using he.2.pieces⟩, rfl,
        he.2.links⟩
  | error he =>
      exact ⟨⟨rfl, congrArg Array.toList he.requests, by simpa using he.pieces⟩, rfl, he.links⟩

end Linker.Serves

-- A shelf with nothing to include.
def Shelf.bare (context : CheckContext) : Shelf where
  context := context
  find name := .error (.unresolvedInclusion name "no registry is available")

theorem unlinked_serves (context : CheckContext) :
    unlinked.Serves (.bare context) (fun p t => (Shelf.bare context).Makes t p)
      fun _ _ => True where
  made h := h
  forget _ h := h
  found := by
    rintro K _ _ self t site target callee - - - - hlink
    cases hlink
  missing := by
    rintro K _ _ self t site target err - - - - hlink
    cases hlink
    exact ⟨rfl, trivial⟩

end Stencil
