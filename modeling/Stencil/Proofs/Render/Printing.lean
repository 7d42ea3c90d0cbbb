import Stencil.Proofs.Meaning.Preservation
import Stencil.Proofs.Program.Leaves
import Stencil.Proofs.Render.Moments

/-!
Where each piece of output comes from. It is printed at a moment of the run at which just the pieces
before it were written, by an operation of the program that is executed then.
-/

namespace Stencil

open Relation Run

variable {ρ κ ω : Type} [DecidableEq ρ]

-- All that a render writes goes into its sink.
theorem Rendering.sink_render {linker : Linker κ ω} {self : κ} {model : Model ρ} {root : ρ}
    {sink : Sink} {links : ω} :
    (render linker self model root sink links).sink =
      sink.appendAll (render linker self model root sink links).pieces := by
  by_cases hmode : (linker.program self).mode = sink.mode
  · rw [render_of_mode hmode]
  · cases sink <;> simp [render, hmode, Sink.appendAll]

namespace Linker

variable (linker : Linker κ ω) (model : Model ρ)

-- What was written from a moment on, piece by piece, each at a moment that it leads to.
inductive Written (m : Moment κ ρ ω) : Array Piece → Prop
  | start : Written m m.effects.pieces
  | piece {m' : Moment κ ρ ω} {p : Piece} (before : Written m m'.effects.pieces)
    (reached : ReflTransGen (linker.Leads model) m m') (prints : m'.Prints model p) :
    Written m (m'.effects.pieces.push p)

-- The moments of a render, from the first operation of the program that is rendered.
def Reaches (root : ρ) (self : κ) (links : ω) (m : Moment κ ρ ω) : Prop :=
  ∃ values requests,
    (readParams model root (linker.program self).schema.params).run #[] = (.ok values, requests) ∧
    ReflTransGen (linker.Leads model)
      ⟨self, maxInclusionDepth, (linker.program self).frame values, ⟨requests, #[], links⟩,
        (linker.program self).body⟩ m

variable {linker model} {m m' : Moment κ ρ ω} {ps : Array Piece}

theorem Written.trans (h : linker.Written model m m'.effects.pieces)
    (hreached : ReflTransGen (linker.Leads model) m m') (h' : linker.Written model m' ps) :
    linker.Written model m ps := by
  induction h' with
  | start => exact h
  | piece _ reached prints ih => exact .piece ih (hreached.trans reached) prints

theorem tracks_written : linker.Tracks model fun m e => linker.Written model m e.pieces where
  asks _ _ := .start
  prints _ hp := .piece .start .refl hp
  links _ _ _ _ := .start
  leads hm h h' := h.trans (.single hm) h'

theorem Written.split (h : linker.Written model m ps) (hm : m.effects.pieces = #[])
    {before after : List Piece} {p : Piece} (hps : ps.toList = before ++ p :: after) :
    ∃ m', ReflTransGen (linker.Leads model) m m' ∧ m'.effects.pieces.toList = before ∧
      m'.Prints model p := by
  induction h generalizing after with
  | start => simp [hm] at hps
  | @piece m' q _ reached prints ih =>
      rw [Array.toList_push] at hps
      obtain rfl | ⟨after, last, rfl⟩ := after.eq_nil_or_concat
      · obtain ⟨hbefore, hpiece⟩ := List.append_inj' hps rfl
        obtain rfl := (List.cons.inj hpiece).1
        exact ⟨m', reached, hbefore, prints⟩
      · rw [List.concat_eq_append, ← List.cons_append, ← List.append_assoc] at hps
        exact ih (List.append_inj' hps rfl).1

-- Each piece of what is rendered.
theorem prints_of_render {self : κ} {root : ρ} {sink : Sink} {links : ω}
    {before after : List Piece} {p : Piece}
    (hps : (render linker self model root sink links).pieces = before ++ p :: after) :
    ∃ m, linker.Reaches model root self links m ∧ m.effects.pieces.toList = before ∧
      m.Prints model p := by
  by_cases hmode : (linker.program self).mode = sink.mode
  · rw [render_of_mode hmode, Linker.run] at hps
    dsimp only at hps
    rw [exec_bind, exec_ofEval] at hps
    cases hread : (readParams model root (linker.program self).schema.params).run
        (Effects.start links).requests with
    | mk r requests =>
        rw [hread] at hps
        cases r with
        | error err => simp [Effects.start] at hps
        | ok values =>
            dsimp only at hps
            rw [Program.exec_run] at hps
            let start : Moment κ ρ ω :=
              ⟨self, maxInclusionDepth, (linker.program self).frame values,
                ⟨requests, #[], links⟩, (linker.program self).body⟩
            have hwritten : linker.Written model start (exec (Op.runAll model
                (linker.openerAt model start) start.frame start.ops) start.effects).2.pieces :=
              tracks_written.runAll start
            obtain ⟨m, hreached, hbefore, hp⟩ := hwritten.split rfl hps
            exact ⟨m, ⟨values, requests, hread, hreached⟩, hbefore, hp⟩
  · simp [render, hmode] at hps

-- The next moment is in the same program, or in one that was just linked.
theorem Leads.program_cases (hm : linker.Leads model m m') :
    (m'.self = m.self ∧ Op.leavesOfAll m'.ops ⊆ Op.leavesOfAll m.ops) ∨
      ∃ site target args, .inclusion site target args ∈ Op.leavesOfAll m.ops ∧
        linker.link m.self site target m.effects.links = (.ok m'.self, m'.effects.links) ∧
        m'.ops = (linker.program m'.self).body := by
  cases hm with
  | next first _ =>
      rw [first]
      exact .inl ⟨rfl, List.subset_append_right ..⟩
  | arm first _ _ =>
      rw [first]
      exact .inl ⟨rfl, fun op hop =>
        List.mem_append_left _ (List.mem_append_left _ (List.mem_append_left _ hop))⟩
  | nextArm first _ _ =>
      rw [first]
      refine .inl ⟨rfl, fun op hop => ?_⟩
      simp only [Moment.later, Op.leavesOfAll, Op.leaves, Op.leavesOfArms, List.mem_append]
        at hop ⊢
      tauto
  | otherwise first =>
      rw [first]
      exact .inl ⟨rfl, fun op hop => List.mem_append_left _ hop⟩
  | item first _ _ =>
      rw [first]
      exact .inl ⟨rfl, fun op hop => List.mem_append_left _ (List.mem_append_left _ hop)⟩
  | empty first _ =>
      rw [first]
      exact .inl ⟨rfl, fun op hop => List.mem_append_left _ (List.mem_append_right _ hop)⟩
  | enter first _ linked _ _ =>
      rw [first]
      exact .inr ⟨_, _, _, List.mem_cons_self, linked, rfl⟩

-- What comes next at a moment stands in the program that is executed.
theorem Leads.leaves (hm : linker.Leads model m m')
    (h : Op.leavesOfAll m.ops ⊆ (linker.program m.self).leaves) :
    Op.leavesOfAll m'.ops ⊆ (linker.program m'.self).leaves := by
  obtain ⟨hself, hops⟩ | ⟨_, _, _, _, _, hops⟩ := hm.program_cases
  · rw [hself]
    exact List.Subset.trans hops h
  · rw [hops]
    exact List.Subset.refl _

theorem Reaches.leaves {root : ρ} {self : κ} {links : ω}
    (h : linker.Reaches model root self links m) :
    Op.leavesOfAll m.ops ⊆ (linker.program m.self).leaves := by
  obtain ⟨values, requests, -, hreached⟩ := h
  induction hreached with
  | refl => exact List.Subset.refl _
  | tail _ hm ih => exact hm.leaves ih

end Linker

-- A linker that keeps its links in order. `knows` says of the links that they are, and that they
-- know of some programs; whatever an inclusion of these is linked to is then known as well.
structure Linker.Minds (linker : Linker κ ω) (knows : (κ → Prop) → ω → Prop) : Prop where
  forget : ∀ {K K' : κ → Prop} {links}, (∀ c, K' c → K c) → knows K links → knows K' links
  found : ∀ {K : κ → Prop} {links links' self site target args callee}, knows K links → K self →
    .inclusion site target args ∈ (linker.program self).leaves →
    linker.link self site target links = (.ok callee, links') →
    knows (fun c => K c ∨ c = callee) links'
  missing : ∀ {K : κ → Prop} {links links' self site target args err}, knows K links → K self →
    .inclusion site target args ∈ (linker.program self).leaves →
    linker.link self site target links = (.error err, links') → knows K links'

namespace Linker.Minds

variable {linker : Linker κ ω} {model : Model ρ} {knows : (κ → Prop) → ω → Prop}
  {m m' : Moment κ ρ ω}

-- What is run at a moment leaves the links in order, and what is known stays known.
theorem tracks (h : linker.Minds knows) : linker.Tracks model fun m e =>
    ∀ K : κ → Prop, K m.self → Op.leavesOfAll m.ops ⊆ (linker.program m.self).leaves →
      knows K m.effects.links → knows K e.links where
  asks _ _ _ _ _ hlinks := hlinks
  prints _ _ _ _ _ hlinks := hlinks
  links := by
    intro m site target args ops result links requests hfirst _ hlink K hself hleaves hlinks
    have hleaf : Op.inclusion site target args ∈ (linker.program m.self).leaves := by
      refine hleaves ?_
      rw [hfirst]
      exact List.mem_cons_self
    cases result with
    | ok callee => exact h.forget (fun _ => .inl) (h.found hlinks hself hleaf hlink)
    | error err => exact h.missing hlinks hself hleaf hlink
  leads := by
    intro m m' e hm hway hrest K hself hleaves hlinks
    obtain ⟨hsame, -⟩ | ⟨site, target, args, hleaf, hlink, -⟩ := hm.program_cases
    · exact hrest K (hsame ▸ hself) (hm.leaves hleaves) (hway K hself hleaves hlinks)
    · have hfound := h.found hlinks hself (hleaves hleaf) hlink
      exact h.forget (fun _ => .inl) (hrest _ (.inr rfl) (hm.leaves hleaves) hfound)

-- The program that is executed at the next moment is known then.
theorem leads (h : linker.Minds knows) (hm : linker.Leads model m m') {K : κ → Prop}
    (hself : K m.self) (hleaves : Op.leavesOfAll m.ops ⊆ (linker.program m.self).leaves)
    (hknows : knows K m.effects.links) :
    ∃ K' : κ → Prop, K' m'.self ∧ knows K' m'.effects.links := by
  obtain ⟨hsame, -⟩ | ⟨site, target, args, hleaf, hlink, -⟩ := hm.program_cases
  · exact ⟨K, hsame ▸ hself, h.tracks.of_leads hm K hself hleaves hknows⟩
  · exact ⟨_, .inr rfl, h.found hknows hself (hleaves hleaf) hlink⟩

-- So it is at each moment of a render.
theorem knows_of_reaches (h : linker.Minds knows) {root : ρ} {self : κ} {links : ω}
    (hlinks : knows (· = self) links) (hm : linker.Reaches model root self links m) :
    ∃ K : κ → Prop, K m.self ∧ knows K m.effects.links := by
  obtain ⟨values, requests, hread, hreached⟩ := hm
  induction hreached with
  | refl => exact ⟨(· = self), rfl, hlinks⟩
  | tail hbefore hm ih =>
      obtain ⟨K, hself, hknows⟩ := ih
      exact h.leads hm hself (Reaches.leaves ⟨values, requests, hread, hbefore⟩) hknows

end Linker.Minds

end Stencil
