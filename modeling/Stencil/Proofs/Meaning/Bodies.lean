import Stencil.Proofs.Meaning.Expressions
import Stencil.Proofs.Output.Content
import Stencil.Proofs.Program.Layout

/-!
Operations mean what the nodes mean that they were made from. Sibling loops store into the same
slots, so what is kept is that a frame holds the environment outside of the loops that were run.
-/

namespace Stencil

open Run

variable {ρ ω ω' : Type}

-- What a program has done, against what an interpreter has done. `pending` is fixed text that the
-- program has still to write, `form` is the form in which it writes what the interpreter writes,
-- and `L` relates the links.
structure Tally (form : Piece → Piece) (L : ω → ω' → Prop) (pending : List Piece)
    (e : Effects ρ ω) (e' : Effects ρ (Ledger ρ ω')) : Prop where
  requests : e.requests = e'.requests
  pieces : Piece.merged (e.pieces.toList ++ pending) = Piece.merged (e'.pieces.toList.map form)
  links : L e.links e'.links.links

-- A form of output that belongs to a mode: it has the fixed text of another mode in its own form,
-- and leaves the texts of values alone.
structure Piece.FormOf (mode : Mode) (source : Mode) (form : Piece → Piece) : Prop where
  literal : ∀ s, form (.literal (.ofString source s)) = .literal (.ofString mode s)
  escaped : ∀ s, form (.escaped s) = .escaped s
  raw : ∀ s, form (.raw s) = .raw s

namespace Tally

variable {form : Piece → Piece} {L : ω → ω' → Prop} {mode source : Mode}

theorem lockstep : Lockstep (Tally (ρ := ρ) form L []) where
  requests h := h.requests
  evaluated _ _ h := ⟨rfl, h.pieces, h.links⟩

-- The interpreter is ahead by fixed text.
theorem ahead (hform : Piece.FormOf mode source form) {pending content : String}
    {e : Effects ρ ω} {e' : Effects ρ (Ledger ρ ω')}
    (h : Tally form L [.literal (.ofString mode pending)] e e') :
    Tally form L [.literal (.ofString mode (pending ++ content))] e
      { e' with pieces := e'.pieces.push (.literal (.ofString source content)) } where
  requests := h.requests
  pieces := by
    rw [← Piece.merged_append_literals]
    simpa [hform.literal] using
      Piece.merged_append_congr h.pieces [.literal (.ofString mode content)]
  links := h.links

theorem empty {e : Effects ρ ω} {e' : Effects ρ (Ledger ρ ω')} (h : Tally form L [] e e') :
    Tally form L [.literal (.ofString mode "")] e e' where
  requests := h.requests
  pieces := by simpa [Piece.merged_append_empty] using h.pieces
  links := h.links

-- Both write one piece.
theorem emit {p q : Piece} (hpq : form q = p) :
    Agrees (Tally (ρ := ρ) form L []) (Run.emit p) (Run.emit q) := by
  intro e e' he
  have hpieces : Piece.merged e.pieces.toList = Piece.merged (e'.pieces.toList.map form) := by
    simpa using he.pieces
  refine .ok ⟨rfl, he.requests, ?_, he.links⟩
  simpa [hpq] using Piece.merged_append_congr hpieces [p]

end Tally

namespace Frame

variable {frame : Frame ρ} {env : Environment ρ}

theorem holds_set {k : Nat} {v : Value ρ} (h : frame.Holds env) (hk : env.length ≤ k) :
    Frame.Holds (frame.set k v) env := by
  induction env with
  | nil => trivial
  | cons x outer ih =>
      have hlt : outer.length < k := hk
      exact ⟨by rw [List.getElem?_set_ne (by omega), h.1], ih h.2 (by omega)⟩

@[simp] theorem length_store (element : Nat) (index : Option Nat) (item : Value ρ) (i : Nat) :
    (frame.store element index item i).length = frame.length := by
  cases index <;> simp [store]

-- Inside a loop the frame holds the element and the index as well.
theorem holds_inLoop {element : Binding} {index : Option Binding} {type : Option Ty}
    {item : Value ρ} {i : Nat} (h : frame.Holds env)
    (hroom : (index.map fun _ => env.length + 1).getD env.length < frame.length) :
    Frame.Holds (frame.store env.length (index.map fun _ => env.length + 1) item i)
      (env.inLoop element index type item i) := by
  cases index with
  | none =>
      have hlt : env.length < frame.length := by simpa using hroom
      exact ⟨by simp [store, hlt], holds_set h (Nat.le_refl _)⟩
  | some index =>
      have hlt : env.length + 1 < frame.length := by simpa using hroom
      refine ⟨by simp [store, hlt], ?_, ?_⟩
      · simp [store, show env.length < frame.length by omega]
      · exact holds_set (holds_set h (Nat.le_refl _)) (Nat.le_succ _)

-- What is left of a frame after some operations: it still holds the environment outside of them.
structure Keeps (frame : Frame ρ) (env : Environment ρ) (frame' : Frame ρ) : Prop where
  holds : frame'.Holds env
  length : frame'.length = frame.length

theorem Keeps.refl (h : frame.Holds env) : frame.Keeps env frame := ⟨h, rfl⟩

theorem Keeps.trans {frame' frame'' : Frame ρ} (h : frame.Keeps env frame')
    (h' : frame'.Keeps env frame'') : frame.Keeps env frame'' :=
  ⟨h'.holds, h'.length.trans h.length⟩

theorem holds_of_inLoop {element : Binding} {index : Option Binding} {type : Option Ty}
    {item : Value ρ} {i : Nat} (h : frame.Holds (env.inLoop element index type item i)) :
    frame.Holds env := by
  cases index with
  | none => exact h.2
  | some index => exact h.2.2

end Frame

section Uniform

-- A missing alternative is as good as an empty one.

variable [DecidableEq ρ] {interp : Interpreter ρ ω'} {env : Environment ρ} {site : Nat}

theorem Node.interpret_conditional {arms : List Arm} {otherwise : Option (List Node)}
    {span : Span} :
    (Node.conditional arms otherwise span).interpret interp env site =
      (do
        if ← Arm.interpretFirst interp env site arms then return ()
        else
          Node.interpretAll interp env (site + (Node.targetsOfArms arms).length)
            (otherwise.getD [])) := by
  cases otherwise with
  | none =>
      simp only [Node.interpret, Option.getD_none, Node.interpretAll]
      congr
      funext b
      cases b <;> rfl
  | some nodes =>
      simp only [Node.interpret, Option.getD_some]
      congr
      funext b
      cases b <;> rfl

theorem Node.interpret_loop {element : Binding} {index : Option Binding} {iterable : Expr}
    {body : List Node} {otherwise : Option (List Node)} {span : Span} {type : Ty}
    (htype : iterable.typeIn interp.context.oracle env.scope = some (.list type)) :
    (Node.loop element index iterable body otherwise span).interpret interp env site =
      (do
        let v ← iterable.interpret interp.context.oracle interp.model env
        let items ← Interp.perform .iteration [v] .list (Eval.given v.items)
        if items.isEmpty then
          Node.interpretAll interp env (site + (Node.targetsOfAll body).length)
            (otherwise.getD [])
        else
          Run.forEach (fun _ i item =>
            Node.interpretAll interp (env.inLoop element index (some type) item i) site body)
            () 0 items) := by
  cases otherwise with
  | none =>
      simp only [Node.interpret, htype, Option.bind_some, Ty.item?, Option.getD_none,
        Node.interpretAll]
      congr
      funext v
      congr
      funext items
      cases items <;> rfl
  | some nodes =>
      simp only [Node.interpret, htype, Option.bind_some, Ty.item?, Option.getD_some]

theorem Op.run_loop (model : Model ρ) (opener : Opener ρ ω) (frame : Frame ρ) (iterable : Formula)
    (element : Nat) (index : Option Nat) (body otherwise : List Op) :
    (Op.loop iterable element index body otherwise).run model opener frame =
      (do
        let v ← ofEval (iterable.eval model frame)
        let items ← Run.given v.items
        if items.isEmpty then Op.runAll model opener frame otherwise
        else
          Run.forEach (fun frame i item =>
            Op.runAll model opener (frame.store element index item i) body) frame 0 items) := by
  simp only [Op.run]
  congr
  funext v
  cases v with
  | list items => cases items <;> rfl
  | _ => rfl

end Uniform

theorem Op.runAll_append [DecidableEq ρ] (model : Model ρ) (opener : Opener ρ ω)
    (frame : Frame ρ) (ops ops' : List Op) :
    Op.runAll model opener frame (ops ++ ops') =
      (do Op.runAll model opener (← Op.runAll model opener frame ops) ops') := by
  induction ops generalizing frame with
  | nil => simp [Op.runAll]
  | cons op ops ih => simp [Op.runAll, ih]

-- Fixed text that was pending is written.
theorem Tally.textOps [DecidableEq ρ] {form : Piece → Piece} {L : ω → ω' → Prop} {mode : Mode}
    (model : Model ρ) (opener : Opener ρ ω) (pending : String) (frame : Frame ρ) :
    Relates (Tally form L [.literal (.ofString mode pending)]) (Tally form L [])
      (With (fun frame' (_ : Unit) => frame' = frame) (Tally form L []))
      (Op.runAll model opener frame (textOps mode pending)) (Pure.pure ()) := by
  by_cases hempty : pending = ""
  · subst hempty
    refine Relates.pure fun e e' he => ⟨rfl, he.requests, ?_, he.links⟩
    simpa [Piece.merged_append_empty] using he.pieces
  · have htext : Stencil.textOps mode pending = [.literal (.ofString mode pending)] := by
      simp [Stencil.textOps, hempty]
    intro e e' he
    rw [htext]
    exact .ok ⟨rfl, he.requests, by simpa using he.pieces, he.links⟩

-- The empty text is not pending.
theorem Run.Relates.of_empty {α β : Type} {form : Piece → Piece} {L : ω → ω' → Prop} {mode : Mode}
    {E : Effects ρ ω → Effects ρ (Ledger ρ ω') → Prop}
    {Q : α → β → Effects ρ ω → Effects ρ (Ledger ρ ω') → Prop} {x : Run ρ ω α}
    {y : Interp ρ ω' β} (h : Relates (Tally form L [.literal (.ofString mode "")]) E Q x y) :
    Relates (Tally form L []) E Q x y :=
  h.weaken (fun _ _ he => he.empty) (fun _ _ hE => hE) fun _ _ _ _ hQ => hQ

theorem List.prefix_drop_append {α : Type} {xs ys zs : List α} {n : Nat}
    (h : xs ++ ys <+: zs.drop n) : xs <+: zs.drop n ∧ ys <+: zs.drop (n + xs.length) := by
  obtain ⟨rest, hrest⟩ := h
  refine ⟨⟨ys ++ rest, by simpa using hrest⟩, rest, ?_⟩
  rw [← List.drop_drop, ← hrest]
  simp

theorem List.getElem?_of_prefix_drop {α : Type} {x : α} {xs zs : List α} {n : Nat}
    (h : x :: xs <+: zs.drop n) : zs[n]? = some x := by
  obtain ⟨rest, hrest⟩ := h
  have hhead : (zs.drop n)[0]? = some x := by simp [← hrest]
  simpa using hhead

-- What a program and an interpreter have in common: the interpreter writes what the program does in
-- another form, and inclusions do the same for both. `targets` are all those of the template.
structure Parallel [DecidableEq ρ] (interp : Interpreter ρ ω') (opener : Opener ρ ω) (mode : Mode)
    (form : Piece → Piece) (L : ω → ω' → Prop) (targets : List String) : Prop where
  formed : Piece.FormOf mode interp.mode form
  inclusion : ∀ {site : Nat} {target : String} {schema : Schema}
    {x : Run ρ ω (List (Option (Value ρ)))} {y : Interp ρ ω' (List (Option (Value ρ)))},
    targets[site]? = some target → interp.context.schemas target = some schema →
    (∀ L' : ω → ω' → Prop, Relates (Tally form L' []) (Tally form L' [])
      (With (fun vs ws => vs = ws ∧ vs.length = schema.params.length) (Tally form L' [])) x y) →
    Agrees (Tally form L []) (Run.inclusion opener site target x)
      (Run.inclusion interp.opener site target y)

namespace Parallel

variable [DecidableEq ρ] {interp : Interpreter ρ ω'} {opener : Opener ρ ω} {mode : Mode}
  {form : Piece → Piece} {L : ω → ω' → Prop} {targets : List String}

-- A node against its operation, a body against its operations, and arms against arms. The induction
-- is on how nodes stand for statements. `hroom` says that the frame has slots for all loops, and
-- `hsites` which part of the targets belongs to the node.
mutual

theorem op_of_node (hp : Parallel interp opener mode form L targets) {scope : Scope} {node : Node}
    {s : Statement} {env : Environment ρ} {frame : Frame ρ} {site n : Nat}
    (hscope : env.scope = scope) (hframe : frame.Holds env) (hroom : s.slots n ≤ frame.length)
    (hsites : node.targets <+: targets.drop site) :
    node.Elaborates interp.context scope s →
      Relates (Tally form L []) (Tally form L [])
        (With (fun frame' (_ : Unit) => frame.Keeps env frame') (Tally form L []))
        ((s.op mode site).1.run interp.model opener frame) (node.interpret interp env site)
  | .text content _ =>
      (Tally.emit (hp.formed.literal content)).then_pure fun _ => .refl hframe
  | @Node.Elaborates.interpolation _ _ raw value _ t elaborates _ => by
      have hvalue : Agrees (Tally form L []) (ofEval (t.formula.eval interp.model frame))
          (value.interpret interp.context.oracle interp.model env) :=
        Expr.agrees_interpret Tally.lockstep hframe (hscope ▸ elaborates)
      have hshown (v : Value ρ) := Tally.lockstep.given (R := Tally form L []) .display [v] .text
        v.shown
      cases raw with
      | false =>
          refine hvalue.bind_relates fun v => (hshown v).bind_relates fun s => ?_
          exact (Tally.emit (hp.formed.escaped s)).then_pure fun _ => .refl hframe
      | true =>
          refine hvalue.bind_relates fun v => (hshown v).bind_relates fun s => ?_
          exact (Tally.emit (hp.formed.raw s)).then_pure fun _ => .refl hframe
  | @Node.Elaborates.conditional _ _ arms otherwise _ branches els harms hels => by
      rw [Node.interpret_conditional]
      rw [Node.targets_conditional] at hsites
      obtain ⟨hfirst, hlast⟩ := List.prefix_drop_append hsites
      have hroomArms : Statement.slotsOfBranches n branches ≤ frame.length :=
        Nat.le_trans (Statement.le_slotsOfAll _ els) hroom
      refine Relates.bind (arms_of_arms hp hscope hframe hroomArms hfirst harms) fun left taken =>
        .of_values ?_
      rintro ⟨rfl, hleft⟩
      cases left with
      | some frame' => exact .pure fun e e' he => ⟨hleft frame' rfl, he⟩
      | none =>
          rw [Statement.site_branchOps mode site harms]
          exact (ops_of_nodes hp "" hscope hframe hroom hlast hels).of_empty
  | @Node.Elaborates.loop _ _ element index iterable body otherwise _ it item statements els
      hit htype hbody hels => by
      have hit' : iterable.Elaborates interp.context.oracle env.scope it := hscope ▸ hit
      rw [Node.interpret_loop ((Expr.typeIn_of_elaborates hit').trans (congrArg some htype))]
      rw [Node.targets_loop] at hsites
      obtain ⟨hfirst, hlast⟩ := List.prefix_drop_append hsites
      have hlength : scope.length = env.length := by simp [← hscope, Environment.scope]
      have hroomBody := Nat.le_trans (Statement.le_slotsOfAll _ els) hroom
      have hroomSlot := Nat.le_trans (Statement.le_slotsOfAll _ statements) hroomBody
      simp only [Statement.op, Op.run_loop, Statement.site_ops mode site "" hbody]
      refine (Expr.agrees_interpret Tally.lockstep hframe hit').bind_relates fun v =>
        (Tally.lockstep.given _ _ _ _).bind_relates fun items => ?_
      cases items with
      | nil => exact (ops_of_nodes hp "" hscope hframe hroom hlast hels).of_empty
      | cons head tail =>
          refine Relates.forEach (t := ()) (fun left _ i v _ hleft => ?_) (.refl hframe)
          have hslot : (index.map fun _ => env.length + 1).getD env.length < left.length := by
            rw [hleft.length, ← hlength]
            omega
          have hinside : (env.inLoop element index (some item) v i).scope =
              scope.inLoop element index (some item) := by
            rw [Environment.scope_inLoop, hscope]
          have hholds : Frame.Holds
              (left.store env.length (index.map fun _ => env.length + 1) v i)
              (env.inLoop element index (some item) v i) := Frame.holds_inLoop hleft.holds hslot
          rw [hlength]
          have hrun := ops_of_nodes hp "" hinside hholds
            (by simpa [hleft.length] using hroomBody) hfirst hbody
          refine hrun.of_empty.weaken (fun _ _ he => he) (fun _ _ hE => hE) ?_
          rintro left' _ e e' ⟨hkeeps, htally⟩
          refine ⟨⟨Frame.holds_of_inLoop hkeeps.holds, ?_⟩, htally⟩
          rw [hkeeps.length, Frame.length_store, hleft.length]
  | .inclusion found filled => by
      have htarget := List.getElem?_of_prefix_drop hsites
      simp only [Statement.op, Op.run, Node.interpret, found, Option.getD_some]
      have hargs (L' : ω → ω' → Prop) := Argument.relates_interpretFrom (R := Tally form L' [])
        interp.model Tally.lockstep hframe (hscope ▸ filled)
      exact (hp.inclusion htarget found hargs).then_pure fun _ => .refl hframe

theorem ops_of_nodes (hp : Parallel interp opener mode form L targets) {scope : Scope}
    {nodes : List Node} {ss : List Statement} {env : Environment ρ} {frame : Frame ρ}
    {site n : Nat} (pending : String) (hscope : env.scope = scope) (hframe : frame.Holds env)
    (hroom : Statement.slotsOfAll n ss ≤ frame.length)
    (hsites : Node.targetsOfAll nodes <+: targets.drop site) :
    Node.ElaborateAll interp.context scope nodes ss →
      Relates (Tally form L [.literal (.ofString mode pending)]) (Tally form L [])
        (With (fun frame' (_ : Unit) => frame.Keeps env frame') (Tally form L []))
        (Op.runAll interp.model opener frame (Statement.ops mode site pending ss).1)
        (Node.interpretAll interp env site nodes)
  | .nil => by
      refine (Tally.textOps interp.model opener pending frame).weaken (fun _ _ he => he)
        (fun _ _ hE => hE) ?_
      rintro _ _ e e' ⟨rfl, he⟩
      exact ⟨.refl hframe, he⟩
  | @Node.ElaborateAll.cons _ _ node s nodes ss first rest => by
      rw [Node.targetsOfAll] at hsites
      obtain ⟨hfirst, hlast⟩ := List.prefix_drop_append hsites
      have hroomRest : Statement.slotsOfAll (s.slots n) ss ≤ frame.length := hroom
      by_cases htext : ∃ content, s = .text content
      · obtain ⟨content, rfl⟩ := htext
        cases first
        have hrun := ops_of_nodes hp (pending ++ content) hscope hframe hroomRest hlast rest
        exact hrun.emit_right fun e e' he => Tally.ahead hp.formed he
      · rw [Statement.ops_cons fun content h => htext ⟨content, h⟩, Node.interpretAll,
          Statement.site_op mode site first, Op.runAll_append]
        refine (Tally.textOps interp.model opener pending frame).bind_left fun frame' =>
          .of_values ?_
        rintro rfl
        have hroomFirst := Nat.le_trans (Statement.le_slotsOfAll _ ss) hroomRest
        refine Relates.bind (op_of_node hp hscope hframe hroomFirst hfirst first) fun left _ =>
          .of_values fun hleft => ?_
        have hrest := ops_of_nodes hp "" hscope hleft.holds (by rwa [hleft.length])
          hlast rest
        exact hrest.of_empty.weaken (fun _ _ he => he) (fun _ _ hE => hE) fun left' _ e e' h =>
          ⟨hleft.trans h.1, h.2⟩

theorem arms_of_arms (hp : Parallel interp opener mode form L targets) {scope : Scope}
    {arms : List Arm} {branches : List Branch} {env : Environment ρ} {frame : Frame ρ}
    {site n : Nat} (hscope : env.scope = scope) (hframe : frame.Holds env)
    (hroom : Statement.slotsOfBranches n branches ≤ frame.length)
    (hsites : Node.targetsOfArms arms <+: targets.drop site) :
    Arm.ElaborateAll interp.context scope arms branches →
      Relates (Tally form L []) (Tally form L [])
        (With (fun left taken => taken = left.isSome ∧ ∀ frame' ∈ left, frame.Keeps env frame')
          (Tally form L []))
        (Op.runArms interp.model opener frame (Statement.branchOps mode site branches).1)
        (Arm.interpretFirst interp env site arms)
  | .nil => .pure fun e e' he => ⟨⟨rfl, by simp⟩, he⟩
  | @Arm.ElaborateAll.cons _ _ test nodes arms t ss branches helaborates _ hbody hrest => by
      rw [Node.targetsOfArms] at hsites
      obtain ⟨hfirst, hlast⟩ := List.prefix_drop_append hsites
      have hroomBody := Nat.le_trans (Statement.le_slotsOfBranches _ branches) hroom
      simp only [Statement.branchOps, Op.runArms, Arm.interpretFirst,
        Statement.site_ops mode site "" hbody]
      refine (Expr.agrees_interpret Tally.lockstep hframe (hscope ▸ helaborates)).bind_relates
        fun v => (Tally.lockstep.truth _ _).bind_relates fun holds => ?_
      cases holds with
      | true =>
          refine Relates.bind (ops_of_nodes hp "" hscope hframe hroomBody hfirst hbody).of_empty
            fun left _ => .of_values fun hleft => ?_
          refine Relates.pure fun e e' he => ⟨⟨rfl, fun frame' h => ?_⟩, he⟩
          obtain rfl := Option.some.inj h
          exact hleft
      | false => exact arms_of_arms hp hscope hframe hroom hlast hrest

end

end Parallel

end Stencil
