import Stencil.Proofs.Render.Relates

/-!
The slots of a program. Where code reads only slots that a parameter or a loop around it stored
into, what the other slots hold does not matter.
-/

namespace Stencil

open Run

variable {ρ ω : Type}

mutual

-- The slots that code reads.
def Formula.reads : Formula → List Nat
  | .constant _ => []
  | .slot index => [index]
  | .list items => Formula.readsOfAll items
  | .field object _ | .builtin object _ => object.reads
  | .method object _ args => object.reads ++ Formula.readsOfAll args
  | .contains object needle => object.reads ++ needle.reads
  | .not operand | .negate operand => operand.reads
  | .and lhs rhs | .or lhs rhs | .equality _ lhs rhs | .order _ lhs rhs | .arithmetic _ lhs rhs =>
    lhs.reads ++ rhs.reads

def Formula.readsOfAll : List Formula → List Nat
  | [] => []
  | c :: cs => c.reads ++ Formula.readsOfAll cs

end

-- Those that the arguments of an inclusion read.
def Formula.readsOfGiven (args : List (Option Formula)) : List Nat :=
  Formula.readsOfAll (args.filterMap id)

-- The slots that a loop stores into.
def Op.bound (element : Nat) (index : Option Nat) : List Nat := element :: index.toList

mutual

-- All slots that an operation names.
def Op.slots : Op → List Nat
  | .literal _ => []
  | .escaped code | .raw code => code.reads
  | .branch arms otherwise => Op.slotsOfArms arms ++ Op.slotsOfAll otherwise
  | .loop iterable element index body otherwise =>
    iterable.reads ++ Op.bound element index ++ Op.slotsOfAll body ++ Op.slotsOfAll otherwise
  | .inclusion _ _ args => Formula.readsOfGiven args

def Op.slotsOfAll : List Op → List Nat
  | [] => []
  | op :: ops => op.slots ++ Op.slotsOfAll ops

def Op.slotsOfArms : List OpArm → List Nat
  | [] => []
  | .mk test body :: arms => test.reads ++ Op.slotsOfAll body ++ Op.slotsOfArms arms

end

mutual

-- Inside of what stored into the given slots, only these are read, and a loop stores into others.
def Op.SlotSafe (stored : List Nat) : Op → Prop
  | .literal _ => True
  | .escaped code | .raw code => code.reads ⊆ stored
  | .branch arms otherwise => Op.ArmsSlotSafe stored arms ∧ Op.AllSlotSafe stored otherwise
  | .loop iterable element index body otherwise =>
    iterable.reads ⊆ stored ∧ (Op.bound element index ++ stored).Nodup ∧
      Op.AllSlotSafe (Op.bound element index ++ stored) body ∧ Op.AllSlotSafe stored otherwise
  | .inclusion _ _ args => Formula.readsOfGiven args ⊆ stored

def Op.AllSlotSafe (stored : List Nat) : List Op → Prop
  | [] => True
  | op :: ops => op.SlotSafe stored ∧ Op.AllSlotSafe stored ops

def Op.ArmsSlotSafe (stored : List Nat) : List OpArm → Prop
  | [] => True
  | .mk test body :: arms =>
    test.reads ⊆ stored ∧ Op.AllSlotSafe stored body ∧ Op.ArmsSlotSafe stored arms

end

def Program.slots (p : Program) : List Nat := Op.slotsOfAll p.body

-- The parameters are stored into the first slots.
def Program.SlotSafe (p : Program) : Prop := Op.AllSlotSafe (List.range p.schema.size) p.body

-- Frames that are alike in some slots.
structure Frame.SameOn (slots : List Nat) (frame frame' : Frame ρ) : Prop where
  length : frame.length = frame'.length
  slot : ∀ i ∈ slots, frame[i]? = frame'[i]?

namespace Frame.SameOn

variable {slots slots' : List Nat} {frame frame' frame'' : Frame ρ}

theorem refl (slots : List Nat) (frame : Frame ρ) : SameOn slots frame frame :=
  ⟨rfl, fun _ _ => rfl⟩

theorem symm (h : SameOn slots frame frame') : SameOn slots frame' frame :=
  ⟨h.length.symm, fun i hi => (h.slot i hi).symm⟩

theorem trans (h : SameOn slots frame frame') (h' : SameOn slots frame' frame'') :
    SameOn slots frame frame'' :=
  ⟨h.length.trans h'.length, fun i hi => (h.slot i hi).trans (h'.slot i hi)⟩

theorem mono (h : SameOn slots frame frame') (hsub : slots' ⊆ slots) :
    SameOn slots' frame frame' :=
  ⟨h.length, fun i hi => h.slot i (hsub hi)⟩

theorem set (h : SameOn slots frame frame') (j : Nat) (v : Value ρ) :
    SameOn (j :: slots) (frame.set j v) (frame'.set j v) := by
  refine ⟨by simp [h.length], fun i hi => ?_⟩
  rw [List.getElem?_set, List.getElem?_set, h.length]
  by_cases hji : j = i
  · simp only [if_pos hji]
  · simp only [if_neg hji]
    obtain rfl | hi := List.mem_cons.mp hi
    · exact absurd rfl hji
    · exact h.slot i hi

-- What a loop stores makes its slots alike.
theorem store (h : SameOn slots frame frame') (element : Nat) (index : Option Nat)
    (item : Value ρ) (i : Nat) :
    SameOn (Op.bound element index ++ slots) (frame.store element index item i)
      (frame'.store element index item i) := by
  have helement := h.set element item
  cases index with
  | none => exact helement
  | some index =>
    have hboth := helement.set index (.int (.ofNat i))
    exact hboth.mono fun j hj => by simpa [Op.bound, or_left_comm] using hj

-- Slots that a loop does not store into stay as they are.
theorem of_store {element : Nat} {index : Option Nat} (item : Value ρ) (i : Nat)
    (hother : ∀ j ∈ Op.bound element index, j ∉ slots) :
    SameOn slots frame (frame.store element index item i) := by
  have hset (frame : Frame ρ) (j : Nat) (v : Value ρ) (hj : j ∉ slots) :
      SameOn slots frame (frame.set j v) := by
    refine ⟨by simp, fun k hk => ?_⟩
    have hne : j ≠ k := by
      rintro rfl
      exact hj hk
    rw [List.getElem?_set_ne hne]
  have helement := hset frame element item (hother element (by simp [Op.bound]))
  cases index with
  | none => exact helement
  | some index =>
    exact helement.trans (hset _ index (.int (.ofNat i)) (hother index (by simp [Op.bound])))

end Frame.SameOn

section Evaluation

variable [DecidableEq ρ] {model : Model ρ} {frame frame' : Frame ρ}

mutual

-- Code depends only on the slots that it reads.
theorem Formula.eval_congr : ∀ code : Formula, (∀ i ∈ code.reads, frame[i]? = frame'[i]?) →
    code.eval model frame = code.eval model frame'
  | .constant _, _ => rfl
  | .slot index, h => by rw [Formula.eval, Formula.eval, h index (by simp [Formula.reads])]
  | .list items, h => by
    rw [Formula.eval, Formula.eval, Formula.evalAll_congr items h]
  | .field object _, h => by
    rw [Formula.eval, Formula.eval, Formula.eval_congr object h]
  | .builtin object _, h => by
    rw [Formula.eval, Formula.eval, Formula.eval_congr object h]
  | .method object _ args, h => by
    obtain ⟨hobject, hargs⟩ := List.forall_mem_append.mp h
    rw [Formula.eval, Formula.eval, Formula.eval_congr object hobject,
      Formula.evalAll_congr args hargs]
  | .contains object needle, h => by
    obtain ⟨hobject, hneedle⟩ := List.forall_mem_append.mp h
    rw [Formula.eval, Formula.eval, Formula.eval_congr object hobject,
      Formula.eval_congr needle hneedle]
  | .not operand, h => by
    rw [Formula.eval, Formula.eval, Formula.eval_congr operand h]
  | .negate operand, h => by
    rw [Formula.eval, Formula.eval, Formula.eval_congr operand h]
  | .and lhs rhs, h => by
    obtain ⟨hlhs, hrhs⟩ := List.forall_mem_append.mp h
    rw [Formula.eval, Formula.eval, Formula.eval_congr lhs hlhs, Formula.eval_congr rhs hrhs]
  | .or lhs rhs, h => by
    obtain ⟨hlhs, hrhs⟩ := List.forall_mem_append.mp h
    rw [Formula.eval, Formula.eval, Formula.eval_congr lhs hlhs, Formula.eval_congr rhs hrhs]
  | .equality _ lhs rhs, h => by
    obtain ⟨hlhs, hrhs⟩ := List.forall_mem_append.mp h
    rw [Formula.eval, Formula.eval, Formula.eval_congr lhs hlhs, Formula.eval_congr rhs hrhs]
  | .order _ lhs rhs, h => by
    obtain ⟨hlhs, hrhs⟩ := List.forall_mem_append.mp h
    rw [Formula.eval, Formula.eval, Formula.eval_congr lhs hlhs, Formula.eval_congr rhs hrhs]
  | .arithmetic _ lhs rhs, h => by
    obtain ⟨hlhs, hrhs⟩ := List.forall_mem_append.mp h
    rw [Formula.eval, Formula.eval, Formula.eval_congr lhs hlhs, Formula.eval_congr rhs hrhs]

theorem Formula.evalAll_congr : ∀ codes : List Formula,
    (∀ i ∈ Formula.readsOfAll codes, frame[i]? = frame'[i]?) →
    Formula.evalAll model frame codes = Formula.evalAll model frame' codes
  | [], _ => rfl
  | code :: codes, h => by
    obtain ⟨hcode, hcodes⟩ := List.forall_mem_append.mp h
    rw [Formula.evalAll, Formula.evalAll, Formula.eval_congr code hcode,
      Formula.evalAll_congr codes hcodes]

end

theorem Formula.evalGiven_congr : ∀ args : List (Option Formula),
    (∀ i ∈ Formula.readsOfGiven args, frame[i]? = frame'[i]?) →
    Formula.evalGiven model frame args = Formula.evalGiven model frame' args
  | [], _ => rfl
  | none :: args, h => by
    rw [Formula.evalGiven, Formula.evalGiven, Formula.evalGiven_congr args h]
  | some code :: args, h => by
    obtain ⟨hcode, hargs⟩ := List.forall_mem_append.mp h
    rw [Formula.evalGiven, Formula.evalGiven, Formula.eval_congr code hcode,
      Formula.evalGiven_congr args hargs]

end Evaluation

theorem Run.agrees_self {α : Type} (x : Run ρ ω α) : Agrees Eq x x := by
  intro e e' he
  obtain rfl := he
  generalize exec x e = r
  rcases r with ⟨_ | _, _⟩
  · exact .error rfl
  · exact .ok ⟨rfl, rfl⟩

theorem Run.eq_of_agrees {α : Type} {x y : Run ρ ω α} (h : Agrees Eq x y) : x = y := by
  refine ext_exec fun e => ?_
  have hends := h e e rfl
  generalize exec x e = r, exec y e = r' at hends
  cases hends with
  | ok related =>
    obtain ⟨rfl, rfl⟩ := related
    rfl
  | error related =>
    obtain rfl := related
    rfl

-- Frames that two runs leave, when both keep what stands in the given slots of a frame.
def Frame.Keep (slots : List Nat) (frame g g' : Frame ρ) : Prop :=
  Frame.SameOn slots frame g ∧ Frame.SameOn slots frame g'

section Running

variable [DecidableEq ρ] {model : Model ρ} {opener : Opener ρ ω} {frame frame' : Frame ρ}
  {stored : List Nat}

omit [DecidableEq ρ] in
-- One way through the body of a loop, with what was stored around the loop.
theorem Frame.keep_of_inside {element : Nat} {index : Option Nat} {item : Value ρ} {i : Nat}
    {g g' k k' : Frame ρ} (hfresh : (Op.bound element index ++ stored).Nodup)
    (hkeep : Frame.Keep stored frame g g')
    (hinside : Frame.Keep (Op.bound element index ++ stored) (g.store element index item i) k k') :
    Frame.Keep stored frame k k' := by
  have hother : ∀ j ∈ Op.bound element index, j ∉ stored := fun j hj hstored =>
    (List.nodup_append.mp hfresh).2.2 j hj j hstored rfl
  have hbefore : Frame.SameOn stored frame (g.store element index item i) :=
    hkeep.1.trans (.of_store item i hother)
  have hsub : stored ⊆ Op.bound element index ++ stored := List.subset_append_right _ _
  exact ⟨hbefore.trans (hinside.1.mono hsub), hbefore.trans (hinside.2.mono hsub)⟩

mutual

-- From frames that are alike where something was stored, an operation does the same, and it leaves
-- these slots as they are.
theorem Op.run_sameOn : ∀ (op : Op) {stored : List Nat} {frame frame' : Frame ρ},
    op.SlotSafe stored → Frame.SameOn stored frame frame' →
    Relates Eq Eq (With (Frame.Keep stored frame) Eq) (op.run model opener frame)
      (op.run model opener frame')
  | .literal t, stored, frame, frame', _, hframes =>
    (agrees_self (Run.emit (.literal t))).bind_relates fun _ =>
      .pure fun _ _ he => ⟨⟨.refl stored frame, hframes⟩, he⟩
  | .escaped code, stored, frame, frame', hsafe, hframes => by
    have heval : code.eval model frame = code.eval model frame' :=
      code.eval_congr fun i hi => hframes.slot i (hsafe hi)
    rw [Op.run, Op.run, ← heval]
    refine (agrees_self _).bind_relates fun v => (agrees_self _).bind_relates fun s => ?_
    exact (agrees_self _).bind_relates fun _ =>
      .pure fun _ _ he => ⟨⟨.refl stored frame, hframes⟩, he⟩
  | .raw code, stored, frame, frame', hsafe, hframes => by
    have heval : code.eval model frame = code.eval model frame' :=
      code.eval_congr fun i hi => hframes.slot i (hsafe hi)
    rw [Op.run, Op.run, ← heval]
    refine (agrees_self _).bind_relates fun v => (agrees_self _).bind_relates fun s => ?_
    exact (agrees_self _).bind_relates fun _ =>
      .pure fun _ _ he => ⟨⟨.refl stored frame, hframes⟩, he⟩
  | .branch arms otherwise, stored, frame, frame', hsafe, hframes => by
    rw [Op.run, Op.run]
    refine Relates.bind (Op.runArms_sameOn arms hsafe.1 hframes) fun left left' =>
      .of_values fun hleft => ?_
    cases hleft with
    | some hkeep => exact .pure fun _ _ he => ⟨hkeep, he⟩
    | none => exact Op.runAll_sameOn otherwise hsafe.2 hframes
  | .loop iterable element index body otherwise, stored, frame, frame', hsafe, hframes => by
    obtain ⟨hreads, hfresh, hbody, hotherwise⟩ := hsafe
    have heval : iterable.eval model frame = iterable.eval model frame' :=
      iterable.eval_congr fun i hi => hframes.slot i (hreads hi)
    rw [Op.run, Op.run, ← heval]
    refine (agrees_self _).bind_relates fun v => ?_
    cases v with
    | list items =>
      cases items with
      | nil => exact Op.runAll_sameOn otherwise hotherwise hframes
      | cons head tail =>
        refine Relates.forEach (fun g g' i item _ hkeep => ?_) ⟨.refl stored frame, hframes⟩
        have hinside := (hkeep.1.symm.trans hkeep.2).store element index item i
        refine (Op.runAll_sameOn body hbody hinside).weaken (fun _ _ he => he) (fun _ _ he => he)
          fun k k' _ _ hk => ?_
        exact ⟨Frame.keep_of_inside hfresh hkeep hk.1, hk.2⟩
    | _ => exact .throw fun _ _ he => he
  | .inclusion site target args, stored, frame, frame', hsafe, hframes => by
    have heval : Formula.evalGiven model frame args = Formula.evalGiven model frame' args :=
      Formula.evalGiven_congr args fun i hi => hframes.slot i (hsafe hi)
    rw [Op.run, Op.run, ← heval]
    exact (agrees_self _).bind_relates fun _ =>
      .pure fun _ _ he => ⟨⟨.refl stored frame, hframes⟩, he⟩

theorem Op.runAll_sameOn : ∀ (ops : List Op) {stored : List Nat} {frame frame' : Frame ρ},
    Op.AllSlotSafe stored ops → Frame.SameOn stored frame frame' →
    Relates Eq Eq (With (Frame.Keep stored frame) Eq) (Op.runAll model opener frame ops)
      (Op.runAll model opener frame' ops)
  | [], stored, frame, frame', _, hframes => .pure fun _ _ he => ⟨⟨.refl stored frame, hframes⟩, he⟩
  | op :: ops, stored, frame, frame', hsafe, hframes => by
    rw [Op.runAll, Op.runAll]
    refine Relates.bind (Op.run_sameOn op hsafe.1 hframes) fun g g' => .of_values fun hkeep => ?_
    refine (Op.runAll_sameOn ops hsafe.2 (hkeep.1.symm.trans hkeep.2)).weaken (fun _ _ he => he)
      (fun _ _ he => he) fun k k' _ _ hk => ?_
    exact ⟨⟨hkeep.1.trans hk.1.1, hkeep.1.trans hk.1.2⟩, hk.2⟩

theorem Op.runArms_sameOn : ∀ (arms : List OpArm) {stored : List Nat} {frame frame' : Frame ρ},
    Op.ArmsSlotSafe stored arms → Frame.SameOn stored frame frame' →
    Relates Eq Eq (With (Option.Rel (Frame.Keep stored frame)) Eq)
      (Op.runArms model opener frame arms) (Op.runArms model opener frame' arms)
  | [], _, _, _, _, _ => .pure fun _ _ he => ⟨.none, he⟩
  | .mk test body :: arms, stored, frame, frame', hsafe, hframes => by
    obtain ⟨hreads, hbody, harms⟩ := hsafe
    have heval : test.eval model frame = test.eval model frame' :=
      test.eval_congr fun i hi => hframes.slot i (hreads hi)
    rw [Op.runArms, Op.runArms, ← heval]
    refine (agrees_self _).bind_relates fun v => (agrees_self _).bind_relates fun holds => ?_
    cases holds with
    | true =>
      refine Relates.bind (Op.runAll_sameOn body hbody hframes) fun g g' =>
        .of_values fun hkeep => ?_
      exact .pure fun _ _ he => ⟨.some hkeep, he⟩
    | false => exact Op.runArms_sameOn arms harms hframes

end

end Running

-- Frames of the right size that hold the values of the parameters of a program.
structure Frame.HoldsParams (p : Program) (values : List (Value ρ)) (frame : Frame ρ) : Prop where
  length : frame.length = p.frameSize
  param : ∀ i < p.schema.size, frame[i]? = values[i]?

-- Programs whose slots are all in the frame, and that read only what was stored before.
structure Program.FrameSafe (p : Program) : Prop where
  slots_lt : ∀ i ∈ p.slots, i < p.frameSize
  params_le : p.schema.size ≤ p.frameSize
  slotSafe : p.SlotSafe

namespace Program

variable {p : Program} {values : List (Value ρ)} {frame frame' : Frame ρ}

theorem sameOn_of_holds (h : Frame.HoldsParams p values frame)
    (h' : Frame.HoldsParams p values frame') :
    Frame.SameOn (List.range p.schema.size) frame frame' where
  length := h.length.trans h'.length.symm
  slot i hi := (h.param i (List.mem_range.mp hi)).trans (h'.param i (List.mem_range.mp hi)).symm

-- Filling up a frame makes one.
theorem holds_frame (hsize : p.schema.size ≤ p.frameSize)
    (hvalues : values.length = p.schema.size) :
    Frame.HoldsParams p values (p.frame values) := by
  refine ⟨?_, fun i hi => ?_⟩
  · simp only [Program.frame, List.length_append, List.length_replicate]
    omega
  · rw [Program.frame, List.getElem?_append_left (by omega)]

variable [DecidableEq ρ] {model : Model ρ} {opener : Opener ρ ω}

-- What a frame is filled up with makes no difference.
theorem FrameSafe.run_eq (h : p.FrameSafe) (hvalues : values.length = p.schema.size)
    (hframe : Frame.HoldsParams p values frame) :
    (do let _ ← Op.runAll model opener frame p.body) = p.run model opener values := by
  have hframes := sameOn_of_holds hframe (holds_frame h.params_le hvalues)
  refine eq_of_agrees ?_
  exact Relates.bind (Op.runAll_sameOn p.body h.slotSafe hframes) fun _ _ =>
    .pure fun _ _ hends => ⟨rfl, hends.2⟩

-- The parameters stay in their slots to the end.
theorem FrameSafe.holds_of_run (h : p.FrameSafe) (hframe : Frame.HoldsParams p values frame)
    {e e' : Effects ρ ω} {g : Frame ρ}
    (hrun : exec (Op.runAll model opener frame p.body) e = (.ok g, e')) :
    Frame.HoldsParams p values g := by
  have hkeeps : Relates Eq Eq (With (Frame.Keep (List.range p.schema.size) frame) Eq)
      (Op.runAll model opener frame p.body) (Op.runAll model opener frame p.body) :=
    Op.runAll_sameOn p.body h.slotSafe (.refl _ frame)
  have hends := hkeeps e e rfl
  rw [hrun] at hends
  cases hends with
  | ok hkeep =>
    have hsame := hkeep.1.1
    refine ⟨hsame.length.symm.trans hframe.length, fun i hi => ?_⟩
    exact (hsame.slot i (List.mem_range.mpr hi)).symm.trans (hframe.param i hi)

end Program

end Stencil
