import Stencil.Proofs.Number.Words
import Stencil.Proofs.Soundness.Operations

/-!
Integer arithmetic. It is exact, or refused at the first operation that has no word for its result.
One operation is refused that has such a word: the remainder of the least word by `-1`, whose
quotient is no word.
-/

namespace Stencil

-- Arithmetic on all integers. A quotient is cut toward zero, and a remainder has the sign of the
-- dividend.
def ArithmeticOp.exact : ArithmeticOp → Int → Int → Int
  | add, a, b => a + b
  | subtract, a, b => a - b
  | multiply, a, b => a * b
  | divide, a, b => a.tdiv b
  | remainder, a, b => a.tmod b

-- What is calculated from words.
inductive Calculation where
  | value (n : Int64)
  | negate (operand : Calculation)
  | combine (op : ArithmeticOp) (lhs rhs : Calculation)

namespace Calculation

-- The integer that is calculated, whether all on the way are words or not.
def exact : Calculation → Int
  | value n => n.toInt
  | negate operand => -operand.exact
  | combine op lhs rhs => op.exact lhs.exact rhs.exact

-- One operation, on exact operands.
inductive Step where
  | negate (a : Int)
  | combine (op : ArithmeticOp) (a b : Int)

-- The operations in the order in which they are done: operands first, the left one before the
-- right.
def steps : Calculation → List Step
  | value _ => []
  | negate operand => operand.steps ++ [.negate operand.exact]
  | combine op lhs rhs => lhs.steps ++ rhs.steps ++ [.combine op lhs.exact rhs.exact]

namespace Step

def exact : Step → Int
  | negate a => -a
  | combine op a b => op.exact a b

-- The operator, as errors name it.
def symbol : Step → String
  | negate _ => "-"
  | combine op _ _ => op.symbol

def DividesByZero : Step → Prop
  | combine .divide _ b | combine .remainder _ b => b = 0
  | _ => False

-- The result exists and is a word.
def Fits (s : Step) : Prop := ¬s.DividesByZero ∧ Number.IsWord s.exact

-- The remainder of the least word by `-1`. It is zero.
def leastByMinusOne : Step := .combine .remainder Int64.minValue.toInt (-1)

-- The error that an operation is refused with.
inductive Refused : Step → RenderError → Prop
  | division {s : Step} (zero : s.DividesByZero) : Refused s .divisionByZero
  | overflow {s : Step} (nonzero : ¬s.DividesByZero) (outside : ¬Number.IsWord s.exact) :
    Refused s (.overflow s.symbol)
  | quotient : Refused leastByMinusOne (.overflow "%")

-- What is refused is what does not fit, and the one operation besides.
def Possible (s : Step) : Prop := s.Fits ∧ s ≠ leastByMinusOne

-- An operation has a result, or it is refused.
inductive Gives (s : Step) : Except RenderError Int64 → Prop
  | result {w : Int64} (possible : s.Possible) (exact : w.toInt = s.exact) : Gives s (.ok w)
  | refusal {err : RenderError} (refused : s.Refused err) : Gives s (.error err)

-- The two ways in which an operation ends that has no quotient to care for.
theorem gives_exactly {op : ArithmeticOp} {a b : Int} (hzero : ¬(combine op a b).DividesByZero)
    (hpossible : combine op a b ≠ leastByMinusOne) :
    (combine op a b).Gives (op.exactly (op.exact a b)) := by
  unfold ArithmeticOp.exactly
  cases hw : Number.word? (op.exact a b) with
  | none => exact .refusal (.overflow hzero (Number.word?_eq_none_iff.mp hw))
  | some w =>
      have heq : w.toInt = op.exact a b := Number.toInt_of_word? hw
      have hword : Number.IsWord (op.exact a b) := heq ▸ Number.isWord_toInt w
      exact .result ⟨⟨hzero, hword⟩, hpossible⟩ heq

theorem gives_onInts (op : ArithmeticOp) (m n : Int64) :
    (combine op m.toInt n.toInt).Gives (op.onInts m n) := by
  have hzero : n = 0 ↔ n.toInt = 0 := by rw [← Int64.toInt_inj, Int64.toInt_zero]
  cases op with
  | add => exact gives_exactly (by simp [DividesByZero]) (by simp [leastByMinusOne])
  | subtract => exact gives_exactly (by simp [DividesByZero]) (by simp [leastByMinusOne])
  | multiply => exact gives_exactly (by simp [DividesByZero]) (by simp [leastByMinusOne])
  | divide =>
      by_cases hn : n = 0
      · rw [show ArithmeticOp.onInts .divide m n = .error .divisionByZero from if_pos hn]
        exact .refusal (.division (hzero.mp hn))
      · rw [show ArithmeticOp.onInts .divide m n =
          ArithmeticOp.exactly .divide (m.toInt.tdiv n.toInt) from if_neg hn]
        exact gives_exactly (fun h => hn (hzero.mpr h)) (by simp [leastByMinusOne])
  | remainder =>
      by_cases hn : n = 0
      · rw [show ArithmeticOp.onInts .remainder m n = .error .divisionByZero from if_pos hn]
        exact .refusal (.division (hzero.mp hn))
      · have heq : ArithmeticOp.onInts .remainder m n = (do
            let _ ← ArithmeticOp.exactly .remainder (m.toInt.tdiv n.toInt)
            ArithmeticOp.exactly .remainder (m.toInt.tmod n.toInt)) := if_neg hn
        have hn' : n.toInt ≠ 0 := fun h => hn (hzero.mpr h)
        by_cases hexception : m.toInt = Int64.minValue.toInt ∧ n.toInt = -1
        · obtain ⟨hm, hn⟩ := hexception
          rw [heq, hm, hn]
          exact .refusal .quotient
        · have hquotient : Number.IsWord (m.toInt.tdiv n.toInt) :=
            Number.isWord_tdiv (Number.isWord_toInt m) hn' hexception
          have hexactly : ArithmeticOp.exactly .remainder (m.toInt.tdiv n.toInt) =
              .ok (Int64.ofInt (m.toInt.tdiv n.toInt)) := by
            simp only [ArithmeticOp.exactly, Number.word?, if_pos hquotient]
          rw [heq, hexactly]
          refine gives_exactly hn' fun hleast => hexception ?_
          simpa [leastByMinusOne] using hleast

theorem gives_negate {ρ : Type} (n : Int64) :
    ∃ r, (negate n.toInt).Gives r ∧ (Value.int n : Value ρ).negate = r.map .int := by
  simp only [Value.negate]
  cases hw : Number.word? (-n.toInt) with
  | none => exact ⟨_, .refusal (.overflow id (Number.word?_eq_none_iff.mp hw)), rfl⟩
  | some w =>
      have heq : w.toInt = -n.toInt := Number.toInt_of_word? hw
      have hword : Number.IsWord (-n.toInt) := heq ▸ Number.isWord_toInt w
      exact ⟨_, .result ⟨⟨id, hword⟩, Step.noConfusion⟩ heq, rfl⟩

theorem refused_iff (s : Step) : (∃ err, s.Refused err) ↔ ¬s.Possible := by
  constructor
  · rintro ⟨err, hrefused⟩ ⟨⟨hzero, hword⟩, hpossible⟩
    cases hrefused with
    | division zero => exact hzero zero
    | overflow _ outside => exact outside hword
    | quotient => exact hpossible rfl
  · intro hnot
    by_cases hzero : s.DividesByZero
    · exact ⟨_, .division hzero⟩
    · by_cases hword : Number.IsWord s.exact
      · obtain rfl : s = leastByMinusOne := by
          by_contra hpossible
          exact hnot ⟨⟨hzero, hword⟩, hpossible⟩
        exact ⟨_, .quotient⟩
      · exact ⟨_, .overflow hzero hword⟩

end Step

-- A calculation comes to the exact integer, or to the error of the first operation refused.
inductive Comes (c : Calculation) : Except RenderError Int64 → Prop
  | exact {w : Int64} (all : ∀ s ∈ c.steps, s.Possible)
    (exact : w.toInt = c.exact) : Comes c (.ok w)
  | refused {before after : List Step} {s : Step} {err : RenderError}
    (steps : c.steps = before ++ s :: after)
    (all : ∀ r ∈ before, r.Possible) (refused : s.Refused err) :
    Comes c (.error err)

namespace Comes

variable {c part : Calculation} {s : Step} {before behind : List Step}

-- The last operation decides where the others have results.
theorem of_last {r : Except RenderError Int64} (hsteps : c.steps = before ++ [s])
    (hexact : c.exact = s.exact) (hall : ∀ r ∈ before, r.Possible) (h : s.Gives r) : c.Comes r := by
  cases h with
  | result possible exact =>
      refine .exact (fun t ht => ?_) (exact.trans hexact.symm)
      rw [hsteps] at ht
      obtain ht | ht := List.mem_append.mp ht
      · exact hall t ht
      · exact List.mem_singleton.mp ht ▸ possible
  | refusal refused => exact .refused hsteps hall refused

-- An error of a part ends the whole.
theorem of_part {err : RenderError} (hsteps : c.steps = before ++ part.steps ++ behind)
    (hall : ∀ r ∈ before, r.Possible) (h : part.Comes (.error err)) : c.Comes (.error err) := by
  cases h with
  | @refused inner rest s _ steps all refused =>
      have hwhole : c.steps = (before ++ inner) ++ s :: (rest ++ behind) := by
        rw [hsteps, steps]
        simp
      refine .refused hwhole (fun r hr => ?_) refused
      obtain hr | hr := List.mem_append.mp hr
      · exact hall r hr
      · exact all r hr

theorem possible {w : Int64} (h : c.Comes (.ok w)) : ∀ s ∈ c.steps, s.Possible := by
  cases h with
  | exact all _ => exact all

theorem toInt_eq {w : Int64} (h : c.Comes (.ok w)) : w.toInt = c.exact := by
  cases h with
  | exact _ exact => exact exact

end Comes

end Calculation

variable {ρ : Type} [DecidableEq ρ] {model : Model ρ} {frame : Frame ρ}

-- A formula calculates: what it does arithmetic on is integers. Where these come from is left open.
inductive Formula.Calculates (model : Model ρ) (frame : Frame ρ) : Formula → Calculation → Prop
  | value {f : Formula} {n : Int64} (gives : f.eval model frame = pure (.int n)) :
    Calculates model frame f (.value n)
  | negate {f : Formula} {c : Calculation} (operand : Calculates model frame f c) :
    Calculates model frame (.negate f) (.negate c)
  | combine {f g : Formula} {c d : Calculation} (op : ArithmeticOp)
    (lhs : Calculates model frame f c) (rhs : Calculates model frame g d) :
    Calculates model frame (.arithmetic op f g) (.combine op c d)

omit [DecidableEq ρ] in
theorem Eval.given_bind {α β : Type} (r : Except RenderError α) (f : α → Eval ρ β) :
    Eval.given r >>= f = match r with
      | .ok a => f a
      | .error err => Eval.given (.error err) := by
  cases r <;> rfl

namespace Formula.Calculates

-- The induction is on the formula. An operation is reached where its operands have results, and
-- these are words.
theorem comes {f : Formula} {c : Calculation} (h : f.Calculates model frame c) :
    ∃ r, c.Comes r ∧ f.eval model frame = Eval.given (r.map .int) := by
  induction h with
  | @value f n gives =>
      have hcomes : (Calculation.value n).Comes (.ok n) := .exact (fun _ hs => absurd hs List.not_mem_nil) rfl
      exact ⟨.ok n, hcomes, gives⟩
  | @negate f c operand ih =>
      obtain ⟨r, hr, heval⟩ := ih
      rw [Formula.eval, heval]
      cases r with
      | error err =>
          have hsteps : (Calculation.negate c).steps = [] ++ c.steps ++ [.negate c.exact] := rfl
          refine ⟨.error err, .of_part hsteps (fun _ hs => absurd hs List.not_mem_nil) hr, ?_⟩
          exact Eval.given_bind _ _
      | ok w =>
          obtain ⟨r, hgives, hnegate⟩ := Calculation.Step.gives_negate (ρ := ρ) w
          rw [hr.toInt_eq] at hgives
          refine ⟨r, .of_last rfl rfl hr.possible hgives, ?_⟩
          rw [← hnegate]
          exact Eval.given_bind _ _
  | @combine f g c d op lhs rhs ihl ihr =>
      obtain ⟨r, hr, heval⟩ := ihl
      obtain ⟨r', hr', heval'⟩ := ihr
      rw [Formula.eval, heval, heval']
      cases r with
      | error err =>
          have hsteps : (Calculation.combine op c d).steps =
              [] ++ c.steps ++ (d.steps ++ [.combine op c.exact d.exact]) := by
            simp only [Calculation.steps, List.nil_append, List.append_assoc]
          exact ⟨.error err, .of_part hsteps (fun _ hs => absurd hs List.not_mem_nil) hr, Eval.given_bind _ _⟩
      | ok m =>
          cases r' with
          | error err =>
              exact ⟨.error err, .of_part rfl hr.possible hr', rfl⟩
          | ok n =>
              have hgives := Calculation.Step.gives_onInts op m n
              rw [hr.toInt_eq, hr'.toInt_eq] at hgives
              refine ⟨op.onInts m n, .of_last rfl rfl ?_ hgives, ?_⟩
              · intro s hs
                obtain hs | hs := List.mem_append.mp hs
                · exact hr.possible s hs
                · exact hr'.possible s hs
              · have happly : op.apply (.int m : Value ρ) (.int n) = (op.onInts m n).map .int :=
                  op.apply_of_number (by simp)
                rw [← happly]
                rfl

end Formula.Calculates

-- Integer arithmetic is exact or refused. Where all operations of a formula are possible, it gives
-- the exact integer. Otherwise it fails at the first one that is not, with the error of that one.
-- Any operation is possible that has a word for its result, other than the remainder of the least
-- word by `-1`.
theorem Formula.Calculates.exact_or_refused {f : Formula} {c : Calculation}
    (h : f.Calculates model frame c) :
    ((∀ s ∈ c.steps, s.Possible) → ∃ w, f.eval model frame = pure (.int w) ∧ w.toInt = c.exact) ∧
    ((∃ s ∈ c.steps, ¬s.Possible) → ∃ before s after err, c.steps = before ++ s :: after ∧
      (∀ r ∈ before, r.Possible) ∧ s.Refused err ∧ f.eval model frame = throw err) := by
  obtain ⟨r, hr, heval⟩ := h.comes
  cases hr with
  | @exact w all exact =>
      refine ⟨fun _ => ⟨w, heval, exact⟩, ?_⟩
      rintro ⟨s, hs, hnot⟩
      exact absurd (all s hs) hnot
  | @refused before after s err steps all refused =>
      have hs : ¬s.Possible := s.refused_iff.mp ⟨err, refused⟩
      refine ⟨fun hall => absurd (hall s (by simp [steps])) hs, fun _ => ?_⟩
      exact ⟨before, s, after, err, steps, all, refused, heval⟩

-- `-(7 - 9) % 0 * 2`, with the `7` in a slot: the remainder is the third of four operations.
theorem Formula.Calculates.refused_third :
    let model : Model Nat := .ofFields fun _ _ => none
    let int (n : Int64) : Formula := .constant (.literal (.int n))
    let f : Formula := .arithmetic .multiply
      (.arithmetic .remainder (.negate (.arithmetic .subtract (.slot 0) (int 9))) (int 0)) (int 2)
    let c : Calculation :=
      .combine .multiply
        (.combine .remainder (.negate (.combine .subtract (.value 7) (.value 9))) (.value 0))
        (.value 2)
    f.Calculates model [.int 7] c ∧
      (∃ s ∈ c.steps, ¬s.Possible) ∧
      ∃ before s after err, c.steps = before ++ s :: after ∧ (∀ r ∈ before, r.Possible) ∧
        s.Refused err ∧ f.eval model [.int 7] = throw err := by
  intro model int f c
  have hint (n : Int64) : (int n).Calculates model [.int 7] (.value n) := .value rfl
  have hslot : (Formula.slot 0).Calculates model [.int 7] (.value 7) := .value rfl
  have hf : f.Calculates model [.int 7] c :=
    .combine _ (.combine _ (.negate (.combine _ hslot (hint 9))) (hint 0)) (hint 2)
  have hzero : ∃ s ∈ c.steps, ¬s.Possible := by
    refine ⟨.combine .remainder 2 0, ?_, fun hpossible => hpossible.1.1 rfl⟩
    exact .tail _ (.tail _ (.head _))
  exact ⟨hf, hzero, hf.exact_or_refused.2 hzero⟩

-- The remainder of the least word by `-1` is zero, and it is refused.
theorem Formula.least_by_minus_one_refused :
    let model : Model Nat := .ofFields fun _ _ => none
    let f : Formula := .arithmetic .remainder (.constant (.literal (.int Int64.minValue)))
      (.constant (.literal (.int (-1))))
    let c : Calculation := .combine .remainder (.value Int64.minValue) (.value (-1))
    f.Calculates model [] c ∧ (∀ s ∈ c.steps, s.Fits) ∧ c.exact = 0 ∧
      f.eval model [] = throw (.overflow "%") := by
  intro model f c
  refine ⟨.combine _ (.value rfl) (.value rfl), ?_, by decide, rfl⟩
  intro s hs
  obtain rfl := List.mem_singleton.mp hs
  exact ⟨by simp [Calculation.Step.DividesByZero, Calculation.exact], by decide⟩

end Stencil
