import Stencil.Proofs.Meaning.Interpreter
import Stencil.Proofs.Soundness.Conformance

/-!
What operations come to on values that fit their types: a value that fits the type of the result, or
an error that the operands excuse.
-/

namespace Stencil

variable {ρ : Type} {α : Type}

-- Errors that an operation on such operands may end with. Types that match only rule them out where
-- no operand is `null`.
inductive RenderError.ExcusedBy (operands : List (Value ρ)) : RenderError → Prop
  | divisionByZero : ExcusedBy operands .divisionByZero
  | overflow (op : String) : ExcusedBy operands (.overflow op)
  | model (message : String) : ExcusedBy operands (.model message)
  | typeMismatch (name expected : String) (found : Kind) (null : .null ∈ operands) :
    ExcusedBy operands (.typeMismatch name expected found)
  | nullDereference (name : String) (null : .null ∈ operands) :
    ExcusedBy operands (.nullDereference name)
  | notIterable (found : Kind) (null : .null ∈ operands) : ExcusedBy operands (.notIterable found)

-- Whom a mismatch names, given the operands: `null`, but the text where `null` was to be added to a
-- text.
def RenderError.Blames (operands : List (Value ρ)) : RenderError → Prop
  | .typeMismatch name _ found =>
    (found = .null ∨ found = .text) ∧
      (found = .text ↔ name = ArithmeticOp.add.symbol ∧ ∃ s, operands = [.text s, .null])
  | _ => True

-- What an operation comes to. `S` is what is known of its value.
inductive Task.Comes (operands : List (Value ρ)) (S : α → Prop) : Except RenderError α → Prop
  | ok {a : α} (holds : S a) : Comes operands S (.ok a)
  | error {err : RenderError} (excused : err.ExcusedBy operands) (blames : err.Blames operands) :
    Comes operands S (.error err)

-- `null` is named where no text has it added.
theorem RenderError.blames_null {operands : List (Value ρ)} {name expected : String}
    (h : ∀ s, name = ArithmeticOp.add.symbol → operands ≠ [.text s, .null]) :
    (typeMismatch name expected .null).Blames operands :=
  ⟨.inl rfl, nofun, fun ⟨hname, s, hs⟩ => absurd hs (h s hname)⟩

variable {isA : String → ρ → Prop} {a b v : Value ρ} {ta tb type : Ty}

-- Arithmetic on numbers, by the type that the expression was given. Where integers stand for
-- floats, it is done with floats, unless all operands are integers.
inductive ArithmeticOp.Computes (op : ArithmeticOp) :
    Ty → Value ρ → Value ρ → Except RenderError (Value ρ) → Prop
  | texts (s t : String) : op = .add → Computes op .text (.text s) (.text t) (.ok (.text (s ++ t)))
  | ints (m n : Int64) : Computes op .int (.int m) (.int n) ((op.onInts m n).map .int)
  | floats {a b : Value ρ} {x y : Float} (lhs : a.float? = some x) (rhs : b.float? = some y)
    (mixed : a.int? = none ∨ b.int? = none) : Computes op .float a b ((op.onFloats x y).map .float)
  | intsForFloats (m n : Int64) : Computes op .float (.int m) (.int n) ((op.onInts m n).map .int)

inductive Value.Negates : Ty → Value ρ → Except RenderError (Value ρ) → Prop
  | int (n : Int64) : Negates .int (.int n) (Value.int n).negate
  | float (x : Float) : Negates .float (.float x) (.ok (.float (-x)))
  | intForFloat (n : Int64) : Negates .float (.int n) (Value.int n).negate

theorem Value.Fits.number (h : v.Fits isA type) (htype : type.isNumeric = true) (hv : v ≠ .null) :
    (∃ n, v = .int n) ∨ ∃ x, v = .float x := by
  cases h with
  | null => exact absurd rfl hv
  | int n => exact .inl ⟨n, rfl⟩
  | intAsFloat n => exact .inl ⟨n, rfl⟩
  | float x => exact .inr ⟨x, rfl⟩
  | _ => cases htype

namespace ArithmeticOp

variable {op : ArithmeticOp}

theorem type?_cases (h : (BinaryOp.arithmetic op).type? ta tb = some type) :
    (op = .add ∧ ta = .text ∧ tb = .text ∧ type = .text) ∨
      (ta = .int ∧ tb = .int ∧ type = .int) ∨
      ((ta = .float ∧ tb = .float ∨ ta = .float ∧ tb = .int ∨ ta = .int ∧ tb = .float) ∧
        type = .float) := by
  have hnumeric : ∀ {a b t : Ty}, Ty.numericType? a b = some t →
      (a = .int ∧ b = .int ∧ t = .int) ∨
        ((a = .float ∧ b = .float ∨ a = .float ∧ b = .int ∨ a = .int ∧ b = .float) ∧
          t = .float) := by
    intro a b t h
    cases a <;> cases b <;> simp_all [Ty.numericType?, Ty.isNumeric]
  by_cases htexts : op = .add ∧ ta = .text ∧ tb = .text
  · obtain ⟨rfl, rfl, rfl⟩ := htexts
    exact .inl ⟨rfl, rfl, rfl, (Option.some.inj h).symm⟩
  · refine .inr (hnumeric ?_)
    cases op <;> cases ta <;> cases tb <;> simp_all [BinaryOp.type?]

-- `null` is no number. A text in front of it is none either, and is found first.
theorem apply_of_null (op : ArithmeticOp) (h : .null ∈ [a, b]) :
    op.apply a b = .error
      (.typeMismatch op.symbol "number" (if a.float?.isSome then .null else a.kind)) := by
  simp only [List.mem_cons, List.not_mem_nil, or_false] at h
  obtain rfl | rfl := h
  · cases op <;> rfl
  · cases a <;> cases op <;> rfl

theorem apply_of_number (op : ArithmeticOp) (h : ∀ s, a ≠ .text s) :
    op.apply a b = op.onNumbers a b := by
  cases op <;> cases a <;> first | rfl | exact absurd rfl (h _)

theorem computes_of_fits (htype : (BinaryOp.arithmetic op).type? ta tb = some type)
    (ha : a.Fits isA ta) (hb : b.Fits isA tb) (hnull : .null ∉ [a, b]) :
    op.Computes type a b (op.apply a b) := by
  simp only [List.mem_cons, List.not_mem_nil, or_false, not_or] at hnull
  obtain ⟨rfl, rfl, rfl, rfl⟩ | ⟨rfl, rfl, rfl⟩ | ⟨hfloats, rfl⟩ := type?_cases htype
  · cases ha with
    | null => exact absurd rfl hnull.1
    | text s =>
        cases hb with
        | null => exact absurd rfl hnull.2
        | text t => exact .texts s t rfl
  · cases ha with
    | null => exact absurd rfl hnull.1
    | int m =>
        cases hb with
        | null => exact absurd rfl hnull.2
        | int n =>
            rw [apply_of_number op (by simp)]
            exact .ints m n
  · have hta : ta.isNumeric = true := by
      obtain ⟨rfl, -⟩ | ⟨rfl, -⟩ | ⟨rfl, -⟩ := hfloats <;> rfl
    have htb : tb.isNumeric = true := by
      obtain ⟨-, rfl⟩ | ⟨-, rfl⟩ | ⟨-, rfl⟩ := hfloats <;> rfl
    obtain ⟨m, rfl⟩ | ⟨x, rfl⟩ := ha.number hta (Ne.symm hnull.1) <;>
      obtain ⟨n, rfl⟩ | ⟨y, rfl⟩ := hb.number htb (Ne.symm hnull.2) <;>
      rw [apply_of_number op (by simp)]
    · exact .intsForFloats m n
    · exact .floats rfl rfl (.inr rfl)
    · exact .floats rfl rfl (.inl rfl)
    · exact .floats rfl rfl (.inl rfl)

-- The result of an operation, if it is a word.
def exactly (op : ArithmeticOp) (k : Int) : Except RenderError Int64 :=
  match Number.word? k with
  | some w => .ok w
  | none => .error (.overflow op.symbol)

theorem onInts_cases (op : ArithmeticOp) (m n : Int64) :
    (∃ k, op.onInts m n = .ok k) ∨ op.onInts m n = .error .divisionByZero ∨
      op.onInts m n = .error (.overflow op.symbol) := by
  have hexact (k : Int) :
      (∃ w, op.exactly k = .ok w) ∨ op.exactly k = .error (.overflow op.symbol) := by
    unfold exactly
    cases Number.word? k with
    | some w => exact .inl ⟨w, rfl⟩
    | none => exact .inr rfl
  cases op with
  | add => exact (hexact _).imp id .inr
  | subtract => exact (hexact _).imp id .inr
  | multiply => exact (hexact _).imp id .inr
  | divide =>
      by_cases hn : n = 0
      · exact .inr (.inl (if_pos hn))
      · have heq : onInts divide m n = exactly divide (m.toInt.tdiv n.toInt) := if_neg hn
        rw [heq]
        exact (hexact _).imp id .inr
  | remainder =>
      by_cases hn : n = 0
      · exact .inr (.inl (if_pos hn))
      · have heq : onInts remainder m n = (do
            let _ ← exactly remainder (m.toInt.tdiv n.toInt)
            exactly remainder (m.toInt.tmod n.toInt)) := if_neg hn
        rw [heq]
        obtain ⟨w, hw⟩ | hoverflow := hexact (m.toInt.tdiv n.toInt)
        · rw [hw]
          exact (hexact _).imp id .inr
        · rw [hoverflow]
          exact .inr (.inr rfl)

theorem onFloats_cases (op : ArithmeticOp) (x y : Float) :
    (∃ z, op.onFloats x y = .ok z) ∨ op.onFloats x y = .error .divisionByZero := by
  unfold onFloats
  cases op with
  | divide => by_cases hy : (y == 0.0) = true <;> simp [hy]
  | remainder => by_cases hy : (y == 0.0) = true <;> simp [hy]
  | _ => exact .inl ⟨_, rfl⟩

theorem Computes.comes {r : Except RenderError (Value ρ)} (h : op.Computes type a b r) :
    Task.Comes [a, b] (·.Fits isA type) r := by
  have hints (m n : Int64) {t : Ty} (ht : ∀ k, (Value.int k : Value ρ).Fits isA t) :
      Task.Comes [(Value.int m : Value ρ), .int n] (·.Fits isA t)
        ((op.onInts m n).map Value.int) := by
    obtain ⟨k, hk⟩ | hk | hk := op.onInts_cases m n <;> rw [hk]
    · exact .ok (ht k)
    · exact .error .divisionByZero trivial
    · exact .error (.overflow _) trivial
  cases h with
  | texts s t _ => exact .ok (.text _)
  | ints m n => exact hints m n .int
  | intsForFloats m n => exact hints m n .intAsFloat
  | floats lhs rhs mixed =>
      rename_i x y
      obtain ⟨z, hz⟩ | hz := op.onFloats_cases x y <;> rw [hz]
      · exact .ok (.float z)
      · exact .error .divisionByZero trivial

-- Texts are operands of sums only, and beside texts.
theorem blames_of_null (htype : (BinaryOp.arithmetic op).type? ta tb = some type)
    (ha : a.Fits isA ta) (hb : b.Fits isA tb) (hnull : .null ∈ [a, b]) :
    RenderError.Blames [a, b]
      (.typeMismatch op.symbol "number" (if a.float?.isSome then .null else a.kind)) := by
  have hnumber (hta : ta.isNumeric = true) : RenderError.Blames [a, b]
      (.typeMismatch op.symbol "number" (if a.float?.isSome then .null else a.kind)) := by
    by_cases hnone : a = .null
    · subst hnone
      exact RenderError.blames_null fun s _ => by simp
    · obtain ⟨n, rfl⟩ | ⟨x, rfl⟩ := ha.number hta hnone
      · exact RenderError.blames_null fun s _ => by simp
      · exact RenderError.blames_null fun s _ => by simp
  obtain ⟨rfl, rfl, rfl, -⟩ | ⟨rfl, -, -⟩ | ⟨hfloats, -⟩ := type?_cases htype
  · cases ha with
    | null => exact RenderError.blames_null fun s _ => by simp
    | text s =>
        obtain rfl : b = .null := by simpa [eq_comm] using hnull
        exact ⟨.inr rfl, fun _ => ⟨rfl, s, rfl⟩, fun _ => rfl⟩
  · exact hnumber rfl
  · obtain ⟨rfl, -⟩ | ⟨rfl, -⟩ | ⟨rfl, -⟩ := hfloats <;> exact hnumber rfl

theorem comes_apply (htype : (BinaryOp.arithmetic op).type? ta tb = some type)
    (ha : a.Fits isA ta) (hb : b.Fits isA tb) :
    Task.Comes [a, b] (·.Fits isA type) (op.apply a b) := by
  by_cases hnull : .null ∈ [a, b]
  · rw [apply_of_null op hnull]
    exact .error (.typeMismatch _ _ _ hnull) (blames_of_null htype ha hb hnull)
  · exact (computes_of_fits htype ha hb hnull).comes

end ArithmeticOp

namespace Value

theorem negates_of_fits {t : Ty} (htype : UnaryOp.type? .negate t = some type) (h : v.Fits isA t)
    (hnull : .null ∉ [v]) : Negates type v v.negate := by
  simp only [List.mem_cons, List.not_mem_nil, or_false] at hnull
  cases t with
  | int =>
      obtain rfl := Option.some.inj htype
      cases h with
      | null => exact absurd rfl hnull
      | int n => exact .int n
  | float =>
      obtain rfl := Option.some.inj htype
      cases h with
      | null => exact absurd rfl hnull
      | intAsFloat n => exact .intForFloat n
      | float x => exact .float x
  | _ => cases htype

theorem comes_negate {t : Ty} (htype : UnaryOp.type? .negate t = some type) (h : v.Fits isA t) :
    Task.Comes [v] (·.Fits isA type) v.negate := by
  have hint (n : Int64) {t : Ty} (ht : ∀ k, (Value.int k : Value ρ).Fits isA t) :
      Task.Comes [(Value.int n : Value ρ)] (·.Fits isA t) (Value.int n : Value ρ).negate := by
    simp only [negate]
    cases Number.word? (-n.toInt) with
    | some w => exact .ok (ht w)
    | none => exact .error (.overflow _) trivial
  by_cases hnull : .null ∈ [v]
  · obtain rfl : .null = v := by simpa using hnull
    exact .error (.typeMismatch _ _ _ hnull) (RenderError.blames_null nofun)
  · cases negates_of_fits htype h hnull with
    | int n => exact hint n .int
    | intForFloat n => exact hint n .intAsFloat
    | float x => exact .ok (.float _)

theorem comes_truth (name : String) (h : v.Fits isA .bool) :
    Task.Comes [v] (fun _ => True) (v.truth name) := by
  cases h with
  | null => exact .error (.typeMismatch _ _ _ (by simp)) (RenderError.blames_null nofun)
  | bool b => exact .ok trivial

theorem comes_items (h : v.Fits isA (.list type)) :
    Task.Comes [v] (fun items => ∀ w ∈ items, w.Fits isA type) v.items := by
  cases h with
  | null => exact .error (.notIterable _ (by simp)) trivial
  | list items_fit => exact .ok items_fit

theorem comes_shown (h : v.Fits isA type) (htype : type.isRenderable = true) :
    Task.Comes [v] (fun _ => True) v.shown := by
  cases h with
  | list _ => cases htype
  | record _ => cases htype
  | _ => exact .ok trivial

theorem comes_order (op : OrderOp) (a b : Value ρ) :
    Task.Comes [a, b] (·.Fits isA .bool) (op.apply a b) := by
  unfold OrderOp.apply
  by_cases hnull : (a.isNull || b.isNull) = true
  · rw [if_pos hnull]
    refine .error (.typeMismatch _ _ _ ?_) (RenderError.blames_null fun s hname => ?_)
    · cases a <;> cases b <;> simp_all [isNull]
    · cases op <;> exact absurd hname (by decide)
  · rw [if_neg hnull]
    exact .ok (.bool _)

theorem comes_builtin {name : String} {builtin : Builtin} {returns : Ty} (h : v.Fits isA type)
    (hfound : BuiltinMethod.find? type name = some (.plain builtin returns)) :
    Task.Comes [v] (·.Fits isA returns) (builtin.apply v) := by
  unfold BuiltinMethod.find? at hfound
  split at hfound <;> cases hfound <;> cases h <;>
    first
    | exact .error (.nullDereference _ (by simp)) trivial
    | exact .ok (by constructor)

theorem comes_contains [DecidableEq ρ] {name : String} {element needle : Ty} (ha : a.Fits isA type)
    (hfound : BuiltinMethod.find? type name = some (.contains element)) (hb : b.Fits isA needle)
    (haccepts : element.accepts needle = true) :
    Task.Comes [a] (·.Fits isA .bool) (a.contains b) := by
  have hneedle : b.Fits isA element := hb.of_accepts haccepts
  cases ha with
  | null => exact .error (.nullDereference _ (by simp)) trivial
  | text s =>
      obtain rfl : element = .text := by
        unfold BuiltinMethod.find? at hfound
        split at hfound <;> simp_all
      cases hneedle with
      | null => exact .ok (.bool _)
      | text t => exact .ok (.bool _)
  | list items => exact .ok (.bool _)
  | _ => simp [BuiltinMethod.find?] at hfound

end Value

namespace Model.Conforms

variable {model : Model ρ} {oracle : Oracle} {owner name : String}

theorem comes_access (h : model.Conforms oracle isA) (hv : v.Fits isA (.record owner))
    (hfound : oracle.member owner name = some (.field type)) (requests : Array (Request ρ)) :
    Task.Comes [v] (·.Fits isA type) ((model.access name v).run requests).1 := by
  cases hv with
  | null => exact .error (.nullDereference _ (by simp)) trivial
  | record is_a =>
      rename_i ref
      obtain ⟨w, hw, hfits⟩ := h.field hfound is_a requests.size
      have hrun : ((model.access name (.record ref)).run requests).1 = .ok w := by
        unfold Model.access
        rw [run_bind]
        change ((model.askField ref name >>= _ : Eval ρ (Value ρ)).run requests).1 = _
        rw [run_bind, Model.run_askField, hw]
        rfl
      rw [hrun]
      exact .ok hfits

theorem comes_invoke {params : List Ty} {args : List (Value ρ)} (h : model.Conforms oracle isA)
    (hv : v.Fits isA (.record owner))
    (hfound : oracle.member owner name = some (.method params type))
    (hargs : List.Forall₂ (Value.Fits isA) args params) (requests : Array (Request ρ)) :
    Task.Comes [v] (·.Fits isA type) ((model.invoke name v args).run requests).1 := by
  cases hv with
  | null => exact .error (.nullDereference _ (by simp)) trivial
  | record is_a =>
      rename_i ref
      have hrun : ((model.invoke name (.record ref) args).run requests).1 =
          model.call requests.size ref name args := rfl
      rw [hrun]
      obtain ⟨w, hw, hfits⟩ | ⟨message, herror⟩ := h.call hfound is_a hargs requests.size
      · rw [hw]
        exact .ok hfits
      · rw [herror]
        exact .error (.model message) trivial

end Model.Conforms

end Stencil
