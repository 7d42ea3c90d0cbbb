import Mathlib.Logic.Function.Basic
import Stencil.Render.Operators

/-!
Values whose records go by other names. Where different records keep different names, no operator
can tell the difference.
-/

namespace Stencil

variable {ρ ρ' : Type} (f : ρ → ρ')

namespace Value

mutual

def rename : Value ρ → Value ρ'
  | null => null
  | bool b => bool b
  | int n => int n
  | float x => float x
  | text s => text s
  | list items => list (renameAll items)
  | record ref => record (f ref)

def renameAll : List (Value ρ) → List (Value ρ')
  | [] => []
  | v :: vs => v.rename :: renameAll vs

end

@[simp] theorem renameAll_eq_map (vs : List (Value ρ)) : renameAll f vs = vs.map (rename f) := by
  induction vs with
  | nil => rfl
  | cons v vs ih => simp [renameAll, ih]

@[simp] theorem rename_null : (null : Value ρ).rename f = null := rfl

@[simp] theorem rename_list (items : List (Value ρ)) :
    (list items).rename f = list (items.map (rename f)) := by
  simp [rename]

@[simp] theorem kind_rename (v : Value ρ) : (v.rename f).kind = v.kind := by
  cases v <;> rfl

@[simp] theorem isNull_rename (v : Value ρ) : (v.rename f).isNull = v.isNull := by
  cases v <;> rfl

@[simp] theorem float?_rename (v : Value ρ) : (v.rename f).float? = v.float? := by
  cases v <;> rfl

@[simp] theorem shown?_rename (v : Value ρ) : (v.rename f).shown? = v.shown? := by
  cases v <;> rfl

theorem shown_rename (v : Value ρ) : (v.rename f).shown = v.shown := by
  simp [shown]

@[simp] theorem conforms_rename (v : Value ρ) (type : Ty) :
    (v.rename f).conforms type = v.conforms type := by
  cases v <;> cases type <;> rfl

theorem widen_rename (v : Value ρ) (type : Ty) :
    (v.rename f).widen type = (v.widen type).rename f := by
  cases v <;> cases type <;> simp [widen, rename]

@[simp] theorem truth_rename (name : String) (v : Value ρ) :
    (v.rename f).truth name = v.truth name := by
  cases v <;> rfl

end Value

theorem Literal.rename_value (l : Literal) : (l.value : Value ρ).rename f = l.value := by
  cases l <;> rfl

mutual

-- There are no records in constants.
theorem Constant.rename_value : ∀ c : Constant, (c.value : Value ρ).rename f = c.value
  | .literal l => l.rename_value f
  | .list items => by
      have hitems := Constant.rename_values items
      simpa [Constant.value] using hitems

theorem Constant.rename_values :
    ∀ cs : List Constant, (Constant.values cs : List (Value ρ)).map (Value.rename f) =
      Constant.values cs
  | [] => rfl
  | c :: cs => by
      simp [Constant.values, Constant.rename_value c, Constant.rename_values cs]

end

namespace Value

theorem compare?_rename (a b : Value ρ) : (a.rename f).compare? (b.rename f) = a.compare? b := by
  cases a <;> cases b <;> rfl

theorem negate_rename (v : Value ρ) : (v.rename f).negate = v.negate.map (rename f) := by
  cases v with
  | int n =>
      simp only [negate, rename]
      split <;> rfl
  | _ => rfl

end Value

theorem Builtin.apply_rename (b : Builtin) (v : Value ρ) :
    b.apply (v.rename f) = (b.apply v).map (Value.rename f) := by
  cases v with
  | list items => cases b <;> simp [apply, Value.rename, Value.noMethod, Except.map, Value.kind]
  | _ => cases b <;> rfl

theorem ArithmeticOp.onNumbers_rename (op : ArithmeticOp) (a b : Value ρ) :
    op.onNumbers (a.rename f) (b.rename f) = (op.onNumbers a b).map (Value.rename f) := by
  have hfloats (x y : Float) : ((op.onFloats x y).map .float : Except RenderError (Value ρ')) =
      ((op.onFloats x y).map .float).map (Value.rename f) := by
    cases op.onFloats x y <;> rfl
  cases a with
  | int a =>
      cases b with
      | int b =>
          change (op.onInts a b).map .int = ((op.onInts a b).map .int).map (Value.rename f)
          cases op.onInts a b <;> rfl
      | float b => exact hfloats _ _
      | _ => rfl
  | float a =>
      cases b with
      | int b | float b => exact hfloats _ _
      | _ => rfl
  | _ => rfl

theorem ArithmeticOp.apply_rename (op : ArithmeticOp) (a b : Value ρ) :
    op.apply (a.rename f) (b.rename f) = (op.apply a b).map (Value.rename f) := by
  have hnumbers := op.onNumbers_rename f a b
  cases op with
  | add =>
      cases a with
      | text a =>
          cases b with
          | text b => rfl
          | _ => exact hnumbers
      | _ => exact hnumbers
  | _ => exact hnumbers

theorem OrderOp.apply_rename (op : OrderOp) (a b : Value ρ) :
    op.apply (a.rename f) (b.rename f) = (op.apply a b).map (Value.rename f) := by
  simp only [apply, Value.isNull_rename, Value.compare?_rename]
  split <;> rfl

-- Comparing records by reference needs different records to keep different names.
variable [DecidableEq ρ] [DecidableEq ρ'] {f}

namespace Value

mutual

theorem looseEq_rename (hf : Function.Injective f) :
    ∀ a b : Value ρ, (a.rename f).looseEq (b.rename f) = a.looseEq b
  | .list as, b => by
      cases b with
      | list bs => simpa [looseEq] using looseEqAll_rename hf as bs
      | _ => rfl
  | .record r, b => by
      cases b with
      | record s => simp [rename, looseEq, hf.eq_iff]
      | _ => rfl
  | .null, b | .bool _, b | .int _, b | .float _, b | .text _, b => by
      cases b <;> rfl

theorem looseEqAll_rename (hf : Function.Injective f) : ∀ as bs : List (Value ρ),
    looseEqAll (as.map (rename f)) (bs.map (rename f)) = looseEqAll as bs
  | [], [] | [], _ :: _ | _ :: _, [] => rfl
  | a :: as, b :: bs => by
      simp [looseEqAll, looseEq_rename hf a b, looseEqAll_rename hf as bs]

end

theorem contains_rename (hf : Function.Injective f) (a b : Value ρ) :
    (a.rename f).contains (b.rename f) = (a.contains b).map (rename f) := by
  cases a with
  | list items => simp [contains, looseEq_rename hf, rename, Except.map, Function.comp_def]
  | text s => cases b <;> simp [contains, rename, Except.map, kind]
  | _ => rfl

end Value

theorem EqualityOp.apply_rename (hf : Function.Injective f) (op : EqualityOp) (a b : Value ρ) :
    op.apply (a.rename f) (b.rename f) = (op.apply a b).rename f := by
  cases op <;> simp [apply, Value.looseEq_rename hf, Value.rename]

end Stencil
