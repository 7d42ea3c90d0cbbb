import Stencil.Output.Mode
import Stencil.Typing.Term

/-!
Programs: templates made ready to render. Their values live in numbered slots, and their fixed text
is in the form of one output mode.
-/

namespace Stencil

-- An expression made ready: names are slots, and operators are sorted by what they work on.
inductive Formula where
  | constant (c : Constant)
  | slot (index : Nat)
  | list (items : List Formula)
  | field (object : Formula) (name : String)
  | method (object : Formula) (name : String) (args : List Formula)
  | builtin (object : Formula) (builtin : Builtin)
  | contains (object needle : Formula)
  | not (operand : Formula)
  | negate (operand : Formula)
  | and (lhs rhs : Formula)
  | or (lhs rhs : Formula)
  | equality (op : EqualityOp) (lhs rhs : Formula)
  | order (op : OrderOp) (lhs rhs : Formula)
  | arithmetic (op : ArithmeticOp) (lhs rhs : Formula)

mutual

inductive Op where
  | literal (t : StaticText)
  | escaped (value : Formula)
  | raw (value : Formula)
  | branch (arms : List OpArm) (otherwise : List Op)
  | loop (iterable : Formula) (element : Nat) (index : Option Nat) (body otherwise : List Op)
  -- `site` tells the inclusions of a program apart.
  | inclusion (site : Nat) (target : String) (args : List (Option Formula))

inductive OpArm where
  | mk (test : Formula) (body : List Op)

end

structure Program where
  name : String
  mode : Mode
  schema : Schema
  frameSize : Nat
  body : List Op

namespace Op

mutual

-- The number of operations, those inside others included.
def count : Op → Nat
  | branch arms otherwise => 1 + countArms arms + countAll otherwise
  | loop _ _ _ body otherwise => 1 + countAll body + countAll otherwise
  | literal _ | escaped _ | raw _ | inclusion _ _ _ => 1

def countAll : List Op → Nat
  | [] => 0
  | op :: ops => op.count + countAll ops

def countArms : List OpArm → Nat
  | [] => 0
  | .mk _ body :: arms => countAll body + countArms arms

end

mutual

-- The fixed texts, in the order in which they stand in the template.
def literals : Op → List StaticText
  | literal t => [t]
  | branch arms otherwise => literalsOfArms arms ++ literalsOfAll otherwise
  | loop _ _ _ body otherwise => literalsOfAll body ++ literalsOfAll otherwise
  | escaped _ | raw _ | inclusion _ _ _ => []

def literalsOfAll : List Op → List StaticText
  | [] => []
  | op :: ops => op.literals ++ literalsOfAll ops

def literalsOfArms : List OpArm → List StaticText
  | [] => []
  | .mk _ body :: arms => literalsOfAll body ++ literalsOfArms arms

end

end Op

def Program.opCount (p : Program) : Nat := Op.countAll p.body

def Program.literals (p : Program) : List StaticText := Op.literalsOfAll p.body

end Stencil
