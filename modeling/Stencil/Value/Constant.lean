import Stencil.Expr.Basic
import Stencil.Number.Word

/-!
Constants: literals, and lists of constants. Defaults of parameters are such.
-/

namespace Stencil

inductive Constant where
  | literal (value : Literal)
  | list (items : List Constant)
deriving Inhabited

mutual

-- The constant that an expression denotes: a literal, a negated number, or a list of such.
def Expr.constant? : Expr → Option Constant
  | .literal _ value => some (.literal value)
  | .list _ items => (Expr.constants? items).map .list
  | .unary _ .negate (.literal _ (.int n)) =>
    (Number.word? (-n.toInt)).map fun w => .literal (.int w)
  | .unary _ .negate (.literal _ (.float x)) => some (.literal (.float (-x)))
  | _ => none

def Expr.constants? : List Expr → Option (List Constant)
  | [] => some []
  | e :: es => do return (← e.constant?) :: (← Expr.constants? es)

end

end Stencil
