import Stencil.Source.Span

/-!
Expressions as they stand in a template.
-/

namespace Stencil

-- The number that a node was given, and its place. Numbers tell nodes apart.
structure Mark where
  id : Nat
  span : Span
deriving DecidableEq, Inhabited

inductive Literal where
  | null
  | bool (b : Bool)
  | int (n : Int64)
  | float (x : Float)
  | text (s : String)

inductive UnaryOp where
  | not
  | negate
deriving DecidableEq

def UnaryOp.symbol : UnaryOp → String
  | not => "!"
  | negate => "-"

inductive EqualityOp where
  | equal
  | notEqual
deriving DecidableEq

def EqualityOp.symbol : EqualityOp → String
  | equal => "=="
  | notEqual => "!="

inductive OrderOp where
  | less
  | lessEqual
  | greater
  | greaterEqual
deriving DecidableEq

def OrderOp.symbol : OrderOp → String
  | less => "<"
  | lessEqual => "<="
  | greater => ">"
  | greaterEqual => ">="

inductive ArithmeticOp where
  | add
  | subtract
  | multiply
  | divide
  | remainder
deriving DecidableEq

def ArithmeticOp.symbol : ArithmeticOp → String
  | add => "+"
  | subtract => "-"
  | multiply => "*"
  | divide => "/"
  | remainder => "%"

inductive BinaryOp where
  | or
  | and
  | equality (op : EqualityOp)
  | order (op : OrderOp)
  | arithmetic (op : ArithmeticOp)
deriving DecidableEq

namespace BinaryOp

def symbol : BinaryOp → String
  | or => "||"
  | and => "&&"
  | equality op => op.symbol
  | order op => op.symbol
  | arithmetic op => op.symbol

-- How loosely an operator binds. An operand of one binds tighter than the operator itself, except
-- for the left operand, which may bind as loosely.
def looseness : BinaryOp → Nat
  | or => 6
  | and => 5
  | equality _ => 4
  | order _ => 3
  | arithmetic .add | arithmetic .subtract => 2
  | arithmetic .multiply | arithmetic .divide | arithmetic .remainder => 1

end BinaryOp

-- The operators that bind loosest.
def loosest : Nat := 6

inductive Expr where
  | literal (mark : Mark) (value : Literal)
  | name (mark : Mark) (ident : String)
  | list (mark : Mark) (items : List Expr)
  | member (mark : Mark) (object : Expr) (field : String)
  | call (mark : Mark) (object : Expr) (method : String) (args : List Expr)
  | unary (mark : Mark) (op : UnaryOp) (operand : Expr)
  | binary (mark : Mark) (op : BinaryOp) (lhs rhs : Expr)
deriving Inhabited

def Expr.mark : Expr → Mark
  | literal m _ | name m _ | list m _ | member m _ _ | call m _ _ _ | unary m _ _
  | binary m _ _ _ => m

def Expr.id (e : Expr) : Nat := e.mark.id

def Expr.span (e : Expr) : Span := e.mark.span

-- Types as written: a name, or a list of some type.
inductive TypeExpr where
  | named (name : String)
  | list (element : TypeExpr)
deriving DecidableEq

end Stencil
