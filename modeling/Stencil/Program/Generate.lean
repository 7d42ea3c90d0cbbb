import Stencil.Program.Basic

/-!
Making programs from checked templates. Every checked template has one.
-/

namespace Stencil

-- The constants that all items are, if they all are.
def Formula.constants? : List Formula → Option (List Constant)
  | [] => some []
  | .constant c :: cs => (Formula.constants? cs).map (c :: ·)
  | _ => none

mutual

-- A list of constants becomes one constant.
def Term.formula : Term → Formula
  | .literal _ value => .constant (.literal value)
  | .slot _ index => .slot index
  | .list _ items =>
    let items := formulas items
    match Formula.constants? items with
    | some cs => .constant (.list cs)
    | none => .list items
  | .field _ object name => .field object.formula name
  | .method _ object name args => .method object.formula name (formulas args)
  | .builtin _ object b => .builtin object.formula b
  | .contains _ object needle => .contains object.formula needle.formula
  | .unary _ .not operand => .not operand.formula
  | .unary _ .negate operand => .negate operand.formula
  | .binary _ .and lhs rhs => .and lhs.formula rhs.formula
  | .binary _ .or lhs rhs => .or lhs.formula rhs.formula
  | .binary _ (.equality op) lhs rhs => .equality op lhs.formula rhs.formula
  | .binary _ (.order op) lhs rhs => .order op lhs.formula rhs.formula
  | .binary _ (.arithmetic op) lhs rhs => .arithmetic op lhs.formula rhs.formula

def Term.formulas : List Term → List Formula
  | [] => []
  | t :: ts => t.formula :: Term.formulas ts

end

-- Fixed text as an operation; none for the empty text.
def textOps (mode : Mode) (text : String) : List Op :=
  if text.isEmpty then [] else [.literal (.ofString mode text)]

-- Generation hands out site numbers: each function takes the first free one and gives the next.
mutual

-- The operation of a statement that is not text.
def Statement.op (mode : Mode) (site : Nat) : Statement → Op × Nat
  | .text content => (.literal (.ofString mode content), site)
  | .interpolation true value => (.raw value.formula, site)
  | .interpolation false value => (.escaped value.formula, site)
  | .conditional arms otherwise =>
    let (arms, site) := branchOps mode site arms
    let (otherwise, site) := ops mode site "" otherwise
    (.branch arms otherwise, site)
  | .loop iterable element index body otherwise =>
    let (body, site) := ops mode site "" body
    let (otherwise, site) := ops mode site "" otherwise
    (.loop iterable.formula element index body otherwise, site)
  | .inclusion target args => (.inclusion site target (args.map (·.map Term.formula)), site + 1)

-- The operations of a body, after fixed text that is still to be written.
def Statement.ops (mode : Mode) (site : Nat) (pending : String) : List Statement → List Op × Nat
  | [] => (textOps mode pending, site)
  | .text content :: rest => ops mode site (pending ++ content) rest
  | s :: rest =>
    let (op, site) := s.op mode site
    let (rest, site) := ops mode site "" rest
    (textOps mode pending ++ op :: rest, site)

def Statement.branchOps (mode : Mode) (site : Nat) : List Branch → List OpArm × Nat
  | [] => ([], site)
  | .mk test body :: rest =>
    let (body, site) := ops mode site "" body
    let (rest, site) := branchOps mode site rest
    (.mk test.formula body :: rest, site)

end

def CheckedTemplate.program (t : CheckedTemplate) (name : String) (mode : Mode) : Program where
  name := name
  mode := mode
  schema := t.schema
  frameSize := t.frameSize
  body := (Statement.ops mode 0 "" t.body).1

end Stencil
