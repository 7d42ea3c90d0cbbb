import Stencil.Proofs.Expr.Numbers
import Stencil.Template.Parser

/-!
The numbers in a body: each expression has one, and each name that a loop binds and each inclusion
as well. The code in a tag is read with the numbers from the next free one on.
-/

namespace Stencil

mutual

-- All expressions that stand in a node.
def Node.exprs : Node → List Expr
  | .text _ _ => []
  | .interpolation _ value _ => value.parts
  | .conditional arms none _ => Node.exprsOfArms arms
  | .conditional arms (some otherwise) _ => Node.exprsOfArms arms ++ Node.exprsOfAll otherwise
  | .loop _ _ iterable body none _ => iterable.parts ++ Node.exprsOfAll body
  | .loop _ _ iterable body (some otherwise) _ =>
    iterable.parts ++ Node.exprsOfAll body ++ Node.exprsOfAll otherwise
  | .inclusion _ _ args _ => Expr.partsOfAll (args.map Argument.value)

def Node.exprsOfAll : List Node → List Expr
  | [] => []
  | node :: nodes => node.exprs ++ Node.exprsOfAll nodes

def Node.exprsOfArms : List Arm → List Expr
  | [] => []
  | .mk test body :: arms => test.parts ++ Node.exprsOfAll body ++ Node.exprsOfArms arms

end

-- The expressions of the body.
def Template.exprs (t : Template) : List Expr := Node.exprsOfAll t.body

abbrev Argument.idsOfAll (args : List Argument) : List Nat :=
  Expr.idsOfAll (args.map Argument.value)

-- The numbers of the names that a loop binds.
def Binding.numbers (element : Binding) (index : Option Binding) : List Nat :=
  element.mark.id :: (index.map fun index => index.mark.id).toList

mutual

-- All numbers that were given in a node: to expressions, to the names of loops and to inclusions.
def Node.numbers : Node → List Nat
  | .text _ _ => []
  | .interpolation _ value _ => value.ids
  | .conditional arms none _ => Node.numbersOfArms arms
  | .conditional arms (some otherwise) _ =>
    Node.numbersOfArms arms ++ Node.numbersOfAll otherwise
  | .loop element index iterable body none _ =>
    Binding.numbers element index ++ iterable.ids ++ Node.numbersOfAll body
  | .loop element index iterable body (some otherwise) _ =>
    Binding.numbers element index ++ iterable.ids ++ Node.numbersOfAll body ++
      Node.numbersOfAll otherwise
  | .inclusion id _ args _ => id :: Argument.idsOfAll args

def Node.numbersOfAll : List Node → List Nat
  | [] => []
  | node :: nodes => node.numbers ++ Node.numbersOfAll nodes

def Node.numbersOfArms : List Arm → List Nat
  | [] => []
  | .mk test body :: arms => test.ids ++ Node.numbersOfAll body ++ Node.numbersOfArms arms

end

def Template.numbers (t : Template) : List Nat := Node.numbersOfAll t.body

namespace Node

@[simp] theorem numbersOfAll_cons (node : Node) (nodes : List Node) :
    numbersOfAll (node :: nodes) = node.numbers ++ numbersOfAll nodes := rfl

@[simp] theorem numbersOfArms_cons (test : Expr) (body : List Node) (arms : List Arm) :
    numbersOfArms (.mk test body :: arms) =
      test.ids ++ numbersOfAll body ++ numbersOfArms arms := rfl

-- A missing alternative is like an empty one.
theorem exprs_conditional (arms : List Arm) (otherwise : Option (List Node)) (span : Span) :
    (conditional arms otherwise span).exprs =
      exprsOfArms arms ++ exprsOfAll (otherwise.getD []) := by
  cases otherwise <;> simp [exprs, exprsOfAll]

theorem exprs_loop (element : Binding) (index : Option Binding) (iterable : Expr)
    (body : List Node) (otherwise : Option (List Node)) (span : Span) :
    (loop element index iterable body otherwise span).exprs =
      iterable.parts ++ exprsOfAll body ++ exprsOfAll (otherwise.getD []) := by
  cases otherwise <;> simp [exprs, exprsOfAll]

mutual

-- The expressions of a node have some of its numbers.
theorem ids_sublist_numbers : ∀ node : Node, (node.exprs.map Expr.id).Sublist node.numbers
  | text _ _ => .refl _
  | interpolation _ _ _ => .refl _
  | conditional arms none _ => ids_sublist_numbersOfArms arms
  | conditional arms (some otherwise) _ => by
    simp only [exprs, numbers, List.map_append]
    exact (ids_sublist_numbersOfArms arms).append (ids_sublist_numbersOfAll otherwise)
  | loop element index iterable body none _ => by
    simp only [exprs, numbers, List.map_append, List.append_assoc]
    exact ((ids_sublist_numbersOfAll body).append_left _).trans (List.sublist_append_right _ _)
  | loop element index iterable body (some otherwise) _ => by
    simp only [exprs, numbers, List.map_append, List.append_assoc]
    have hbodies := (ids_sublist_numbersOfAll body).append (ids_sublist_numbersOfAll otherwise)
    exact (hbodies.append_left _).trans (List.sublist_append_right _ _)
  | inclusion _ _ _ _ => List.sublist_cons_self _ _

theorem ids_sublist_numbersOfAll : ∀ nodes : List Node,
    ((exprsOfAll nodes).map Expr.id).Sublist (numbersOfAll nodes)
  | [] => .refl _
  | node :: nodes => by
    simp only [exprsOfAll, numbersOfAll, List.map_append]
    exact (ids_sublist_numbers node).append (ids_sublist_numbersOfAll nodes)

theorem ids_sublist_numbersOfArms : ∀ arms : List Arm,
    ((exprsOfArms arms).map Expr.id).Sublist (numbersOfArms arms)
  | [] => .refl _
  | .mk test body :: arms => by
    simp only [exprsOfArms, numbersOfArms, List.map_append]
    exact ((ids_sublist_numbersOfAll body).append_left _).append (ids_sublist_numbersOfArms arms)

end

end Node

namespace Code

open Reader

theorem issues_nextIdent? : Issues [] nextIdent? fun _ => [] := by
  refine .bind issues_next? fun token => ?_
  split <;> exact .pure rfl

theorem issues_loopName : Issues [] loopName fun binding => [binding.mark.id] := by
  refine .bind issues_nextIdent? fun name => ?_
  split
  · split
    · exact issues_fail
    · refine .bind issues_here fun span => .bind issues_skip fun _ => ?_
      exact .bind issues_freshId fun i => .pure rfl
  · exact issues_fail

-- The numbers that the header of a loop gives: to the names, then to what is looped over.
abbrev headerNumbering (header : Binding × Option Binding × Expr) : List Nat :=
  Binding.numbers header.1 header.2.1 ++ header.2.2.numbering

theorem issues_loopHeader : Issues [] loopHeader headerNumbering := by
  refine .bind issues_loopName fun element => .bind (issues_accept.keep _) fun comma => ?_
  -- What follows the names is read alike whether there is an index or not.
  have hrest (index : Option Binding) :
      Issues (Binding.numbers element index) (do
        if (← nextIdent?) = some "in" then
          skip
          let iterable ← completeExpression
          return (element, index, iterable)
        else fail .invalidForHeader) headerNumbering := by
    refine .bind (issues_nextIdent?.keep _) fun name => ?_
    split
    · refine .bind (issues_skip.keep _) fun _ => ?_
      exact .bind (issues_completeExpression.after _) fun iterable => .pure rfl
    · exact issues_fail
  dsimp only
  split
  · exact .bind ((issues_loopName.after _).map fun _ => rfl) hrest
  · exact .bind (.pure rfl) hrest

theorem issues_argumentName? : Issues [] argumentName? fun _ => [] := by
  refine .bind .get fun cursor => ?_
  split
  · exact .bind issues_skip fun _ => .bind issues_skip fun _ => .pure rfl
  · exact .pure rfl

abbrev argumentNumbering (args : List Argument) : List Nat :=
  Expr.numberingOfAll (args.map Argument.value)

theorem issues_arguments : ∀ fuel : Nat, Issues [] (arguments fuel) argumentNumbering
  | 0 => .pure rfl
  | fuel + 1 => by
    refine .bind issues_argumentName? fun name => .bind issues_ensureNotEmpty fun _ => ?_
    refine .bind issues_expression fun value => .bind (issues_accept.keep _) fun comma => ?_
    split
    · exact .bind ((issues_arguments fuel).after _) fun rest => .pure rfl
    · exact .pure (List.append_nil _).symm

theorem issues_inclusionArgs : Issues [] inclusionArgs argumentNumbering := by
  refine .bind issues_next? fun token => ?_
  split
  · exact .pure rfl
  · refine .bind .get fun cursor => .bind (issues_arguments _) fun args => ?_
    exact .bind (issues_expectEnd.keep _) fun _ => .pure rfl

abbrev defaultNumbering (default : Option Expr) : List Nat := default.elim [] Expr.numbering

theorem issues_paramDecl {span : Span} :
    Issues [] (paramDecl span) fun decl => defaultNumbering decl.default := by
  refine .bind issues_nextIdent? fun first => ?_
  have hend (decl : ParamDecl) : Issues (defaultNumbering decl.default) (do
      if (← next?).isSome then fail .invalidParam
      return decl) fun decl => defaultNumbering decl.default := by
    refine .bind (issues_next?.keep _) fun token => ?_
    dsimp only
    split
    · exact issues_fail_bind
    · exact .pure rfl
  dsimp only
  split
  · exact issues_fail_bind
  · refine .bind (issues_typeAt maxNesting) fun type => .bind issues_nextIdent? fun name => ?_
    split
    · exact issues_fail
    · refine .bind issues_skip fun _ => .bind issues_accept fun assign => ?_
      split
      · refine .bind issues_ensureNotEmpty fun _ => ?_
        exact .bind (issues_expression.map fun _ => rfl) fun default =>
          hend ⟨_, type, default, span⟩
      · exact .bind (.pure rfl) fun default => hend ⟨_, type, default, span⟩

end Code

namespace Template.Builder

-- Reading code goes on with the next free number, and gives back the one after it.
theorem run_code {α : Type} (reader : Code.Reader α) (slice : Slice) (s : Progress) :
    (code reader slice).run s = (do
      let tokens ← Code.tokens slice.start slice.chars
      let (a, c) ← reader.run ⟨tokens, slice.stop, s.nextId⟩
      return (a, ⟨s.tokens, c.nextId⟩)) := by
  simp only [code, Code.Reader.runOn]
  cases htokens : Code.tokens slice.start slice.chars with
  | error fault => rfl
  | ok tokens =>
    simp only [bind_pure_comp, liftM_bind, liftM_map, bind_assoc, bind_map_left, StateT.run_bind,
      StateT.run_get, StateT.run_monadLift, monadLift_self, Except.map_ok, StateT.run_map,
      StateT.run_set, map_pure, Functor.map_map, pure_bind]
    rfl

end Template.Builder

end Stencil
