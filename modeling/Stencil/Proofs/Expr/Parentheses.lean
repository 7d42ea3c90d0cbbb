import Stencil.Proofs.Expr.Writing

/-!
Parentheses that an expression could do without. Around any part of an expression there may be some,
and without them the words of the expression are left.
-/

namespace Stencil

open Code

mutual

-- The ways to write an expression where nothing looser than `limit` may stand. A part may be in
-- parentheses even where it would stand without them.
inductive Expr.Spelt : Nat → Expr → List Word → Prop where
  | literal {limit : Nat} {mark : Mark} {value : Literal}
      (hrank : (Expr.literal mark value).rank ≤ limit) :
      Spelt limit (.literal mark value) value.words
  | name {limit : Nat} {mark : Mark} {ident : String} :
      Spelt limit (.name mark ident) [.ident ident]
  | list {limit : Nat} {mark : Mark} {items : List Expr} {ws : List Word}
      (hitems : Expr.AllSpelt items ws) :
      Spelt limit (.list mark items) (.symbol .openBracket :: ws ++ [.symbol .closeBracket])
  | member {limit : Nat} {mark : Mark} {object : Expr} {field : String} {ws : List Word}
      (hobject : Spelt 0 object ws) :
      Spelt limit (.member mark object field) (ws ++ [.symbol .dot, .ident field])
  | call {limit : Nat} {mark : Mark} {object : Expr} {method : String} {args : List Expr}
      {ws ws' : List Word} (hobject : Spelt 0 object ws) (hargs : Expr.AllSpelt args ws') :
      Spelt limit (.call mark object method args)
        (ws ++ [.symbol .dot, .ident method] ++ inParens ws')
  | unary {limit : Nat} {mark : Mark} {op : UnaryOp} {operand : Expr} {ws : List Word}
      (hlimit : 1 ≤ limit) (hoperand : Spelt 1 operand ws) :
      Spelt limit (.unary mark op operand) (.symbol op.sign :: ws)
  | binary {limit : Nat} {mark : Mark} {op : BinaryOp} {lhs rhs : Expr} {ws ws' : List Word}
      (hlimit : op.looseness + 1 ≤ limit) (hlhs : Spelt (op.looseness + 1) lhs ws)
      (hrhs : Spelt op.looseness rhs ws') :
      Spelt limit (.binary mark op lhs rhs) (ws ++ .symbol op.sign :: ws')
  | parens {limit : Nat} {e : Expr} {ws : List Word} (he : Spelt (loosest + 1) e ws) :
      Spelt limit e (inParens ws)

-- Expressions with commas between them.
inductive Expr.AllSpelt : List Expr → List Word → Prop where
  | nil : AllSpelt [] []
  | single {e : Expr} {ws : List Word} (he : Expr.Spelt (loosest + 1) e ws) : AllSpelt [e] ws
  | cons {e e' : Expr} {es : List Expr} {ws ws' : List Word} (he : Expr.Spelt (loosest + 1) e ws)
      (hes : AllSpelt (e' :: es) ws') : AllSpelt (e :: e' :: es) (ws ++ .symbol .comma :: ws')

end

namespace Code

theorem Spelt.mono {limit limit' : Nat} {e : Expr} {ws : List Word} (h : e.Spelt limit ws)
    (hle : limit ≤ limit') : e.Spelt limit' ws := by
  cases h with
  | literal hrank => exact .literal (Nat.le_trans hrank hle)
  | name => exact .name
  | list hitems => exact .list hitems
  | member hobject => exact .member hobject
  | call hobject hargs => exact .call hobject hargs
  | unary hlimit hoperand => exact .unary (Nat.le_trans hlimit hle) hoperand
  | binary hlimit hlhs hrhs => exact .binary (Nat.le_trans hlimit hle) hlhs hrhs
  | parens he => exact .parens he

def Word.isParen : Word → Bool
  | .symbol .openParen | .symbol .closeParen => true
  | _ => false

-- `Grouped full bare`: some pairs of parentheses that belong together are gone.
inductive Grouped : List Word → List Word → Prop where
  | nil : Grouped [] []
  | word {w : Word} (hw : w.isParen = false) {full bare : List Word} (hrest : Grouped full bare) :
      Grouped (w :: full) (w :: bare)
  | kept {inner inner' full bare : List Word} (hinner : Grouped inner inner')
      (hrest : Grouped full bare) :
      Grouped (inParens inner ++ full) (inParens inner' ++ bare)
  | redundant {inner inner' full bare : List Word} (hinner : Grouped inner inner')
      (hrest : Grouped full bare) : Grouped (inParens inner ++ full) (inner' ++ bare)

theorem Grouped.append {full full' bare bare' : List Word} (h : Grouped full bare)
    (h' : Grouped full' bare') : Grouped (full ++ full') (bare ++ bare') := by
  induction h with
  | nil => exact h'
  | word hw _ ih => exact .word hw ih
  | kept hinner _ _ ih =>
    rw [List.append_assoc, List.append_assoc]
    exact .kept hinner ih
  | redundant hinner _ _ ih =>
    rw [List.append_assoc, List.append_assoc]
    exact .redundant hinner ih

theorem Grouped.inParens {full bare : List Word} (h : Grouped full bare) :
    Grouped (inParens full) (inParens bare) := by
  simpa using Grouped.kept h .nil

theorem grouped_refl {ws : List Word} (h : ∀ w ∈ ws, w.isParen = false) : Grouped ws ws := by
  induction ws with
  | nil => exact .nil
  | cons w ws ih =>
    exact .word (h w List.mem_cons_self) (ih fun w' hw => h w' (List.mem_cons_of_mem w hw))

theorem isParen_literal (value : Literal) : ∀ w ∈ value.words, w.isParen = false := by
  cases value with
  | bool b => cases b <;> simp [Literal.words, Word.isParen]
  | int n =>
    rw [Literal.words]
    split <;> simp [Word.isParen]
  | _ => simp [Literal.words, Word.isParen]

theorem isParen_sign (op : BinaryOp) : Word.isParen (.symbol op.sign) = false := by
  cases op with
  | equality op => cases op <;> rfl
  | order op => cases op <;> rfl
  | arithmetic op => cases op <;> rfl
  | _ => rfl

-- Nothing is loose in words that are put in brackets, or that end in a member.
theorem grouped_bracketed {ws ws' : List Word} (h : Grouped ws ws') :
    Grouped (.symbol .openBracket :: ws ++ [.symbol .closeBracket])
      (.symbol .openBracket :: ws' ++ [.symbol .closeBracket]) :=
  .word rfl (h.append (.word rfl .nil))

theorem grouped_member {ws ws' : List Word} (h : Grouped ws ws') (name : String) :
    Grouped (ws ++ [.symbol .dot, .ident name]) (ws' ++ [.symbol .dot, .ident name]) :=
  h.append (.word rfl (.word rfl .nil))

mutual

-- All parentheses that are written but not needed can go.
theorem grouped_of_spelt {limit : Nat} {e : Expr} {ws : List Word} :
    e.Spelt limit ws → Grouped ws (e.wordsAt limit)
  | .literal hrank => by
    rw [wordsAt_of_le hrank]
    exact grouped_refl (isParen_literal _)
  | .name => grouped_refl (by simp [Word.isParen])
  | .list hitems => grouped_bracketed (grouped_of_allSpelt hitems)
  | .member hobject => grouped_member (grouped_of_spelt hobject) _
  | @Expr.Spelt.call _ _ object method args _ _ hobject hargs => by
    have h := (grouped_member (grouped_of_spelt hobject) method).append
      (grouped_of_allSpelt hargs).inParens
    rw [wordsAt_of_le (Nat.zero_le _), words_call]
    simpa [inParens] using h
  | .unary hlimit hoperand => by
    rw [wordsAt_of_le hlimit]
    exact .word (by cases ‹UnaryOp› <;> rfl) (grouped_of_spelt hoperand)
  | .binary hlimit hlhs hrhs => by
    rw [wordsAt_of_le hlimit, words_binary]
    exact (grouped_of_spelt hlhs).append (.word (isParen_sign _) (grouped_of_spelt hrhs))
  | .parens he => by
    have h := grouped_of_spelt he
    rw [wordsAt_loosest] at h
    rw [Expr.wordsAt, Expr.within]
    split
    · simpa using Grouped.redundant h .nil
    · exact h.inParens

theorem grouped_of_allSpelt {es : List Expr} {ws : List Word} :
    Expr.AllSpelt es ws → Grouped ws (Expr.wordsOfAll es)
  | .nil => .nil
  | .single he => by
    have h := grouped_of_spelt he
    rwa [wordsAt_loosest] at h
  | .cons he hes => by
    have h := grouped_of_spelt he
    rw [wordsAt_loosest] at h
    exact h.append (.word rfl (grouped_of_allSpelt hes))

end

end Code

end Stencil
