import Stencil.Proofs.Markup.Lines
import Stencil.Proofs.Template.Written

/-!
Sources that begin with the line of a declaration: with nothing else, or with one interpolation in
the next line.
-/

namespace Stencil

namespace Code

-- Code that can stand behind the keyword of a declaration, up to the end of its line.
structure InLine (code : List Char) : Prop where
  apart : code.head?.any fun c => c == ' ' || c == '\t'
  unbroken : '\n' ∉ code
  last : code.getLast? ≠ some '\r'

-- The line that declares what the code says.
def declLine (code : List Char) : List Char := ['@', 'p', 'a', 'r', 'a', 'm'] ++ code

theorem byteLength_declLine (code : List Char) :
    byteLength (declLine code) = 6 + byteLength code := by
  rw [declLine, byteLength_append]
  rfl

theorem InLine.dropReturns {code : List Char} (h : InLine code) :
    Markup.dropReturns code = code := by
  rcases List.eq_nil_or_concat code with rfl | ⟨init, last, rfl⟩
  · rfl
  · have hlast : last ≠ '\r' := by
      have hreturn := h.last
      rw [List.concat_eq_append, List.getLast?_concat] at hreturn
      exact fun heq => hreturn (congrArg some heq)
    rw [Markup.dropReturns, List.concat_eq_append, List.reverse_append]
    simp [hlast]

end Code

namespace Markup

open Code

variable {code : List Char}

-- The token of the line.
def declaration (pos : Nat) (code : List Char) : Token :=
  .tag (.param ⟨pos + 6, code⟩) ⟨pos, pos + byteLength (declLine code)⟩

theorem lexeme?_param (h : code.head?.any fun c => c == ' ' || c == '\t') (pos : Nat) :
    lexeme? pos (declLine code) = .ok (some (paramLine pos code)) := by
  change tag? pos ("param".toList ++ code) = _
  unfold tag?
  change (if (code.head?.any fun c => c == ' ' || c == '\t') then
    Except.ok (some (paramLine pos code)) else .ok none) = _
  rw [if_pos h]

theorem paramLine_last (h : InLine code) (pos : Nat) :
    paramLine pos code = ⟨declaration pos code, pos + byteLength (declLine code), []⟩ := by
  unfold paramLine
  dsimp only
  rw [takeWhile_of_notMem h.unbroken, dropWhile_of_notMem h.unbroken, h.dropReturns, declaration,
    byteLength_declLine, ← Nat.add_assoc]
  rfl

theorem paramLine_broken (h : InLine code) (pos : Nat) (rest : List Char) :
    paramLine pos (code ++ '\n' :: rest) =
      ⟨declaration pos code, pos + byteLength (declLine code) + 1, rest⟩ := by
  have hline : ∀ c ∈ code, c != '\n' := fun c hc => by
    rw [bne_iff_ne]
    exact fun heq => h.unbroken (heq ▸ hc)
  have hbreak : ¬ ('\n' :: rest).head?.any (· != '\n') := by simp
  unfold paramLine
  dsimp only
  rw [takeWhile_stretch hline hbreak, dropWhile_stretch hline hbreak, h.dropReturns, declaration,
    byteLength_declLine, ← Nat.add_assoc]
  rfl

theorem lexemes_declLine (h : InLine code) (start pos : Nat) :
    lexemes start [] pos (declLine code) = .ok [declaration pos code] := by
  rw [lexemes_of_some (lexeme?_param h.apart pos), paramLine_last h, lexemes]
  rfl

-- What follows the line is cut as by itself.
theorem lexemes_declLine_append (h : InLine code) (start pos : Nat) (rest : List Char) :
    lexemes start [] pos (declLine code ++ '\n' :: rest) =
      (lexemes (pos + byteLength (declLine code) + 1) []
        (pos + byteLength (declLine code) + 1) rest).map (declaration pos code :: ·) := by
  have hapart : (code ++ '\n' :: rest).head?.any fun c => c == ' ' || c == '\t' := by
    cases code with
    | nil => cases h.apart
    | cons c code => exact h.apart
  have hsource : declLine code ++ '\n' :: rest = declLine (code ++ '\n' :: rest) :=
    List.append_assoc _ _ _
  rw [hsource, lexemes_of_some (lexeme?_param hapart pos), paramLine_broken h]
  rfl

end Markup

namespace Template

open Code

-- What is read from a declaration, and then from what stands behind it.
theorem ofTokens_declaration (pos : Nat) (code : List Char) {rest : List Markup.Token}
    (hrest : header rest = []) :
    ofTokens (Markup.declaration pos code :: rest) =
      ((paramDecl ⟨pos, pos + byteLength (declLine code)⟩).runOn ⟨pos + 6, code⟩ 0).bind
        fun (decl, n) => (Builder.wholeBody.run ⟨rest, n⟩).map
          fun (body, p) => ⟨[decl], body, p.nextId⟩ := by
  have hheader : header (Markup.declaration pos code :: rest) = [Markup.declaration pos code] := by
    rw [Markup.declaration, header_cons_declaration, hrest]
  rw [ofTokens_eq_bind, behindHeader, hheader]
  change ((_ : Except Fault _).bind _).bind _ = _
  cases (paramDecl ⟨pos, pos + byteLength (declLine code)⟩).runOn ⟨pos + 6, code⟩ 0 <;> rfl

variable {code : List Char}

theorem parse_declaration (h : InLine code) (trimLines : Bool) :
    parse (String.ofList (declLine code)) trimLines =
      (((paramDecl ⟨0, byteLength (declLine code)⟩).runOn ⟨6, code⟩ 0).map fun (decl, n) =>
          (⟨[decl], [], n⟩ : Template)).mapError
        (SyntaxError.ofFault (String.ofList (declLine code))) := by
  have htokens : Markup.tokens (declLine code) = .ok [Markup.declaration 0 code] :=
    Markup.lexemes_declLine h 0 0
  rw [parse_of_textless htokens rfl, ofTokens_declaration 0 code rfl, Nat.zero_add, Nat.zero_add]
  cases (paramDecl ⟨0, byteLength (declLine code)⟩).runOn ⟨6, code⟩ 0 <;> rfl

-- A declaration, and an interpolation in the next line.
theorem parse_declaration_interpolated (h : InLine code) {inner : List Char}
    (hinner : Markup.enclosed '\x7b' '\x7d' .unterminatedInterpolation .code 0
      (inner ++ ['\x7d']) = .ok (inner, [])) (trimLines : Bool) :
    ∃ next span, parse (String.ofList (declLine code ++ '\n' :: interpolated inner)) trimLines =
      (((paramDecl ⟨0, byteLength (declLine code)⟩).runOn ⟨6, code⟩ 0).bind fun (decl, n) =>
        (completeExpression.runOn ⟨next, inner⟩ n).map fun (e, m) =>
          (⟨[decl], [.interpolation false e span], m⟩ : Template)).mapError
        (SyntaxError.ofFault (String.ofList (declLine code ++ '\n' :: interpolated inner))) := by
  let next := 0 + byteLength (declLine code) + 1
  let span : Span := ⟨next, next + byteLength (interpolated inner)⟩
  have htokens : Markup.tokens (declLine code ++ '\n' :: interpolated inner) =
      .ok [Markup.declaration 0 code, .interpolation false ⟨next + 2, inner⟩ span] := by
    rw [Markup.tokens, Markup.lexemes_declLine_append h, Markup.lexemes_interpolated _ _ hinner]
    rfl
  refine ⟨next + 2, span, ?_⟩
  rw [parse_of_textless htokens rfl, ofTokens_declaration 0 code rfl, Nat.zero_add, Nat.zero_add]
  cases (paramDecl ⟨0, byteLength (declLine code)⟩).runOn ⟨6, code⟩ 0 with
  | error fault => rfl
  | ok read =>
    simp only [Except.bind, Builder.run_wholeBody_interpolation]
    cases completeExpression.runOn ⟨next + 2, inner⟩ read.2 <;> rfl

end Template

end Stencil
