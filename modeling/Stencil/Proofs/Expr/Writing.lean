import Stencil.Expr.Parser

/-!
Expressions written out: as words, with parentheses only where an operand could not stand without
them, and the words as characters, with or without blanks between them.
-/

namespace Stencil

namespace Code

-- What a token says, however it is spelled.
inductive Word where
  | ident (name : String)
  | int (magnitude : Nat)
  | float (x : Float)
  | text (s : String)
  | symbol (s : Symbol)

def Token.word : Token → Word
  | .ident name => .ident name
  | .int n _ => .int n
  | .float x => .float x
  | .text s => .text s
  | .symbol s => .symbol s

inductive Identifier : List Char → Prop where
  | mk {c : Char} {cs : List Char} (hstart : isIdentStart c) (hrest : ∀ d ∈ cs, isIdentChar d) :
      Identifier (c :: cs)

-- Digits with a point between them, and their value.
inductive Decimal : Float → List Char → Prop where
  | mk {whole fraction : List Char} (hwhole : whole ≠ [] ∧ ∀ d ∈ whole, d.isDigit)
      (hfraction : fraction ≠ [] ∧ ∀ d ∈ fraction, d.isDigit) :
      Decimal (Float.ofScientific (digitsValue (whole ++ fraction)) true fraction.length)
        (whole ++ '.' :: fraction)

-- A text between quotes: a character stands for itself or is escaped.
inductive Quoted (quote : Char) : List Char → List Char → Prop where
  | nil : Quoted quote [] []
  | plain {c : Char} {value cs : List Char} (hquote : c ≠ quote) (hslash : c ≠ '\\')
      (hrest : Quoted quote value cs) : Quoted quote (c :: value) (c :: cs)
  | escaped {e c : Char} {value cs : List Char} (he : unescape? e = some c)
      (hrest : Quoted quote value cs) : Quoted quote (c :: value) ('\\' :: e :: cs)

-- The spellings of a word.
inductive Written : Word → List Char → Prop where
  | ident {cs : List Char} (hcs : Identifier cs) : Written (.ident (String.ofList cs)) cs
  | int {ds : List Char} (hds : ds ≠ [] ∧ ∀ d ∈ ds, d.isDigit)
      (hfits : digitsValue ds ≤ greatestMagnitude) : Written (.int (digitsValue ds)) ds
  | float {x : Float} {cs : List Char} (hx : Decimal x cs) : Written (.float x) cs
  | text {quote : Char} {value cs : List Char} (hquote : quote = '"' ∨ quote = '\'')
      (hcs : Quoted quote value cs) :
      Written (.text (String.ofList value)) (quote :: cs ++ [quote])
  | symbol (s : Symbol) : Written (.symbol s) s.text.toList

-- The layouts of some words: blanks may stand before, between and after them.
inductive Laid : List Word → List Char → Prop where
  | nil {blanks : List Char} (hblanks : ∀ c ∈ blanks, isCodeBlank c) : Laid [] blanks
  | cons {w : Word} {ws : List Word} {blanks word rest : List Char}
      (hblanks : ∀ c ∈ blanks, isCodeBlank c) (hword : Written w word) (hrest : Laid ws rest) :
      Laid (w :: ws) (blanks ++ word ++ rest)

def inParens (ws : List Word) : List Word :=
  .symbol .openParen :: ws ++ [.symbol .closeParen]

end Code

open Code

def UnaryOp.sign : UnaryOp → Symbol
  | .not => .bang
  | .negate => .minus

def BinaryOp.sign : BinaryOp → Symbol
  | .or => .or
  | .and => .and
  | .equality .equal => .equal
  | .equality .notEqual => .notEqual
  | .order .less => .less
  | .order .lessEqual => .lessEqual
  | .order .greater => .greater
  | .order .greaterEqual => .greaterEqual
  | .arithmetic .add => .plus
  | .arithmetic .subtract => .minus
  | .arithmetic .multiply => .star
  | .arithmetic .divide => .slash
  | .arithmetic .remainder => .percent

namespace Literal

-- Only the least integer has a sign of its own.
def words : Literal → List Word
  | .null => [.ident "null"]
  | .bool true => [.ident "true"]
  | .bool false => [.ident "false"]
  | .int n =>
    if n = Int64.minValue then [.symbol .minus, .int n.toInt.natAbs] else [.int n.toInt.natAbs]
  | .float x => [.float x]
  | .text s => [.text s]

-- Literals that a source can hold: integers without a sign, the least integer, and decimals.
def Writable : Literal → Prop
  | .null | .bool _ | .text _ => True
  | .int n => 0 ≤ n.toInt ∨ n = Int64.minValue
  | .float x => ∃ cs, Decimal x cs

end Literal

namespace Expr

-- How loosely an expression holds together: not at all what is written with a sign in front, and
-- by its operator what has one in the middle.
def rank : Expr → Nat
  | .literal _ (.int n) => if n = Int64.minValue then 1 else 0
  | .unary _ _ _ => 1
  | .binary _ op _ _ => op.looseness + 1
  | _ => 0

-- Words that stand where nothing looser than `limit` may stand.
def within (limit : Nat) (e : Expr) (ws : List Word) : List Word :=
  if e.rank ≤ limit then ws else inParens ws

end Expr

mutual

-- An expression as words. The left operand of an operator may hold one as loose, the right operand
-- may not.
def Expr.words : Expr → List Word
  | .literal _ value => value.words
  | .name _ ident => [.ident ident]
  | .list _ items => .symbol .openBracket :: Expr.wordsOfAll items ++ [.symbol .closeBracket]
  | .member _ object field => object.within 0 object.words ++ [.symbol .dot, .ident field]
  | .call _ object method args =>
    object.within 0 object.words ++
      [.symbol .dot, .ident method, .symbol .openParen] ++ Expr.wordsOfAll args ++
        [.symbol .closeParen]
  | .unary _ op operand => .symbol op.sign :: operand.within 1 operand.words
  | .binary _ op lhs rhs =>
    lhs.within (op.looseness + 1) lhs.words ++
      .symbol op.sign :: rhs.within op.looseness rhs.words

-- Expressions with commas between them.
def Expr.wordsOfAll : List Expr → List Word
  | [] => []
  | [e] => e.words
  | e :: es => e.words ++ .symbol .comma :: Expr.wordsOfAll es

end

mutual

-- A leaf has height one.
def Expr.height : Expr → Nat
  | .literal _ _ | .name _ _ => 1
  | .list _ items => Expr.heightOfAll items + 1
  | .member _ object _ => object.height + 1
  | .call _ object _ args => max object.height (Expr.heightOfAll args) + 1
  | .unary _ _ operand => operand.height + 1
  | .binary _ _ lhs rhs => max lhs.height rhs.height + 1

def Expr.heightOfAll : List Expr → Nat
  | [] => 0
  | e :: es => max e.height (Expr.heightOfAll es)

end

mutual

-- An expression without the numbers and the places of its nodes.
def Expr.unmarked : Expr → Expr
  | .literal _ value => .literal default value
  | .name _ ident => .name default ident
  | .list _ items => .list default (Expr.unmarkedAll items)
  | .member _ object field => .member default object.unmarked field
  | .call _ object method args => .call default object.unmarked method (Expr.unmarkedAll args)
  | .unary _ op operand => .unary default op operand.unmarked
  | .binary _ op lhs rhs => .binary default op lhs.unmarked rhs.unmarked

def Expr.unmarkedAll : List Expr → List Expr
  | [] => []
  | e :: es => e.unmarked :: Expr.unmarkedAll es

end

mutual

-- Expressions that a source can hold.
def Expr.Writable : Expr → Prop
  | .literal _ value => value.Writable
  | .name _ ident => Identifier ident.toList ∧ ident ∉ ["true", "false", "null"]
  | .list _ items => Expr.AllWritable items
  | .member _ object field => object.Writable ∧ Identifier field.toList
  | .call _ object method args =>
    object.Writable ∧ Identifier method.toList ∧ Expr.AllWritable args
  | .unary _ _ operand => operand.Writable
  | .binary _ _ lhs rhs => lhs.Writable ∧ rhs.Writable

def Expr.AllWritable : List Expr → Prop
  | [] => True
  | e :: es => e.Writable ∧ Expr.AllWritable es

end

-- The words of an expression where nothing looser than `limit` may stand.
def Expr.wordsAt (limit : Nat) (e : Expr) : List Word := e.within limit e.words

namespace Code

theorem looseness_pos (op : BinaryOp) : 0 < op.looseness := by
  cases op with
  | arithmetic op => cases op <;> decide
  | _ => exact Nat.succ_pos _

theorem looseness_le (op : BinaryOp) : op.looseness ≤ loosest := by
  cases op with
  | arithmetic op => cases op <;> decide
  | _ => simp [BinaryOp.looseness, loosest]

theorem exists_binary_of_rank {e : Expr} (h : 2 ≤ e.rank) :
    ∃ mark op lhs rhs, e = .binary mark op lhs rhs := by
  cases e with
  | binary mark op lhs rhs => exact ⟨mark, op, lhs, rhs, rfl⟩
  | literal mark value =>
    cases value with
    | int n =>
      simp only [Expr.rank] at h
      split at h <;> omega
    | _ => cases h
  | unary => exact absurd h (by simp [Expr.rank])
  | _ => cases h

theorem rank_le (e : Expr) : e.rank ≤ loosest + 1 := by
  rcases Nat.lt_or_ge e.rank 2 with hlt | hge
  · simp only [loosest]
    omega
  · obtain ⟨mark, op, lhs, rhs, rfl⟩ := exists_binary_of_rank hge
    exact Nat.succ_le_succ (looseness_le op)

theorem wordsAt_of_le {limit : Nat} {e : Expr} (h : e.rank ≤ limit) : e.wordsAt limit = e.words :=
  if_pos h

theorem wordsAt_of_lt {limit : Nat} {e : Expr} (h : limit < e.rank) :
    e.wordsAt limit = inParens e.words :=
  if_neg (Nat.not_le_of_lt h)

theorem wordsAt_succ {limit : Nat} {e : Expr} (h : e.rank ≠ limit + 1) :
    e.wordsAt (limit + 1) = e.wordsAt limit := by
  rcases Nat.lt_or_ge limit e.rank with hlt | hle
  · rw [wordsAt_of_lt hlt, wordsAt_of_lt (by omega)]
  · rw [wordsAt_of_le hle, wordsAt_of_le (Nat.le_succ_of_le hle)]

theorem wordsAt_loosest (e : Expr) : e.wordsAt (loosest + 1) = e.words := wordsAt_of_le (rank_le e)

theorem words_member (mark : Mark) (object : Expr) (field : String) :
    (Expr.member mark object field).words = object.wordsAt 0 ++ [.symbol .dot, .ident field] := rfl

theorem words_call (mark : Mark) (object : Expr) (method : String) (args : List Expr) :
    (Expr.call mark object method args).words =
      object.wordsAt 0 ++ .symbol .dot :: .ident method :: .symbol .openParen ::
        (Expr.wordsOfAll args ++ [.symbol .closeParen]) := by
  simp [Expr.words, Expr.wordsAt]

theorem words_binary (mark : Mark) (op : BinaryOp) (lhs rhs : Expr) :
    (Expr.binary mark op lhs rhs).words =
      lhs.wordsAt (op.looseness + 1) ++ .symbol op.sign :: rhs.wordsAt op.looseness := rfl

theorem height_pos (e : Expr) : 0 < e.height := by
  cases e <;> simp [Expr.height]

theorem allWritable_iff {es : List Expr} : Expr.AllWritable es ↔ ∀ e ∈ es, e.Writable := by
  induction es with
  | nil => simp [Expr.AllWritable]
  | cons e es ih => simp [Expr.AllWritable, ih]

theorem height_le_of_mem {es : List Expr} {e : Expr} (h : e ∈ es) :
    e.height ≤ Expr.heightOfAll es := by
  induction es with
  | nil => cases h
  | cons e' es ih =>
    rw [Expr.heightOfAll]
    rcases List.mem_cons.1 h with rfl | h
    · exact Nat.le_max_left _ _
    · exact Nat.le_trans (ih h) (Nat.le_max_right _ _)

-- The words at which a reader stands.
abbrev words (ts : List Placed) : List Word := ts.map (·.token.word)

theorem words_append (ts us : List Placed) : words (ts ++ us) = words ts ++ words us :=
  List.map_append

theorem foldl_max (ms : List Measured) (n : Nat) :
    ms.foldl (fun n e => max n e.height) n = max n (tallest ms) := by
  induction ms generalizing n with
  | nil => simp [tallest]
  | cons m ms ih =>
    have htallest : tallest (m :: ms) = ms.foldl (fun n e => max n e.height) (max 0 m.height) := rfl
    rw [htallest, List.foldl_cons, ih, ih, Nat.zero_max, Nat.max_assoc]

theorem tallest_cons (m : Measured) (ms : List Measured) :
    tallest (m :: ms) = max m.height (tallest ms) := by
  rw [tallest, List.foldl_cons, foldl_max, Nat.zero_max]

theorem tallest_pair (a b : Measured) : tallest [a, b] = max a.height b.height := by
  simp [tallest]

end Code

end Stencil
