import Stencil.Source.Span

/-!
Spans that follow one another in a source.
-/

namespace Stencil.Span

-- `Row good lo hi spans`: the spans follow one another from byte `lo` to byte `hi`. None is empty,
-- and each begins at a good place.
def Row (good : Nat → Prop) (lo hi : Nat) : List Span → Prop
  | [] => lo ≤ hi
  | s :: spans => good s.start ∧ lo ≤ s.start ∧ s.start < s.stop ∧ Row good s.stop hi spans

namespace Row

variable {good : Nat → Prop} {lo mid hi : Nat} {s : Span} {spans others : List Span}

theorem nil (h : lo ≤ hi) : Row good lo hi [] := h

theorem singleton (hgood : good s.start) (hlo : lo ≤ s.start) (hne : s.start < s.stop)
    (hhi : s.stop ≤ hi) : Row good lo hi [s] := ⟨hgood, hlo, hne, hhi⟩

theorem widen {lo' hi' : Nat} (h : Row good lo hi spans) (hlo : lo' ≤ lo) (hhi : hi ≤ hi') :
    Row good lo' hi' spans := by
  induction spans generalizing lo lo' with
  | nil => exact Nat.le_trans hlo (Nat.le_trans h hhi)
  | cons s spans ih =>
    obtain ⟨hgood, hle, hne, hrest⟩ := h
    exact ⟨hgood, Nat.le_trans hlo hle, hne, ih hrest (Nat.le_refl _)⟩

theorem le (h : Row good lo hi spans) : lo ≤ hi := by
  induction spans generalizing lo with
  | nil => exact h
  | cons s spans ih =>
    obtain ⟨-, hle, hne, hrest⟩ := h
    exact Nat.le_trans (Nat.le_trans hle (Nat.le_of_lt hne)) (ih hrest)

theorem append (h : Row good lo mid spans) (h' : Row good mid hi others) :
    Row good lo hi (spans ++ others) := by
  induction spans generalizing lo with
  | nil => exact h'.widen h (Nat.le_refl _)
  | cons s spans ih =>
    obtain ⟨hgood, hle, hne, hrest⟩ := h
    exact ⟨hgood, hle, hne, ih hrest⟩

theorem exists_of_append (h : Row good lo hi (spans ++ others)) :
    ∃ mid, Row good lo mid spans ∧ Row good mid hi others := by
  induction spans generalizing lo with
  | nil => exact ⟨lo, Nat.le_refl _, h⟩
  | cons s spans ih =>
    obtain ⟨hgood, hle, hne, hrest⟩ := h
    obtain ⟨mid, hfirst, hsecond⟩ := ih hrest
    exact ⟨mid, ⟨hgood, hle, hne, hfirst⟩, hsecond⟩

theorem sublist (h : Row good lo hi spans) (hsub : others.Sublist spans) :
    Row good lo hi others := by
  induction hsub generalizing lo with
  | slnil => exact h
  | cons s _ ih =>
    obtain ⟨-, hle, hne, hrest⟩ := h
    exact (ih hrest).widen (Nat.le_trans hle (Nat.le_of_lt hne)) (Nat.le_refl _)
  | cons_cons s _ ih =>
    obtain ⟨hgood, hle, hne, hrest⟩ := h
    exact ⟨hgood, hle, hne, ih hrest⟩

theorem of_mem (h : Row good lo hi spans) (hs : s ∈ spans) :
    good s.start ∧ lo ≤ s.start ∧ s.start < s.stop ∧ s.stop ≤ hi := by
  obtain ⟨hgood, hle, hne, hstop⟩ := h.sublist (List.singleton_sublist.mpr hs)
  exact ⟨hgood, hle, hne, hstop⟩

theorem pairwise (h : Row good lo hi spans) : spans.Pairwise fun s t => s.start ≤ t.start := by
  induction spans generalizing lo with
  | nil => exact .nil
  | cons s spans ih =>
    obtain ⟨-, -, hne, hrest⟩ := h
    refine .cons (fun t ht => ?_) (ih hrest)
    obtain ⟨-, hle, -, -⟩ := hrest.of_mem ht
    exact Nat.le_trans (Nat.le_of_lt hne) hle

-- A row ends where its last span does.
theorem upTo {last : Span} (h : Row good lo hi spans) (hlast : spans.getLast? = some last) :
    Row good lo last.stop spans := by
  obtain ⟨front, rfl⟩ := List.getLast?_eq_some_iff.mp hlast
  obtain ⟨mid, hfront, hgood, hle, hne, -⟩ := h.exists_of_append
  exact hfront.append (.singleton hgood hle hne (Nat.le_refl _))

-- The first and the last span of a row cover it.
theorem cover {first last : Span} (h : Row good lo hi spans) (hfirst : spans.head? = some first)
    (hlast : spans.getLast? = some last) :
    Row good lo hi [first.cover last] ∧
      Row good (first.cover last).start (first.cover last).stop spans := by
  obtain ⟨rest, rfl⟩ := List.head?_eq_some_iff.mp hfirst
  obtain ⟨-, -, -, hhi⟩ := h.of_mem (List.mem_of_getLast? hlast)
  obtain ⟨hgood, hlo, hne, hrest⟩ := h.upTo hlast
  have hrow : Row good first.start last.stop (first :: rest) := ⟨hgood, Nat.le_refl _, hne, hrest⟩
  obtain ⟨-, hstart, hlt, -⟩ := hrow.of_mem (List.mem_of_getLast? hlast)
  have hcover : first.cover last = ⟨first.start, last.stop⟩ := by
    rw [Span.cover, Nat.min_eq_left hstart, Nat.max_eq_right hrest.le]
  rw [hcover]
  exact ⟨.singleton hgood hlo (Nat.lt_of_le_of_lt hstart hlt) hhi, hrow⟩

end Row

-- `InTurn At lo hi xs`: the things follow one another from byte `lo` to byte `hi`, with gaps or
-- without. `At` tells of each from where to where it stands.
def InTurn {α : Type} (At : Nat → Nat → α → Prop) (lo hi : Nat) : List α → Prop
  | [] => lo ≤ hi
  | x :: xs => ∃ a b, lo ≤ a ∧ a ≤ b ∧ At a b x ∧ InTurn At b hi xs

namespace InTurn

variable {α β : Type} {At : Nat → Nat → α → Prop} {lo mid hi : Nat} {x : α} {xs ys : List α}

theorem singleton {a b : Nat} (hlo : lo ≤ a) (hle : a ≤ b) (hx : At a b x) (hhi : b ≤ hi) :
    InTurn At lo hi [x] := ⟨a, b, hlo, hle, hx, hhi⟩

theorem widen {lo' hi' : Nat} (h : InTurn At lo hi xs) (hlo : lo' ≤ lo) (hhi : hi ≤ hi') :
    InTurn At lo' hi' xs := by
  induction xs generalizing lo lo' with
  | nil => exact Nat.le_trans hlo (Nat.le_trans h hhi)
  | cons x xs ih =>
    obtain ⟨a, b, hle, hne, hx, hrest⟩ := h
    exact ⟨a, b, Nat.le_trans hlo hle, hne, hx, ih hrest (Nat.le_refl _)⟩

theorem le (h : InTurn At lo hi xs) : lo ≤ hi := by
  induction xs generalizing lo with
  | nil => exact h
  | cons x xs ih =>
    obtain ⟨a, b, hle, hne, -, hrest⟩ := h
    exact Nat.le_trans hle (Nat.le_trans hne (ih hrest))

theorem append (h : InTurn At lo mid xs) (h' : InTurn At mid hi ys) :
    InTurn At lo hi (xs ++ ys) := by
  induction xs generalizing lo with
  | nil => exact h'.widen h (Nat.le_refl _)
  | cons x xs ih =>
    obtain ⟨a, b, hle, hne, hx, hrest⟩ := h
    exact ⟨a, b, hle, hne, hx, ih hrest⟩

theorem exists_of_append (h : InTurn At lo hi (xs ++ ys)) :
    ∃ mid, InTurn At lo mid xs ∧ InTurn At mid hi ys := by
  induction xs generalizing lo with
  | nil => exact ⟨lo, Nat.le_refl _, h⟩
  | cons x xs ih =>
    obtain ⟨a, b, hle, hne, hx, hrest⟩ := h
    obtain ⟨mid, hfirst, hsecond⟩ := ih hrest
    exact ⟨mid, ⟨a, b, hle, hne, hx, hfirst⟩, hsecond⟩

theorem of_mem (h : InTurn At lo hi xs) (hx : x ∈ xs) :
    ∃ a b, lo ≤ a ∧ a ≤ b ∧ b ≤ hi ∧ At a b x := by
  obtain ⟨front, back, rfl⟩ := List.append_of_mem hx
  obtain ⟨mid, hfront, a, b, hle, hne, hx, hback⟩ := h.exists_of_append
  exact ⟨a, b, Nat.le_trans hfront.le hle, hne, hback.le, hx⟩

theorem sublist (h : InTurn At lo hi xs) (hsub : ys.Sublist xs) : InTurn At lo hi ys := by
  induction hsub generalizing lo with
  | slnil => exact h
  | cons x _ ih =>
    obtain ⟨a, b, hle, hne, -, hrest⟩ := h
    exact (ih hrest).widen (Nat.le_trans hle hne) (Nat.le_refl _)
  | cons_cons x _ ih =>
    obtain ⟨a, b, hle, hne, hx, hrest⟩ := h
    exact ⟨a, b, hle, hne, hx, ih hrest⟩

-- Spans of things in turn are in a row.
theorem row_flatMap {good : Nat → Prop} {f : α → List Span}
    (hf : ∀ a b x, a ≤ b → At a b x → Row good a b (f x)) (h : InTurn At lo hi xs) :
    Row good lo hi (xs.flatMap f) := by
  induction xs generalizing lo with
  | nil => exact h
  | cons x xs ih =>
    obtain ⟨a, b, hle, hne, hx, hrest⟩ := h
    exact ((hf a b x hne hx).widen hle (Nat.le_refl _)).append (ih hrest)

end InTurn

end Stencil.Span
