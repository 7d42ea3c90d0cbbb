import Stencil.Source.Error

/-!
Places between the characters of a text, and slices of a text that fail where they begin or end
anywhere else. A reading by such slices fails with them.
-/

namespace Stencil

-- Byte `n` stands between two characters of the text, or at one of its ends. The text itself begins
-- at byte `pos`.
def Boundary (pos : Nat) (cs : List Char) (n : Nat) : Prop :=
  ∃ before after, cs = before ++ after ∧ n = pos + byteLength before

theorem boundary_start (pos : Nat) (cs : List Char) : Boundary pos cs pos := ⟨[], cs, rfl, rfl⟩

theorem boundary_stop (pos : Nat) (cs : List Char) : Boundary pos cs (pos + byteLength cs) :=
  ⟨cs, [], by simp, rfl⟩

theorem Boundary.le {pos n : Nat} {cs : List Char} (h : Boundary pos cs n) :
    n ≤ pos + byteLength cs := by
  obtain ⟨before, after, rfl, rfl⟩ := h
  rw [byteLength_append]
  omega

-- A place in a part of a text is one in the text.
theorem Boundary.within {pos n : Nat} {cs : List Char} {before : List Char}
    (h : Boundary (pos + byteLength before) cs n) (after : List Char) :
    Boundary pos (before ++ cs ++ after) n := by
  obtain ⟨x, y, rfl, rfl⟩ := h
  exact ⟨before ++ x, y ++ after, by simp, by rw [byteLength_append]; omega⟩

theorem Boundary.behind {pos n : Nat} {cs : List Char} {before : List Char}
    (h : Boundary (pos + byteLength before) cs n) : Boundary pos (before ++ cs) n := by
  simpa using h.within []

theorem Boundary.cons {pos n : Nat} {cs : List Char} {c : Char}
    (h : Boundary (pos + c.utf8Size) cs n) : Boundary pos (c :: cs) n := by
  obtain ⟨before, after, rfl, rfl⟩ := h
  exact ⟨c :: before, after, rfl, by rw [byteLength_cons]; omega⟩

-- The span is that of a part of the text.
structure Span.LiesIn (s : Span) (cs : List Char) : Prop where
  intro ::
  le : s.start ≤ s.stop
  start : Boundary 0 cs s.start
  stop : Boundary 0 cs s.stop
  within : s.stop ≤ byteLength cs

theorem Span.liesIn_of_append {before part after : List Char} : Span.LiesIn
    ⟨byteLength before, byteLength before + byteLength part⟩ (before ++ part ++ after) where
  le := Nat.le_add_right _ _
  start := ⟨before, part ++ after, by simp, by simp⟩
  stop := ⟨before ++ part, after, rfl, by simp⟩
  within := by simp

theorem Span.LiesIn.cover {s t : Span} {cs : List Char} (hs : s.LiesIn cs) (ht : t.LiesIn cs) :
    (s.cover t).LiesIn cs where
  le := Nat.le_trans (Nat.min_le_left _ _) (Nat.le_trans hs.le (Nat.le_max_left _ _))
  start := by
    rw [Span.cover, Nat.min_def]
    split
    · exact hs.start
    · exact ht.start
  stop := by
    rw [Span.cover, Nat.max_def]
    split
    · exact ht.stop
    · exact hs.stop
  within := Nat.max_le.2 ⟨hs.within, ht.within⟩

theorem byteLength_pos_of_lt {cs m rest : List Char} (h : cs = m ++ rest)
    (hlt : rest.length < cs.length) : 0 < byteLength m := by
  cases m with
  | nil =>
    rw [h] at hlt
    exact absurd hlt (Nat.lt_irrefl _)
  | cons c m =>
    rw [byteLength_cons]
    exact Nat.lt_of_lt_of_le c.utf8Size_pos (Nat.le_add_right _ _)

-- What follows the first `n` bytes.
def dropBytes? : Nat → List Char → Option (List Char)
  | 0, cs => some cs
  | _ + 1, [] => none
  | n + 1, c :: cs => if c.utf8Size ≤ n + 1 then dropBytes? (n + 1 - c.utf8Size) cs else none

-- The first `n` bytes.
def takeBytes? : Nat → List Char → Option (List Char)
  | 0, _ => some []
  | _ + 1, [] => none
  | n + 1, c :: cs =>
    if c.utf8Size ≤ n + 1 then (takeBytes? (n + 1 - c.utf8Size) cs).map (c :: ·) else none

-- The bytes from `start` up to `stop`.
def sliceBytes? (start stop : Nat) (cs : List Char) : Option (List Char) :=
  if start ≤ stop then (dropBytes? start cs).bind (takeBytes? (stop - start)) else none

theorem dropBytes?_byteLength (before cs : List Char) :
    dropBytes? (byteLength before) (before ++ cs) = some cs := by
  induction before with
  | nil => cases cs <;> rfl
  | cons c before ih =>
    have hpos := c.utf8Size_pos
    obtain ⟨n, hn⟩ := Nat.exists_eq_add_one.2 (show 0 < c.utf8Size + byteLength before by omega)
    rw [byteLength_cons, hn, List.cons_append, dropBytes?, if_pos (by omega), ← hn,
      Nat.add_sub_cancel_left, ih]

theorem takeBytes?_byteLength (cs after : List Char) :
    takeBytes? (byteLength cs) (cs ++ after) = some cs := by
  induction cs with
  | nil => cases after <;> rfl
  | cons c cs ih =>
    have hpos := c.utf8Size_pos
    obtain ⟨n, hn⟩ := Nat.exists_eq_add_one.2 (show 0 < c.utf8Size + byteLength cs by omega)
    rw [byteLength_cons, hn, List.cons_append, takeBytes?, if_pos (by omega), ← hn,
      Nat.add_sub_cancel_left, ih]
    rfl

-- Such a slice is there if it begins and ends between characters, and only then.
theorem dropBytes?_eq_some_iff {n : Nat} {cs rest : List Char} :
    dropBytes? n cs = some rest ↔ ∃ before, cs = before ++ rest ∧ byteLength before = n := by
  constructor
  · intro h
    fun_induction dropBytes? n cs with
    | case1 => exact ⟨[], Option.some.inj h, rfl⟩
    | case2 => cases h
    | case3 n c cs hle ih =>
      obtain ⟨before, rfl, hbefore⟩ := ih h
      exact ⟨c :: before, rfl, by rw [byteLength_cons, hbefore]; omega⟩
    | case4 => cases h
  · rintro ⟨before, rfl, rfl⟩
    exact dropBytes?_byteLength before rest

theorem takeBytes?_eq_some_iff {n : Nat} {cs part : List Char} :
    takeBytes? n cs = some part ↔ ∃ after, cs = part ++ after ∧ byteLength part = n := by
  constructor
  · intro h
    fun_induction takeBytes? n cs generalizing part with
    | case1 cs =>
      obtain rfl := Option.some.inj h
      exact ⟨cs, rfl, rfl⟩
    | case2 => cases h
    | case3 n c cs hle ih =>
      obtain ⟨part, hpart, rfl⟩ := Option.map_eq_some_iff.1 h
      obtain ⟨after, rfl, hlength⟩ := ih hpart
      exact ⟨after, rfl, by rw [byteLength_cons, hlength]; omega⟩
    | case4 => cases h
  · rintro ⟨after, rfl, rfl⟩
    exact takeBytes?_byteLength part after

theorem sliceBytes?_eq_some_iff {start stop : Nat} {cs part : List Char} :
    sliceBytes? start stop cs = some part ↔ ∃ before after, cs = before ++ part ++ after ∧
      byteLength before = start ∧ start + byteLength part = stop := by
  constructor
  · intro h
    rw [sliceBytes?] at h
    split at h
    · next hle =>
      obtain ⟨rest, hdrop, htake⟩ := Option.bind_eq_some_iff.1 h
      obtain ⟨before, rfl, hbefore⟩ := dropBytes?_eq_some_iff.1 hdrop
      obtain ⟨after, rfl, hpart⟩ := takeBytes?_eq_some_iff.1 htake
      exact ⟨before, after, by simp, hbefore, by omega⟩
    · cases h
  · rintro ⟨before, after, rfl, rfl, rfl⟩
    rw [sliceBytes?, if_pos (Nat.le_add_right _ _), List.append_assoc, dropBytes?_byteLength,
      Option.bind_some, Nat.add_sub_cancel_left, takeBytes?_byteLength]

-- A reading by slices, which gives nothing where a slice fails and may find a fault.
abbrev Checked := ExceptT Fault Option

namespace Checked

variable {α β : Type}

theorem bind_of_ok {x : Checked α} {a : α} (h : x = some (.ok a)) (f : α → Checked β) :
    (x >>= f) = f a := by
  subst h
  rfl

theorem bind_ofExcept (a : α) (f : α → Checked β) :
    ((ofExcept (.ok a : Except Fault α) : Checked α) >>= f) = f a := rfl

theorem bind_lift (a : α) (f : α → Checked β) : ((liftM (some a) : Checked α) >>= f) = f a := rfl

end Checked

end Stencil
