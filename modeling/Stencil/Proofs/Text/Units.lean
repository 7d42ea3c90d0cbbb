import Stencil.Proofs.Text.Boundaries
import Stencil.Proofs.Text.Utf8
import Stencil.Text.Classes
import Stencil.Text.Word

/-!
Texts by the bytes of their UTF-8 form. An ASCII character is one byte, and no byte of another
character is one of ASCII, so a scan that goes byte by byte and looks for ASCII characters only
finds them where they stand, and passes over all others.
-/

namespace Stencil

-- The bytes of a text, each as the character of its number.
def units (cs : List Char) : List Char :=
  (cs.flatMap String.utf8EncodeChar).map Char.ofUInt8

theorem units_append (cs ds : List Char) : units (cs ++ ds) = units cs ++ units ds := by
  simp [units]

theorem units_cons (c : Char) (cs : List Char) : units (c :: cs) = units [c] ++ units cs :=
  units_append [c] cs

theorem length_units (cs : List Char) : (units cs).length = byteLength cs := by
  induction cs with
  | nil => rfl
  | cons c cs ih =>
    rw [units_cons, List.length_append, ih, byteLength_cons]
    simp [units, String.length_utf8EncodeChar]

theorem utf8Size_of_ascii {c : Char} (hc : c.toNat < 0x80) : c.utf8Size = 1 :=
  Char.utf8Size_eq_one_iff.2 (UInt32.le_iff_toNat_le.2 (Nat.le_of_lt_succ hc))

theorem ne_of_wide {u d : Char} (hu : 0x80 ≤ u.toNat) (hd : d.toNat < 0x80) : u ≠ d := by
  rintro rfl
  omega

theorem units_of_ascii {c : Char} (hc : c.toNat < 0x80) : units [c] = [c] := by
  have hval : c.val.toNat < 0x80 := hc
  have hunit : Char.ofUInt8 c.toUInt8 = c := by
    apply Char.ext
    apply UInt32.toNat_inj.1
    change (c.val.toUInt8.toUInt32).toNat = c.val.toNat
    rw [UInt8.toNat_toUInt32, UInt32.toNat_toUInt8]
    omega
  simp [units, String.utf8EncodeChar_eq_singleton (utf8Size_of_ascii hc), hunit]

theorem le_of_mem_units {c : Char} (hc : 0x80 ≤ c.toNat) {u : Char} (hu : u ∈ units [c]) :
    0x80 ≤ u.toNat := by
  simp only [units, List.flatMap_singleton, List.mem_map] at hu
  obtain ⟨b, hb, rfl⟩ := hu
  exact Text.le_encodeChar hc b hb

theorem ascii_of_isIdentChar (c : Char) (h : isIdentChar c) : c.toNat < 0x80 := by
  have hval : c.val.toNat = c.toNat := rfl
  delta isIdentChar Char.isAlphanum Char.isAlpha Char.isUpper Char.isLower Char.isDigit at h
  simp only [Bool.or_eq_true, beq_iff_eq, Bool.and_eq_true, decide_eq_true_eq,
    UInt32.le_iff_toNat_le, ge_iff_le, hval] at h
  rcases h with ((⟨-, h⟩ | ⟨-, h⟩) | ⟨-, h⟩) | rfl
  · exact Nat.lt_of_le_of_lt h (by decide)
  · exact Nat.lt_of_le_of_lt h (by decide)
  · exact Nat.lt_of_le_of_lt h (by decide)
  · decide

-- The leading characters of a class of ASCII characters are their units.
theorem takeWhile_units {p : Char → Bool} (hp : ∀ c, p c → c.toNat < 0x80) (cs : List Char) :
    (units cs).takeWhile p = cs.takeWhile p := by
  induction cs with
  | nil => rfl
  | cons c cs ih =>
    rw [units_cons]
    by_cases hc : c.toNat < 0x80
    · rw [units_of_ascii hc, List.singleton_append, List.takeWhile_cons, List.takeWhile_cons, ih]
    · have hwide := Nat.le_of_not_lt hc
      have hnot {u : Char} (hu : 0x80 ≤ u.toNat) : ¬ p u := fun hpu => Nat.not_lt.2 hu (hp u hpu)
      obtain ⟨u, us, hunits⟩ : ∃ u us, units [c] = u :: us := by
        refine List.exists_cons_of_ne_nil fun hnil => ?_
        have hpos := c.utf8Size_pos
        have hlength := length_units [c]
        rw [hnil, byteLength_cons] at hlength
        exact absurd hlength (by simp; omega)
      have hu : 0x80 ≤ u.toNat := le_of_mem_units hwide (hunits ▸ List.mem_cons_self)
      rw [hunits, List.cons_append, List.takeWhile_cons_of_neg (hnot hu),
        List.takeWhile_cons_of_neg (hnot hwide)]

theorem byteLength_of_ascii {cs : List Char} (h : ∀ c ∈ cs, c.toNat < 0x80) :
    byteLength cs = cs.length := by
  induction cs with
  | nil => rfl
  | cons c cs ih =>
    obtain ⟨hc, hcs⟩ := List.forall_mem_cons.1 h
    rw [byteLength_cons, utf8Size_of_ascii hc, ih hcs, List.length_cons, Nat.add_comm]

section Places

variable {source cs rest : List Char} {i : Nat} {c : Char}

theorem dropBytes?_append {part : List Char} (h : dropBytes? i source = some (part ++ rest)) :
    dropBytes? (i + byteLength part) source = some rest := by
  obtain ⟨before, rfl, rfl⟩ := dropBytes?_eq_some_iff.1 h
  rw [← List.append_assoc, ← byteLength_append, dropBytes?_byteLength]

theorem dropBytes?_cons (h : dropBytes? i source = some (c :: rest)) :
    dropBytes? (i + c.utf8Size) source = some rest := by
  have hrest : dropBytes? (i + byteLength [c]) source = some rest := dropBytes?_append h
  rwa [byteLength_cons, byteLength_nil, Nat.add_zero] at hrest

-- A word in front puts off what follows it.
theorem dropBytes?_word {word : List Char} (h : dropBytes? i source = some cs)
    (hword : dropWord? word cs = some rest) :
    dropBytes? (i + byteLength word) source = some rest := by
  rw [dropWord?_eq_some_iff.1 hword] at h
  exact dropBytes?_append h

theorem sliceBytes?_of_drop {part : List Char} (h : dropBytes? i source = some (part ++ rest)) :
    sliceBytes? i (i + byteLength part) source = some part := by
  obtain ⟨before, rfl, hi⟩ := dropBytes?_eq_some_iff.1 h
  exact sliceBytes?_eq_some_iff.2 ⟨before, rest, by simp, hi, rfl⟩

theorem length_units_of_drop (h : dropBytes? i source = some cs) :
    (units source).length = i + byteLength cs := by
  obtain ⟨before, rfl, rfl⟩ := dropBytes?_eq_some_iff.1 h
  rw [length_units, byteLength_append]

theorem lt_length_units (h : dropBytes? i source = some (c :: rest)) :
    i < (units source).length := by
  have hpos := c.utf8Size_pos
  rw [length_units_of_drop h, byteLength_cons]
  omega

theorem drop_units (h : dropBytes? i source = some cs) : (units source).drop i = units cs := by
  obtain ⟨before, rfl, rfl⟩ := dropBytes?_eq_some_iff.1 h
  rw [units_append, ← length_units, List.drop_left]

-- The unit where an ASCII character stands is that character.
theorem unit_of_ascii (h : dropBytes? i source = some (c :: rest)) (hc : c.toNat < 0x80) :
    (units source)[i]? = some c := by
  rw [← List.head?_drop, drop_units h, units_cons, units_of_ascii hc, List.singleton_append,
    List.head?_cons]

-- All units of another character are beyond ASCII.
theorem unit_of_wide {k : Nat} (h : dropBytes? i source = some (c :: rest)) (hc : 0x80 ≤ c.toNat)
    (hk : k < c.utf8Size) : ∃ u, (units source)[i + k]? = some u ∧ 0x80 ≤ u.toNat := by
  have hlt : k < (units [c]).length := by
    rw [length_units]
    exact hk
  refine ⟨(units [c])[k], ?_, le_of_mem_units hc (List.getElem_mem hlt)⟩
  rw [← List.getElem?_drop, drop_units h, units_cons, List.getElem?_append_left hlt,
    List.getElem?_eq_getElem hlt]

-- The unit where some text goes on tells of a class of ASCII characters what its first one does.
theorem any_unit {p : Char → Bool} (hp : ∀ c, p c → c.toNat < 0x80)
    (h : dropBytes? i source = some cs) :
    (units source)[i]?.any p = cs.head?.any p := by
  cases cs with
  | nil =>
    have hend : (units source).length ≤ i := Nat.le_of_eq (length_units_of_drop h)
    rw [List.getElem?_eq_none hend]
    rfl
  | cons c cs =>
    by_cases hc : c.toNat < 0x80
    · rw [unit_of_ascii h hc]
      rfl
    · obtain ⟨u, hu, hwide⟩ : ∃ u, (units source)[i]? = some u ∧ 0x80 ≤ u.toNat :=
        unit_of_wide h (Nat.le_of_not_lt hc) c.utf8Size_pos
      have hnot {d : Char} (hd : ¬ d.toNat < 0x80) : p d = false :=
        Bool.eq_false_iff.2 fun hpd => hd (hp d hpd)
      rw [hu, List.head?_cons, Option.any_some, Option.any_some, hnot hc,
        hnot (Nat.not_lt.2 hwide)]

-- What is the same before and behind any unit beyond ASCII is so for characters.
theorem eq_of_passing {α : Type} {f : Nat → α} {k : Nat}
    (hf : ∀ j u, (units source)[j]? = some u → 0x80 ≤ u.toNat → f j = f (j + 1))
    (h : dropBytes? i source = some (c :: rest)) (hc : 0x80 ≤ c.toNat) (hk : k ≤ c.utf8Size) :
    f (i + k) = f (i + c.utf8Size) := by
  obtain ⟨d, hd⟩ := Nat.exists_eq_add_of_le hk
  induction d generalizing k with
  | zero => rw [hd, Nat.add_zero]
  | succ d ih =>
    obtain ⟨u, hu, hwide⟩ := unit_of_wide (k := k) h hc (by omega)
    rw [← ih (k := k + 1) (by omega) (by omega)]
    exact hf (i + k) u hu hwide

end Places

-- Goes on from unit `i` while the units are of a class.
def skipWhile (p : Char → Bool) (us : List Char) (i : Nat) : Nat :=
  if h : i < us.length then
    if p us[i] then skipWhile p us (i + 1) else i
  else i
termination_by us.length - i

section Skipping

variable {p : Char → Bool} {us : List Char} {i : Nat}

theorem skipWhile_of_getElem? {u : Char} (h : us[i]? = some u) :
    skipWhile p us i = if p u then skipWhile p us (i + 1) else i := by
  obtain ⟨hlt, rfl⟩ := List.getElem?_eq_some_iff.1 h
  rw [skipWhile, dif_pos hlt]

theorem skipWhile_of_le (h : us.length ≤ i) : skipWhile p us i = i := by
  rw [skipWhile, dif_neg (Nat.not_lt.2 h)]

-- A class of ASCII characters is passed over unit by unit.
theorem skipWhile_units {source rest : List Char} (hp : ∀ c, p c → c.toNat < 0x80)
    (h : dropBytes? i source = some rest) :
    skipWhile p (units source) i = i + byteLength (rest.takeWhile p) := by
  induction rest generalizing i with
  | nil => exact skipWhile_of_le (Nat.le_of_eq (length_units_of_drop h))
  | cons c rest ih =>
    by_cases hc : c.toNat < 0x80
    · rw [skipWhile_of_getElem? (unit_of_ascii h hc), List.takeWhile_cons]
      split
      · rw [← utf8Size_of_ascii hc, ih (dropBytes?_cons h), byteLength_cons]
        omega
      · rfl
    · have hwide := Nat.le_of_not_lt hc
      obtain ⟨u, hu, huwide⟩ : ∃ u, (units source)[i]? = some u ∧ 0x80 ≤ u.toNat :=
        unit_of_wide h hwide c.utf8Size_pos
      have hstops {d : Char} (hd : 0x80 ≤ d.toNat) : ¬ p d := fun hpd =>
        Nat.not_lt.2 hd (hp d hpd)
      rw [skipWhile_of_getElem? hu, if_neg (hstops huwide),
        List.takeWhile_cons_of_neg (hstops hwide)]
      rfl

end Skipping

end Stencil
