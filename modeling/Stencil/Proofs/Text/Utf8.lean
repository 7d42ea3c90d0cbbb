import Stencil.Text.Utf8

/-!
Encoded text reads back as it was.
-/

namespace Stencil.Text

theorem toNat_byte {n : Nat} (h : n < 256) : (UInt8.ofNat n).toNat = n := by
  simp [Nat.mod_eq_of_lt h]

-- The byte after the first one that holds the lowest six bits of `n`.
def continuation (n : Nat) : UInt8 := .ofNat (n % 0x40 + 0x80)

theorem toNat_continuation (n : Nat) : (continuation n).toNat = n % 0x40 + 0x80 :=
  toNat_byte (by omega)

theorem isContinuation_continuation (n : Nat) : isContinuation (continuation n) = true := by
  have hbyte := toNat_continuation n
  simp only [isContinuation, Bool.and_eq_true, decide_eq_true_eq, UInt8.le_iff_toNat_le, hbyte]
  exact ⟨Nat.le_add_left _ _, show n % 0x40 + 0x80 ≤ 0xbf by omega⟩

theorem continuations_append {bs : List UInt8} (h : ∀ b ∈ bs, isContinuation b = true)
    (rest : List UInt8) : continuations bs.length (bs ++ rest) = bs := by
  induction bs with
  | nil => simp [continuations]
  | cons b bs ih =>
      have hrest := ih fun c hc => h c (by simp [hc])
      simp [continuations, h b (by simp), hrest]

-- Which first bytes announce how much.
theorem announced?_two {n : Nat} (h : n < 30) :
    announced? (.ofNat (n + 0xc2)) = some (2, 0x80, 0xbf) := by
  have hall : ∀ n < 30, announced? (.ofNat (n + 0xc2)) = some (2, 0x80, 0xbf) := by decide
  exact hall n h

theorem announced?_three {n : Nat} (h : n < 16) :
    announced? (.ofNat (n + 0xe0)) =
      some (3, if n = 0 then 0xa0 else 0x80, if n = 13 then 0x9f else 0xbf) := by
  have hall : ∀ n < 16, announced? (.ofNat (n + 0xe0)) =
      some (3, if n = 0 then 0xa0 else 0x80, if n = 13 then 0x9f else 0xbf) := by decide
  exact hall n h

theorem announced?_four {n : Nat} (h : n < 5) :
    announced? (.ofNat (n + 0xf0)) =
      some (4, if n = 0 then 0x90 else 0x80, if n = 4 then 0x8f else 0xbf) := by
  have hall : ∀ n < 5, announced? (.ofNat (n + 0xf0)) =
      some (4, if n = 0 then 0x90 else 0x80, if n = 4 then 0x8f else 0xbf) := by decide
  exact hall n h

-- A first byte with all that it announces.
theorem readChar_of_announced {b c lo hi : UInt8} (cs : List UInt8) {rest : List UInt8} {n : Nat}
    (hb : 0x80 ≤ b.toNat) (h : announced? b = some (cs.length + 2, lo, hi))
    (hlo : lo.toNat ≤ c.toNat) (hhi : c.toNat ≤ hi.toNat)
    (hcs : ∀ d ∈ c :: cs, isContinuation d = true)
    (hn : codePoint
      (b.toNat - (if cs.length = 0 then 0xc0 else if cs.length = 1 then 0xe0 else 0xf0))
      (c :: cs) = n) :
    readChar b (c :: cs ++ rest) = (some (.ofNat n), (c :: cs).length) := by
  have hlt : ¬ b < 0x80 := by
    rw [UInt8.lt_iff_toNat_lt]
    exact Nat.not_lt.mpr hb
  have hrange : (decide (lo ≤ c) && decide (c ≤ hi)) = true := by
    simp [UInt8.le_iff_toNat_le, hlo, hhi]
  have hrest := continuations_append hcs rest
  simp only [List.length_cons, List.cons_append] at hrest
  simp [readChar, hlt, h, hrange, hrest, ← hn]

-- Characters of two bytes, of three and of four.
theorem readChar_two {n : Nat} (hn : 0x7f < n) (hn' : n ≤ 0x7ff) (rest : List UInt8) :
    readChar (.ofNat (n / 64 % 0x20 + 0xc0)) (continuation n :: rest) = (some (.ofNat n), 1) := by
  have hannounced := announced?_two (n := n / 64 - 2) (by omega)
  have hlead : n / 64 - 2 + 0xc2 = n / 64 % 0x20 + 0xc0 := by omega
  rw [hlead] at hannounced
  have hfirst : (UInt8.ofNat (n / 64 % 0x20 + 0xc0)).toNat = n / 64 % 0x20 + 0xc0 :=
    toNat_byte (by omega)
  refine readChar_of_announced [] (by omega) hannounced ?_ ?_ ?_ ?_
  · rw [toNat_continuation]
    exact Nat.le_add_left _ _
  · rw [toNat_continuation]
    exact show n % 0x40 + 0x80 ≤ 0xbf by omega
  · simp [isContinuation_continuation]
  · rw [hfirst]
    simp only [codePoint, List.foldl_cons, List.foldl_nil, toNat_continuation, List.length_nil]
    simp
    omega

theorem readChar_three {n : Nat} (hn : 0x7ff < n) (hn' : n ≤ 0xffff)
    (hvalid : n < 0xd800 ∨ 0xdfff < n) (rest : List UInt8) :
    readChar (.ofNat (n / 4096 % 0x10 + 0xe0))
      (continuation (n / 64) :: continuation n :: rest) = (some (.ofNat n), 2) := by
  have hannounced := announced?_three (n := n / 4096 % 0x10) (by omega)
  have hfirst : (UInt8.ofNat (n / 4096 % 0x10 + 0xe0)).toNat = n / 4096 % 0x10 + 0xe0 :=
    toNat_byte (by omega)
  refine readChar_of_announced [continuation n] (by omega) hannounced ?_ ?_ ?_ ?_
  · rw [toNat_continuation]
    split
    · exact show 0xa0 ≤ n / 64 % 0x40 + 0x80 by omega
    · exact Nat.le_add_left _ _
  · rw [toNat_continuation]
    split
    · exact show n / 64 % 0x40 + 0x80 ≤ 0x9f by omega
    · exact show n / 64 % 0x40 + 0x80 ≤ 0xbf by omega
  · simp [isContinuation_continuation]
  · rw [hfirst]
    simp only [codePoint, List.foldl_cons, List.foldl_nil, toNat_continuation]
    simp
    omega

theorem readChar_four {n : Nat} (hn : 0xffff < n) (hn' : n < 0x110000) (rest : List UInt8) :
    readChar (.ofNat (n / 262144 % 0x08 + 0xf0))
        (continuation (n / 4096) :: continuation (n / 64) :: continuation n :: rest) =
      (some (.ofNat n), 3) := by
  have hannounced := announced?_four (n := n / 262144 % 0x08) (by omega)
  have hfirst : (UInt8.ofNat (n / 262144 % 0x08 + 0xf0)).toNat = n / 262144 % 0x08 + 0xf0 :=
    toNat_byte (by omega)
  refine readChar_of_announced [continuation (n / 64), continuation n] (by omega) hannounced
    ?_ ?_ ?_ ?_
  · rw [toNat_continuation]
    split
    · exact show 0x90 ≤ n / 4096 % 0x40 + 0x80 by omega
    · exact Nat.le_add_left _ _
  · rw [toNat_continuation]
    split
    · exact show n / 4096 % 0x40 + 0x80 ≤ 0x8f by omega
    · exact show n / 4096 % 0x40 + 0x80 ≤ 0xbf by omega
  · simp [isContinuation_continuation]
  · rw [hfirst]
    simp only [codePoint, List.foldl_cons, List.foldl_nil, toNat_continuation]
    simp
    omega

-- The highest bit is set in all bytes of a character beyond ASCII.
theorem le_encodeChar {c : Char} (h : 0x7f < c.toNat) :
    ∀ b ∈ String.utf8EncodeChar c, 0x80 ≤ b.toNat := by
  have hval : c.val.toNat = c.toNat := rfl
  unfold String.utf8EncodeChar
  dsimp only
  rw [hval, if_neg (Nat.not_le.mpr h)]
  split
  · simp
    omega
  · split
    · simp
      omega
    · simp
      omega

-- What an encoded character reads as, after its first byte.
theorem readChar_encodeChar (c : Char) (rest : List UInt8) :
    ∃ b bs, String.utf8EncodeChar c = b :: bs ∧ readChar b (bs ++ rest) = (some c, bs.length) := by
  have hvalid : c.toNat < 0xd800 ∨ 0xdfff < c.toNat ∧ c.toNat < 0x110000 := c.valid
  have hself : Char.ofNat c.toNat = c := Char.ofNat_toNat c
  have hval : c.val.toNat = c.toNat := rfl
  unfold String.utf8EncodeChar
  dsimp only
  rw [hval]
  generalize c.toNat = n at hvalid hself
  rw [← hself]
  by_cases h1 : n ≤ 0x7f
  · rw [if_pos h1]
    refine ⟨_, _, rfl, ?_⟩
    have hlt : UInt8.ofNat n < 0x80 := by
      rw [UInt8.lt_iff_toNat_lt, toNat_byte (by omega)]
      exact Nat.lt_succ_of_le h1
    simp [readChar, hlt, Nat.mod_eq_of_lt (show n < 256 by omega)]
  rw [if_neg h1]
  by_cases h2 : n ≤ 0x7ff
  · rw [if_pos h2]
    exact ⟨_, [continuation n], rfl, readChar_two (by omega) h2 rest⟩
  rw [if_neg h2]
  by_cases h3 : n ≤ 0xffff
  · rw [if_pos h3]
    exact ⟨_, [continuation (n / 64), continuation n], rfl,
      readChar_three (by omega) h3 (by omega) rest⟩
  · rw [if_neg h3]
    exact ⟨_, [continuation (n / 4096), continuation (n / 64), continuation n], rfl,
      readChar_four (by omega) (by omega) rest⟩

theorem readChars_skip (bs rest : List UInt8) :
    readChars bs.length (bs ++ rest) = readChars 0 rest := by
  induction bs with
  | nil => rfl
  | cons b bs ih => simpa [readChars] using ih

theorem readChars_encode (cs : List Char) :
    readChars 0 (cs.flatMap String.utf8EncodeChar) = cs.map some := by
  induction cs with
  | nil => rfl
  | cons c cs ih =>
      obtain ⟨b, bs, hencode, hread⟩ :=
        readChar_encodeChar c (cs.flatMap String.utf8EncodeChar)
      rw [List.flatMap_cons, hencode, List.cons_append, readChars, hread]
      dsimp only
      rw [readChars_skip, ih, List.map_cons]

end Stencil.Text
