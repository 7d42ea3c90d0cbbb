import Stencil.Proofs.Number.Rounding
import Stencil.Render.Operators

/-!
Comparing by value. An integer and a float are compared after the integer is rounded to a float, so
two different numbers can come out as equal. Main statement: where that is not so the comparison is
that of the exact numbers, and equality is not transitive just where two integers become one float.
-/

namespace Stencil

open Number (Exact floatOfWord Nearest)

variable {ρ : Type}

theorem compareFloats?_eq {x y : Float} {u v : Exact} (hx : Number.value? x = some u)
    (hy : Number.value? y = some v) : compareFloats? x y = some (cmp u v) := by
  unfold compareFloats?
  rcases lt_trichotomy u v with hlt | rfl | hgt
  · rw [if_pos ((Number.float_lt_iff hx hy).2 hlt), (cmp_eq_lt_iff u v).2 hlt]
  · rw [if_neg ((Number.float_lt_iff hx hy).not.2 (lt_irrefl u)),
      if_pos ((Number.float_beq_iff hx hy).2 rfl), cmp_self_eq_eq]
  · rw [if_neg ((Number.float_lt_iff hx hy).not.2 hgt.not_gt),
      if_neg ((Number.float_beq_iff hx hy).not.2 hgt.ne'),
      if_pos ((Number.float_lt_iff hy hx).2 hgt), (cmp_eq_gt_iff u v).2 hgt]

namespace Value

-- The number that a value is.
def number? : Value ρ → Option Exact
  | int n => some ((n.toInt : ℚ) : Exact)
  | float x => Number.value? x
  | _ => none

-- The number that it becomes where it is compared as a float.
def rounded? (v : Value ρ) : Option Exact := v.float?.bind Number.value?

-- Two numbers that become the same float, and are of different kinds and not the same.
def Blurred (a b : Value ρ) : Prop :=
  a.kind ≠ b.kind ∧ a.rounded? = b.rounded? ∧ a.number? ≠ b.number?

-- A value in which every float is a number.
inductive NanFree : Value ρ → Prop where
  | null : NanFree null
  | bool (b : Bool) : NanFree (bool b)
  | int (n : Int64) : NanFree (int n)
  | float {x : Float} (h : x.isNaN = false) : NanFree (float x)
  | text (s : String) : NanFree (text s)
  | list {items : List (Value ρ)} (h : ∀ v ∈ items, NanFree v) : NanFree (list items)
  | record (r : ρ) : NanFree (record r)

-- Two integers that are not the same, with a float in between, at some place of three values.
inductive Bridges : Value ρ → Value ρ → Value ρ → Prop where
  | number {n m : Int64} (x : Float) (h : n ≠ m) : Bridges (int n) (float x) (int m)
  | list {us vs ws : List (Value ρ)} {u v w : Value ρ} (i : Nat) (hu : us[i]? = some u)
    (hv : vs[i]? = some v) (hw : ws[i]? = some w) (h : Bridges u v w) :
    Bridges (list us) (list vs) (list ws)

-- A number with what it is and what it becomes as a float.
inductive Rounds : Value ρ → Exact → Exact → Prop where
  | int (n : Int64) {r : ℚ} (hr : Number.value? (floatOfWord n) = some (r : Exact))
    (h : Nearest n.toInt r) : Rounds (int n) (n.toInt : ℚ) r
  | float {x : Float} {u : Exact} (h : Number.value? x = some u) : Rounds (float x) u u

section Rounding

variable {a b c : Value ρ} {x y z r s t : Exact}

theorem exists_rounds (h : a.number? = some x) : ∃ r, a.Rounds x r := by
  cases a with
  | int n =>
    cases h
    obtain ⟨r, hr, hnearest⟩ := Number.nearest_floatOfWord n
    exact ⟨r, .int n hr hnearest⟩
  | float f => exact ⟨x, .float h⟩
  | _ => cases h

theorem Rounds.number?_eq (h : a.Rounds x r) : a.number? = some x := by
  cases h with
  | int n hr h => rfl
  | float h => exact h

theorem Rounds.rounded?_eq (h : a.Rounds x r) : a.rounded? = some r := by
  cases h with
  | int n hr h => exact hr
  | float h => exact h

-- Rounding keeps the order of numbers, up to making them equal.
theorem Rounds.mono (h : a.Rounds x r) (h' : b.Rounds y s) (hle : x ≤ y) : r ≤ s := by
  cases h with
  | int n hr hn =>
    cases h' with
    | int m hs hm =>
      have hnm : (n.toInt : ℚ) ≤ m.toInt := WithTop.coe_le_coe.1 (WithBot.coe_le_coe.1 hle)
      rcases hnm.lt_or_eq with hlt | heq
      · exact WithBot.coe_le_coe.2 (WithTop.coe_le_coe.2 (hn.mono hm hlt))
      · obtain rfl : n = m := Int64.toInt_inj.1 (by exact_mod_cast heq)
        exact (Option.some_inj.1 (hr.symm.trans hs)).le
    | float hs => exact hn.exact_le hs hle
  | float hr =>
    cases h' with
    | int m hs hm => exact hm.le_exact hr hle
    | float hs => exact hle

theorem Rounds.lt_of_lt (h : a.Rounds x r) (h' : b.Rounds y s) (hlt : r < s) : x < y :=
  lt_of_not_ge fun hle => (h'.mono h hle).not_gt hlt

end Rounding

section Equality

variable [DecidableEq ρ]

theorem looseEqAll_iff {as bs : List (Value ρ)} :
    looseEqAll as bs = true ↔ List.Forall₂ (fun a b => a.looseEq b = true) as bs := by
  induction as generalizing bs with
  | nil => cases bs <;> simp [looseEqAll]
  | cons a as ih => cases bs <;> simp [looseEqAll, ih]

theorem NanFree.looseEq_self {v : Value ρ} (h : v.NanFree) : v.looseEq v = true := by
  induction h with
  | float h =>
    obtain ⟨u, hu⟩ := Number.exists_value? h
    exact Number.float_beq_eq_true_iff.2 ⟨u, hu, hu⟩
  | list h ih => exact looseEqAll_iff.2 (List.forall₂_same.2 ih)
  | null => rfl
  | _ => exact beq_self_eq_true _

mutual

theorem looseEq_comm : ∀ a b : Value ρ, a.looseEq b = b.looseEq a
  | .null, b => by cases b <;> rfl
  | .bool _, b => by
      cases b with
      | bool => exact BEq.comm
      | _ => rfl
  | .int _, b => by
      cases b with
      | int => exact BEq.comm
      | float => exact Number.float_beq_comm _ _
      | _ => rfl
  | .float _, b => by
      cases b with
      | int | float => exact Number.float_beq_comm _ _
      | _ => rfl
  | .text _, b => by
      cases b with
      | text => exact BEq.comm
      | _ => rfl
  | .list as, b => by
      cases b with
      | list bs => exact looseEqAll_comm as bs
      | _ => rfl
  | .record _, b => by
      cases b with
      | record => exact BEq.comm
      | _ => rfl

theorem looseEqAll_comm : ∀ as bs : List (Value ρ), looseEqAll as bs = looseEqAll bs as
  | [], [] | [], _ :: _ | _ :: _, [] => rfl
  | a :: as, b :: bs => congrArg₂ (· && ·) (looseEq_comm a b) (looseEqAll_comm as bs)

end

omit [DecidableEq ρ] in
theorem bridges_cons {u v w : Value ρ} {us vs ws : List (Value ρ)} :
    Bridges (.list (u :: us)) (.list (v :: vs)) (.list (w :: ws)) ↔
      Bridges u v w ∨ Bridges (.list us) (.list vs) (.list ws) := by
  constructor
  · intro h
    cases h with
    | list i hu hv hw h =>
      cases i with
      | zero =>
        cases hu
        cases hv
        cases hw
        exact .inl h
      | succ i => exact .inr (.list i hu hv hw h)
  · rintro (h | h)
    · exact .list 0 rfl rfl rfl h
    · cases h with
      | list i hu hv hw h => exact .list (i + 1) hu hv hw h

-- What is neither a number nor a list is equal to itself only.
theorem eq_of_looseEq {u v : Value ρ} (h : u.looseEq v = true) (hnumber : u.float? = none)
    (hlist : u.list? = none) : v = u := by
  cases u with
  | null =>
    cases v with
    | null => rfl
    | _ => cases h
  | bool a =>
    cases v with
    | bool b => exact congrArg bool (beq_iff_eq.1 h).symm
    | _ => cases h
  | text a =>
    cases v with
    | text b => exact congrArg text (beq_iff_eq.1 h).symm
    | _ => cases h
  | record a =>
    cases v with
    | record b => exact congrArg record (beq_iff_eq.1 h).symm
    | _ => cases h
  | int | float => cases hnumber
  | list => cases hlist

mutual

-- Equality carries over, unless it goes from an integer to another by way of a float.
theorem looseEq_iff_not_bridges : ∀ {u v w : Value ρ}, u.looseEq v = true → v.looseEq w = true →
    (u.looseEq w = true ↔ ¬Bridges u v w)
  | .int n, v, w, h, h' => by
      cases v with
      | int m =>
        obtain rfl : n = m := beq_iff_eq.1 h
        exact iff_of_true h' nofun
      | float x =>
        cases w with
        | int m =>
          refine beq_iff_eq.trans ⟨?_, fun hb => not_not.1 fun hne => hb (.number x hne)⟩
          rintro rfl (⟨-, hne⟩)
          exact hne rfl
        | float y => exact iff_of_true (Number.float_beq_trans h h') nofun
        | _ => cases h'
      | _ => cases h
  | .float x, v, w, h, h' => by
      cases v with
      | int n =>
        cases w with
        | int m =>
          obtain rfl : n = m := beq_iff_eq.1 h'
          exact iff_of_true h nofun
        | float y => exact iff_of_true (Number.float_beq_trans h h') nofun
        | _ => cases h'
      | float y =>
        cases w with
        | int _ | float _ => exact iff_of_true (Number.float_beq_trans h h') nofun
        | _ => cases h'
      | _ => cases h
  | .list us, v, w, h, h' => by
      cases v with
      | list vs =>
        cases w with
        | list ws => exact looseEqAll_iff_not_bridges h h'
        | _ => cases h'
      | _ => cases h
  | .null, _, _, h, h' | .bool _, _, _, h, h' | .text _, _, _, h, h' | .record _, _, _, h, h' => by
      obtain rfl := eq_of_looseEq h rfl rfl
      exact iff_of_true h' nofun

theorem looseEqAll_iff_not_bridges : ∀ {us vs ws : List (Value ρ)}, looseEqAll us vs = true →
    looseEqAll vs ws = true →
      (looseEqAll us ws = true ↔ ¬Bridges (.list us) (.list vs) (.list ws))
  | [], [], [], _, _ => iff_of_true rfl fun h => by cases h; contradiction
  | u :: us, v :: vs, w :: ws, h, h' => by
      obtain ⟨hu, hus⟩ := Bool.and_eq_true_iff.1 h
      obtain ⟨hv, hvs⟩ := Bool.and_eq_true_iff.1 h'
      rw [bridges_cons, not_or, ← looseEq_iff_not_bridges hu hv,
        ← looseEqAll_iff_not_bridges hus hvs]
      exact Bool.and_eq_true_iff
  | [], _ :: _, _, h, _ | _ :: _, [], _, h, _ => by cases h
  | [], [], _ :: _, _, h' | _ :: _, _ :: _, [], _, h' => by cases h'

end

end Equality

section Order

variable {a b c : Value ρ} {x y z r s t : Exact}

-- Are both values integers?
def AreInts (a b : Value ρ) : Prop := a.kind = .int ∧ b.kind = .int

instance : Decidable (AreInts a b) := inferInstanceAs (Decidable (_ ∧ _))

-- Two integers are compared as they are, all other numbers as floats.
theorem Rounds.compare?_eq (h : a.Rounds x r) (h' : b.Rounds y s) :
    a.compare? b = some (if AreInts a b then cmp x y else cmp r s) := by
  cases h with
  | int n hr hn =>
    cases h' with
    | int m hs hm =>
      have hcast : StrictMono fun k : Int => (k : ℚ) := Int.cast_strictMono
      rw [if_pos ⟨rfl, rfl⟩, Number.cmp_rational, hcast.cmp_map_eq, cmp_eq_compare]
      rfl
    | float hs =>
      rw [if_neg (fun hints => nomatch hints.2)]
      exact compareFloats?_eq hr hs
  | float hr =>
    rw [if_neg (fun hints => nomatch hints.1)]
    cases h' with
    | int m hs hm => exact compareFloats?_eq hr hs
    | float hs => exact compareFloats?_eq hr hs

theorem Rounds.looseEq_iff [DecidableEq ρ] (h : a.Rounds x r) (h' : b.Rounds y s) :
    a.looseEq b = true ↔ a.compare? b = some .eq := by
  have hfloats {f g : Float} {u v : Exact} (hf : Number.value? f = some u)
      (hg : Number.value? g = some v) : (f == g) = true ↔ compareFloats? f g = some .eq := by
    rw [Number.float_beq_iff hf hg, compareFloats?_eq hf hg, Option.some_inj, cmp_eq_eq_iff]
  cases h with
  | int n hr hn =>
    cases h' with
    | int m hs hm =>
      refine beq_iff_eq.trans (Int64.toInt_inj.symm.trans ?_)
      exact compare_eq_iff_eq.symm.trans Option.some_inj.symm
    | float hs => exact hfloats hr hs
  | float hr =>
    cases h' with
    | int m hs hm => exact hfloats hr hs
    | float hs => exact hfloats hr hs

-- Numbers that become the same float are the same, unless they are blurred or both are integers.
theorem Rounds.eq_or_blurred (h : a.Rounds x r) (h' : b.Rounds y r) (hints : ¬AreInts a b) :
    x = y ∨ Blurred a b := by
  by_cases hkind : a.kind = b.kind
  · cases h with
    | int n hr hn => exact absurd ⟨rfl, hkind.symm⟩ hints
    | float hr =>
      cases h' with
      | int m hs hm => exact absurd ⟨hkind, rfl⟩ hints
      | float hs => exact .inl rfl
  · by_cases hxy : x = y
    · exact .inl hxy
    · refine .inr ⟨hkind, h.rounded?_eq.trans h'.rounded?_eq.symm, fun heq => hxy ?_⟩
      exact Option.some_inj.1 (h.number?_eq.symm.trans (heq.trans h'.number?_eq))

theorem Rounds.eq_of_blurred (h : a.Rounds x r) (h' : b.Rounds y s) (hb : Blurred a b) : r = s :=
  Option.some_inj.1 (h.rounded?_eq.symm.trans (hb.2.1.trans h'.rounded?_eq))

-- A comparison is that of the numbers, unless they are blurred: then they count as equal.
theorem Rounds.compare?_cases (h : a.Rounds x r) (h' : b.Rounds y s) :
    Blurred a b ∧ a.compare? b = some .eq ∨ ¬Blurred a b ∧ a.compare? b = some (cmp x y) := by
  rw [h.compare?_eq h']
  by_cases hints : AreInts a b
  · rw [if_pos hints]
    exact .inr ⟨fun hb => hb.1 (hints.1.trans hints.2.symm), rfl⟩
  rw [if_neg hints]
  rcases lt_trichotomy r s with hlt | rfl | hgt
  · rw [(cmp_eq_lt_iff r s).2 hlt, (cmp_eq_lt_iff x y).2 (h.lt_of_lt h' hlt)]
    exact .inr ⟨fun hb => hlt.ne (h.eq_of_blurred h' hb), rfl⟩
  · rw [cmp_self_eq_eq]
    by_cases hb : Blurred a b
    · exact .inl ⟨hb, rfl⟩
    · obtain rfl := (h.eq_or_blurred h' hints).resolve_right hb
      exact .inr ⟨hb, by rw [cmp_self_eq_eq]⟩
  · rw [(cmp_eq_gt_iff r s).2 hgt, (cmp_eq_gt_iff x y).2 (h'.lt_of_lt h hgt)]
    exact .inr ⟨fun hb => hgt.ne' (h.eq_of_blurred h' hb), rfl⟩

theorem Rounds.compare?_eq_lt_iff (h : a.Rounds x r) (h' : b.Rounds y s) :
    a.compare? b = some .lt ↔ x < y ∧ (¬AreInts a b → r < s) := by
  rw [h.compare?_eq h', Option.some_inj]
  by_cases hints : AreInts a b
  · rw [if_pos hints, cmp_eq_lt_iff]
    exact ⟨fun hlt => ⟨hlt, fun hclear => absurd hints hclear⟩, fun hlt => hlt.1⟩
  · rw [if_neg hints, cmp_eq_lt_iff]
    exact ⟨fun hlt => ⟨h.lt_of_lt h' hlt, fun _ => hlt⟩, fun hlt => hlt.2 hints⟩

theorem Rounds.compare?_ne_gt_iff (h : a.Rounds x r) (h' : b.Rounds y s) :
    a.compare? b ≠ some .gt ↔ r ≤ s ∧ (AreInts a b → x ≤ y) := by
  rw [h.compare?_eq h', Ne, Option.some_inj]
  by_cases hints : AreInts a b
  · rw [if_pos hints, cmp_eq_gt_iff, not_lt]
    exact ⟨fun hle => ⟨h.mono h' hle, fun _ => hle⟩, fun hle => hle.2 hints⟩
  · rw [if_neg hints, cmp_eq_gt_iff, not_lt]
    exact ⟨fun hle => ⟨hle, fun hclear => absurd hclear hints⟩, fun hle => hle.1⟩

-- Of two steps up, one goes up as floats, or all three are integers.
theorem Rounds.lt_trans (ha : a.Rounds x r) (hb : b.Rounds y s) (hc : c.Rounds z t)
    (hab : a.compare? b = some .lt) (hbc : b.compare? c = some .lt) :
    a.compare? c = some .lt := by
  obtain ⟨hxy, hrs⟩ := (ha.compare?_eq_lt_iff hb).1 hab
  obtain ⟨hyz, hst⟩ := (hb.compare?_eq_lt_iff hc).1 hbc
  refine (ha.compare?_eq_lt_iff hc).2 ⟨hxy.trans hyz, fun hints => ?_⟩
  by_cases hb' : b.kind = .int
  · by_cases ha' : a.kind = .int
    · have hlt := hst fun h => hints ⟨ha', h.2⟩
      exact (ha.mono hb hxy.le).trans_lt hlt
    · have hlt := hrs fun h => ha' h.1
      exact hlt.trans_le (hb.mono hc hyz.le)
  · exact (hrs fun h => hb' h.2).trans (hst fun h => hb' h.1)

theorem Rounds.le_trans (ha : a.Rounds x r) (hb : b.Rounds y s) (hc : c.Rounds z t)
    (hab : a.compare? b ≠ some .gt) (hbc : b.compare? c ≠ some .gt) (hbridge : ¬Bridges a b c) :
    a.compare? c ≠ some .gt := by
  obtain ⟨hrs, hxy⟩ := (ha.compare?_ne_gt_iff hb).1 hab
  obtain ⟨hst, hyz⟩ := (hb.compare?_ne_gt_iff hc).1 hbc
  refine (ha.compare?_ne_gt_iff hc).2 ⟨hrs.trans hst, fun hints => ?_⟩
  cases hb with
  | int m hs hm => exact (hxy ⟨hints.1, rfl⟩).trans (hyz ⟨rfl, hints.2⟩)
  | float hs =>
    cases ha with
    | float hr => cases hints.1
    | int n hr hn =>
      cases hc with
      | float ht => cases hints.2
      | int k ht hk =>
        obtain rfl : n = k := not_not.1 fun hne => hbridge (.number _ hne)
        exact le_rfl

theorem Rounds.eq_of_natAbs_le (h : a.Rounds x r)
    (hsmall : ∀ n : Int64, a = .int n → n.toInt.natAbs ≤ 2 ^ 53) : r = x := by
  cases h with
  | int n hr hn => rw [hn.eq_of_precise (Number.precise_int (hsmall n rfl))]
  | float hr => rfl

-- An integer that is blurred is too large for the 53 bits of a float.
theorem Rounds.exists_lt_natAbs (h : a.Rounds x r) (h' : b.Rounds y s) (hb : Blurred a b) :
    ∃ n : Int64, (a = .int n ∨ b = .int n) ∧ 2 ^ 53 < n.toInt.natAbs := by
  by_contra hnone
  have hsmall (n : Int64) (hn : a = .int n ∨ b = .int n) : n.toInt.natAbs ≤ 2 ^ 53 :=
    not_lt.1 fun hlt => hnone ⟨n, hn, hlt⟩
  have hx := h.eq_of_natAbs_le fun n hn => hsmall n (.inl hn)
  have hy := h'.eq_of_natAbs_le fun n hn => hsmall n (.inr hn)
  exact hb.2.2 (by rw [h.number?_eq, h'.number?_eq, ← hx, ← hy, h.eq_of_blurred h' hb])

end Order

end Value

section Operators

variable {a b c : Value ρ}

-- Does a comparison come out as true?
def OrderOp.Accepts (op : OrderOp) (a b : Value ρ) : Prop := op.apply a b = .ok (.bool true)

theorem OrderOp.apply_eq {o : Ordering} (op : OrderOp) (h : a.compare? b = some o) :
    op.apply a b = .ok (.bool (op.holds o)) := by
  have ha : a.isNull = false := by
    cases a with
    | null => cases b <;> cases h
    | _ => rfl
  have hb : b.isNull = false := by
    cases b with
    | null => cases a <;> cases h
    | _ => rfl
  rw [apply, ha, hb, h]
  rfl

theorem OrderOp.accepts_iff {o : Ordering} (op : OrderOp) (h : a.compare? b = some o) :
    op.Accepts a b ↔ op.holds o = true := by
  rw [Accepts, op.apply_eq h]
  simp

-- The outcome of all the comparisons of two values.
structure ComparesAs [DecidableEq ρ] (a b : Value ρ) (o : Ordering) : Prop where
  equal : EqualityOp.equal.apply a b = .bool (o == .eq)
  notEqual : EqualityOp.notEqual.apply a b = .bool (o != .eq)
  order (op : OrderOp) : op.apply a b = .ok (.bool (op.holds o))

theorem less_accepts_iff {o : Ordering} (h : a.compare? b = some o) :
    OrderOp.less.Accepts a b ↔ a.compare? b = some .lt := by
  rw [OrderOp.less.accepts_iff h, h, Option.some_inj]
  exact beq_iff_eq

theorem lessEqual_accepts_iff {o : Ordering} (h : a.compare? b = some o) :
    OrderOp.lessEqual.Accepts a b ↔ a.compare? b ≠ some .gt := by
  rw [OrderOp.lessEqual.accepts_iff h, h, Ne, Option.some_inj]
  exact bne_iff_ne

theorem Value.Rounds.comparesAs [DecidableEq ρ] {x y r s : Exact} {o : Ordering}
    (h : a.Rounds x r) (h' : b.Rounds y s) (ho : a.compare? b = some o) : ComparesAs a b o := by
  have hequal : a.looseEq b = (o == .eq) := by
    rw [Bool.eq_iff_iff, h.looseEq_iff h', ho, Option.some_inj, beq_iff_eq]
  exact ⟨congrArg Value.bool hequal, congrArg (fun e => Value.bool !e) hequal,
    fun op => op.apply_eq ho⟩

end Operators

namespace Value

-- Equality of values is reflexive but for what is no number, and symmetric. It is transitive but
-- where it goes from an integer to another by way of a float. Numbers are compared as the exact
-- numbers they are, but where they are blurred: then they count as equal, and one of them is an
-- integer too large for a float.
theorem looseEq_and_order (ρ : Type) [DecidableEq ρ] :
    (∀ v : Value ρ, v.NanFree → v.looseEq v = true) ∧
    (∀ u v : Value ρ, u.looseEq v = v.looseEq u) ∧
    (∀ u v w : Value ρ, u.looseEq v = true → v.looseEq w = true →
      (u.looseEq w = true ↔ ¬Bridges u v w)) ∧
    (∀ (a b : Value ρ) (x y : Exact), a.number? = some x → b.number? = some y →
      (¬Blurred a b → ComparesAs a b (cmp x y)) ∧
      (Blurred a b → ComparesAs a b .eq ∧
        ∃ n : Int64, (a = int n ∨ b = int n) ∧ 2 ^ 53 < n.toInt.natAbs)) ∧
    (∀ (a b c : Value ρ) (x y z : Exact), a.number? = some x → b.number? = some y →
      c.number? = some z →
        (OrderOp.less.Accepts a b → OrderOp.less.Accepts b c → OrderOp.less.Accepts a c) ∧
        (OrderOp.lessEqual.Accepts a b → OrderOp.lessEqual.Accepts b c →
          OrderOp.lessEqual.Accepts a c ∨ Bridges a b c)) := by
  refine ⟨fun v => NanFree.looseEq_self, looseEq_comm, fun u v w => looseEq_iff_not_bridges, ?_, ?_⟩
  · intro a b x y hx hy
    obtain ⟨r, ha⟩ := exists_rounds hx
    obtain ⟨s, hb⟩ := exists_rounds hy
    rcases ha.compare?_cases hb with ⟨hblurred, hcmp⟩ | ⟨hclear, hcmp⟩
    · exact ⟨fun hclear => absurd hblurred hclear,
        fun _ => ⟨ha.comparesAs hb hcmp, ha.exists_lt_natAbs hb hblurred⟩⟩
    · exact ⟨fun _ => ha.comparesAs hb hcmp, fun hblurred => absurd hblurred hclear⟩
  · intro a b c x y z hx hy hz
    obtain ⟨r, ha⟩ := exists_rounds hx
    obtain ⟨s, hb⟩ := exists_rounds hy
    obtain ⟨t, hc⟩ := exists_rounds hz
    rw [less_accepts_iff (ha.compare?_eq hb), less_accepts_iff (hb.compare?_eq hc),
      less_accepts_iff (ha.compare?_eq hc), lessEqual_accepts_iff (ha.compare?_eq hb),
      lessEqual_accepts_iff (hb.compare?_eq hc), lessEqual_accepts_iff (ha.compare?_eq hc)]
    refine ⟨ha.lt_trans hb hc, fun hab hbc => ?_⟩
    by_cases hbridge : Bridges a b c
    · exact .inr hbridge
    · exact .inl (ha.le_trans hb hc hab hbc hbridge)

-- 2^53 + 1 and 2^53, with 2^53 as a float in between.
def upper : Value Unit := .int 9007199254740993

def between : Value Unit := .float (Float.ofBits 0x4340000000000000)

def lower : Value Unit := .int 9007199254740992

theorem number?_between : between.number? = some ((2 ^ 53 : ℚ) : Exact) := by
  have hbinary : Number.Binary.ofFloat (Float.ofBits 0x4340000000000000) =
      .finite false (2 ^ 52) 1 := by
    decide +kernel
  have hvalue : Number.Binary.rational false (2 ^ 52) 1 = 2 ^ 53 := by
    norm_num [Number.Binary.rational]
  change (Number.Binary.ofFloat (Float.ofBits 0x4340000000000000)).value? = _
  rw [hbinary, Number.Binary.value?, hvalue]

theorem number?_upper : upper.number? = some ((2 ^ 53 + 1 : ℚ) : Exact) := by
  have hint : ((9007199254740993 : Int64).toInt : ℚ) = 2 ^ 53 + 1 := by
    rw [show (9007199254740993 : Int64).toInt = 2 ^ 53 + 1 by decide]
    norm_num
  exact congrArg (fun q : ℚ => some (q : Exact)) hint

theorem number?_lower : lower.number? = some ((2 ^ 53 : ℚ) : Exact) := by
  have hint : ((9007199254740992 : Int64).toInt : ℚ) = 2 ^ 53 := by
    rw [show (9007199254740992 : Int64).toInt = 2 ^ 53 by decide]
    norm_num
  exact congrArg (fun q : ℚ => some (q : Exact)) hint

theorem blurred_upper_between : Blurred upper between := by
  have heq : upper.looseEq between = true := by decide +kernel
  obtain ⟨u, hupper, hbetween⟩ := Number.float_beq_eq_true_iff.1 heq
  refine ⟨by decide, hupper.trans hbetween.symm, ?_⟩
  rw [number?_upper, number?_between]
  intro hsame
  have hvalue : (2 ^ 53 + 1 : ℚ) = 2 ^ 53 :=
    WithTop.coe_inj.1 (WithBot.coe_inj.1 (Option.some_inj.1 hsame))
  norm_num at hvalue

theorem looseEq_and_order_between :
    (list [upper, between]).looseEq (list [upper, between]) = true ∧
    lower.looseEq upper = upper.looseEq lower ∧
    (upper.looseEq lower = true ↔ ¬Bridges upper between lower) ∧
    ComparesAs upper between .eq ∧
    ComparesAs lower between .eq ∧
    OrderOp.less.Accepts (int 1) (int 9007199254740994 : Value Unit) ∧
    (OrderOp.lessEqual.Accepts upper lower ∨ Bridges upper between lower) := by
  obtain ⟨hself, hsymm, htrans, hcompare, horder⟩ := looseEq_and_order Unit
  have hfree : (list [upper, between]).NanFree := by
    refine .list fun v hv => ?_
    rcases List.mem_pair.1 hv with rfl | rfl
    · exact .int _
    · exact .float (by decide +kernel)
  have hupper : upper.looseEq between = true := by decide +kernel
  have hlower : between.looseEq lower = true := by decide +kernel
  have hclear : ¬Blurred lower between := fun h => h.2.2 (number?_lower.trans number?_between.symm)
  have heq := (hcompare lower between _ _ number?_lower number?_between).1 hclear
  rw [cmp_self_eq_eq] at heq
  exact ⟨hself _ hfree, hsymm _ _, htrans _ _ _ hupper hlower,
    ((hcompare upper between _ _ number?_upper number?_between).2 blurred_upper_between).1, heq,
    (horder (int 1) between (int 9007199254740994) _ _ _ rfl number?_between rfl).1 rfl rfl,
    (horder upper between lower _ _ _ number?_upper number?_between number?_lower).2 rfl rfl⟩

-- Does equality carry over?
def TransitiveEquality : Prop :=
  ∀ u v w : Value Unit, u.NanFree → v.NanFree → w.NanFree → u.looseEq v = true →
    v.looseEq w = true → u.looseEq w = true

-- Are numbers compared as the exact numbers they are?
def ComparedByValue : Prop :=
  ∀ (a b : Value Unit) (x y : Exact), a.number? = some x → b.number? = some y →
    ComparesAs a b (cmp x y)

theorem not_comparedByValue : ¬TransitiveEquality ∧ ¬ComparedByValue := by
  refine ⟨fun h => ?_, fun h => ?_⟩
  · have heq := h upper between lower (.int _) (.float (by decide +kernel)) (.int _)
      (by decide +kernel) (by decide +kernel)
    revert heq
    decide
  · have heq := (h upper between _ _ number?_upper number?_between).equal
    have hgt : cmp (2 ^ 53 + 1 : ℚ) (2 ^ 53) = .gt := (cmp_eq_gt_iff _ _).2 (by norm_num)
    rw [Number.cmp_rational, hgt] at heq
    exact absurd (bool.inj heq) (by decide +kernel)

end Value

end Stencil
