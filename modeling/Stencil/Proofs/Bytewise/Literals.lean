import Stencil.Proofs.Bytewise.Closers
import Stencil.Proofs.Expr.Literals
import Stencil.Proofs.Markup.Tiling

/-!
The search for a closing delimiter and the reader of the code in front of it agree on text literals.
The search goes unit by unit and passes over whatever stands behind a backslash; the reader goes by
characters and knows which escapes there are. Both see the same row of atoms.
-/

namespace Stencil

open Code

namespace Markup

variable {opener closer : Char} {unclosed : Defect}

-- Text that leaves no literal open, and in which outside of literals as many openers stand as
-- closers.
def AtRest (opener closer : Char) (cs : List Char) : Prop :=
  ∃ atoms, (∀ a ∈ atoms, a.Lawful) ∧ spelling atoms = cs ∧
    (outside atoms).count closer = (outside atoms).count opener

-- As many closers as openers, if `depth` openers went before, and no closer before the end that
-- closes the first of them.
structure Balances (opener closer : Char) (depth : Nat) (atoms : List Atom) : Prop where
  lawful : ∀ a ∈ atoms, a.Lawful
  whole : (outside atoms).count closer = (outside atoms).count opener + depth
  before : ∀ front back, atoms = front ++ .plain closer :: back →
    (outside front).count closer < (outside front).count opener + depth

theorem balances_nil : Balances opener closer 0 [] where
  lawful := List.forall_mem_nil _
  whole := rfl
  before front back h := by cases front <;> cases h

theorem count_outside_cons (x : Char) (a : Atom) (atoms : List Atom) :
    (outside (a :: atoms)).count x = (outside [a]).count x + (outside atoms).count x := by
  rw [← List.count_append, ← List.singleton_append (x := a), outside, List.filterMap_append]
  rfl

-- An atom in front leads from one depth to another.
section Steps

variable {depth depth' : Nat} {a : Atom} {atoms : List Atom}

theorem Balances.cons (ha : a.Lawful)
    (hcount : (outside [a]).count closer + depth' = (outside [a]).count opener + depth)
    (hcloser : a = .plain closer → 0 < depth) (h : Balances opener closer depth' atoms) :
    Balances opener closer depth (a :: atoms) := by
  refine ⟨List.forall_mem_cons.2 ⟨ha, h.lawful⟩, ?_, fun front back hsplit => ?_⟩
  · have hwhole := h.whole
    rw [count_outside_cons closer, count_outside_cons opener]
    omega
  · cases front with
    | nil =>
      obtain ⟨hclose, -⟩ := List.cons.inj hsplit
      simpa [outside] using hcloser hclose
    | cons b front =>
      obtain ⟨rfl, hatoms⟩ := List.cons.inj hsplit
      have hbefore := h.before front back hatoms
      rw [count_outside_cons closer, count_outside_cons opener]
      omega

theorem Balances.tail
    (hcount : (outside [a]).count closer + depth' = (outside [a]).count opener + depth)
    (h : Balances opener closer depth (a :: atoms)) : Balances opener closer depth' atoms := by
  refine ⟨(List.forall_mem_cons.1 h.lawful).2, ?_, fun front back hsplit => ?_⟩
  · have hwhole := h.whole
    rw [count_outside_cons closer, count_outside_cons opener] at hwhole
    omega
  · have hbefore := h.before (a :: front) back (by rw [hsplit]; rfl)
    rw [count_outside_cons closer, count_outside_cons opener] at hbefore
    omega

-- What the characters outside of literals do to the depth.
theorem count_opener (hne : opener ≠ closer) :
    (outside [.plain opener]).count closer + (depth + 1) =
      (outside [.plain opener]).count opener + depth := by
  simp [outside, Atom.outside?, hne]
  omega

theorem count_closer (hne : opener ≠ closer) :
    (outside [.plain closer]).count closer + depth =
      (outside [.plain closer]).count opener + (depth + 1) := by
  simp [outside, Atom.outside?, hne.symm]
  omega

theorem count_other {c : Char} (hopen : c ≠ opener) (hclose : c ≠ closer) :
    (outside [.plain c]).count closer + depth = (outside [.plain c]).count opener + depth := by
  simp [outside, Atom.outside?, hopen, hclose]

end Steps

-- What the search has still to pass over in each of its states.
def Resumes : Quoting → List Char → List Atom → Prop
  | .code, cs, atoms => spelling atoms = cs
  | .quoted quote, cs, atoms => ∃ body, Skips quote body ∧ body ++ quote :: spelling atoms = cs
  | .escaped quote, cs, atoms =>
    ∃ c body, Skips quote body ∧ c :: body ++ quote :: spelling atoms = cs

-- The text up to the closer that the search finds.
theorem balances_of_enclosed (hne : opener ≠ closer) {state : Quoting} {depth : Nat}
    {cs inner rest : List Char}
    (h : enclosed opener closer unclosed state depth cs = .ok (inner, rest)) :
    ∃ atoms, Balances opener closer depth atoms ∧ Resumes state inner atoms := by
  induction cs generalizing state depth inner with
  | nil => cases state <;> simp [enclosed] at h
  | cons c cs ih =>
    have step {state' : Quoting} {depth' : Nat}
        (h' : (enclosed opener closer unclosed state' depth' cs).map (Prod.map (c :: ·) id) =
          .ok (inner, rest)) :
        ∃ tail atoms, c :: tail = inner ∧ Balances opener closer depth' atoms ∧
          Resumes state' tail atoms := by
      obtain ⟨⟨tail, _⟩, htail, heq⟩ := exists_of_map_eq_ok h'
      obtain ⟨rfl, rfl⟩ := Prod.mk.inj heq
      obtain ⟨atoms, hbalances, hresumes⟩ := ih htail
      exact ⟨tail, atoms, rfl, hbalances, hresumes⟩
    cases state with
    | escaped quote =>
      obtain ⟨tail, atoms, rfl, hbalances, body, hbody, rfl⟩ := step h
      exact ⟨atoms, hbalances, c, body, hbody, rfl⟩
    | quoted quote =>
      obtain ⟨tail, atoms, rfl, hbalances, hresumes⟩ := step h
      refine ⟨atoms, hbalances, ?_⟩
      split at hresumes
      · next hquote => exact ⟨[], .nil, by rw [hquote, ← hresumes]; rfl⟩
      split at hresumes
      · next hslash =>
        obtain ⟨e, body, hbody, rfl⟩ := hresumes
        exact ⟨'\\' :: e :: body, .escaped e hbody, by rw [hslash]; rfl⟩
      · next hquote hslash =>
        obtain ⟨body, hbody, rfl⟩ := hresumes
        exact ⟨c :: body, .plain hquote hslash hbody, rfl⟩
    | code =>
      simp only [enclosed] at h
      split at h
      · next hquote =>
        obtain ⟨tail, atoms, rfl, hbalances, body, hbody, rfl⟩ := step h
        exact ⟨.literal c body :: atoms, hbalances.cons ⟨hquote, hbody⟩ rfl Atom.noConfusion,
          spelling_literal_cons c body atoms⟩
      next hquote =>
      have hlawful : (Atom.plain c).Lawful := hquote
      have plain {tail : List Char} {atoms : List Atom} (hresumes : Resumes .code tail atoms) :
          Resumes .code (c :: tail) (.plain c :: atoms) := congrArg (c :: ·) hresumes
      split at h
      · next hopen =>
        obtain ⟨tail, atoms, rfl, hbalances, hresumes⟩ := step h
        subst hopen
        exact ⟨_, hbalances.cons hlawful (count_opener hne) fun heq =>
          absurd (Atom.plain.inj heq) hne, plain hresumes⟩
      split at h
      · next hclose =>
        cases depth with
        | zero =>
          obtain ⟨rfl, -⟩ := Prod.mk.inj (Except.ok.inj h)
          exact ⟨[], balances_nil, rfl⟩
        | succ depth =>
          obtain ⟨tail, atoms, rfl, hbalances, hresumes⟩ := step h
          subst hclose
          exact ⟨_, hbalances.cons hlawful (count_closer hne) fun _ => depth.succ_pos,
            plain hresumes⟩
      · next hopen hclose =>
        obtain ⟨tail, atoms, rfl, hbalances, hresumes⟩ := step h
        exact ⟨_, hbalances.cons hlawful (count_other hopen hclose) fun heq =>
          absurd (Atom.plain.inj heq) hclose, plain hresumes⟩

-- The search goes on behind a literal, and finds the closer behind text that balances.
section Found

variable {depth : Nat} {cs inner rest : List Char}

theorem enclosed_literal {quote : Char} {body : List Char} (hslash : quote ≠ '\\')
    (hbody : Skips quote body)
    (h : enclosed opener closer unclosed .code depth cs = .ok (inner, rest)) :
    enclosed opener closer unclosed (.quoted quote) depth (body ++ quote :: cs) =
      .ok (body ++ quote :: inner, rest) := by
  induction hbody with
  | nil =>
    simp only [List.nil_append, enclosed, if_pos, h]
    rfl
  | plain hquote hplain _ ih =>
    simp only [List.cons_append, enclosed, if_neg hquote, if_neg hplain, ih]
    rfl
  | escaped c _ ih =>
    simp only [List.cons_append, enclosed, if_neg hslash.symm, if_pos, ih]
    rfl

theorem Balances.enclosed_eq (hne : opener ≠ closer) (hopener : ¬ IsQuote opener)
    (hcloser : ¬ IsQuote closer) {atoms : List Atom} (h : Balances opener closer depth atoms) :
    enclosed opener closer unclosed .code depth (spelling atoms ++ closer :: rest) =
      .ok (spelling atoms, rest) := by
  induction atoms generalizing depth with
  | nil =>
    obtain rfl : depth = 0 := by simpa [outside] using h.whole.symm
    change enclosed opener closer unclosed .code 0 (closer :: rest) = .ok ([], rest)
    rw [enclosed, if_neg hcloser, if_neg hne.symm, if_pos rfl]
  | cons a atoms ih =>
    have ha := h.lawful a List.mem_cons_self
    cases a with
    | literal quote body =>
      obtain ⟨hquote, hbody⟩ := ha
      rw [spelling_literal_cons, List.cons_append, List.append_assoc, List.cons_append]
      simp only [enclosed, if_pos hquote]
      rw [enclosed_literal (Skips.quote_ne hquote) hbody (ih (h.tail rfl))]
      rfl
    | plain c =>
      change enclosed opener closer unclosed .code depth (c :: (spelling atoms ++ closer :: rest)) =
        .ok (c :: spelling atoms, rest)
      simp only [enclosed, if_neg ha]
      by_cases hopen : c = opener
      · subst hopen
        rw [if_pos rfl, ih (h.tail (count_opener hne))]
        rfl
      by_cases hclose : c = closer
      · subst hclose
        have hdepth : 0 < depth := by simpa [outside] using h.before [] atoms rfl
        obtain ⟨depth, rfl⟩ := Nat.exists_eq_succ_of_ne_zero hdepth.ne'
        rw [if_neg hopen, if_pos rfl]
        dsimp only
        rw [ih (h.tail (count_closer hne))]
        rfl
      · rw [if_neg hopen, if_neg hclose, ih (h.tail (count_other hopen hclose))]
        rfl

end Found

-- No earlier closer stands at rest.
theorem Balances.le_of_atRest {atoms : List Atom} (hcloser : ¬ IsQuote closer)
    (h : Balances opener closer 0 atoms) {rest before behind : List Char}
    (hsplit : spelling atoms ++ closer :: rest = before ++ closer :: behind)
    (hrest : AtRest opener closer before) : (spelling atoms).length ≤ before.length := by
  rcases List.append_eq_append_iff.1 hsplit with ⟨tail, rfl, -⟩ | ⟨tail, htail, hbehind⟩
  · rw [List.length_append]
    exact Nat.le_add_right _ _
  cases tail with
  | nil =>
    rw [htail, List.append_nil]
  | cons c tail =>
    obtain ⟨rfl, -⟩ := List.cons.inj hbehind
    obtain ⟨front, hlawful, rfl, hcount⟩ := hrest
    obtain ⟨back, rfl, hback⟩ := exists_behind h.lawful hlawful htail
    obtain ⟨back, rfl, -⟩ := exists_plain
      (fun a ha => h.lawful a (List.mem_append_right _ ha)) hback hcloser
    have hbefore := h.before front back rfl
    omega

namespace Bytewise

section Noting

variable (us : List Char)

-- The search of `closerFrom`, with the spans of the literals that it passes over.
def noteFrom (opener closer : Char) (unclosed : Defect) (depth i : Nat) :
    Except Defect (List Span × Nat) :=
  if h : i < us.length then
    if us[i] = '"' ∨ us[i] = '\'' then
      let stop := literalEnd us us[i] (i + 1)
      if stop < us.length then
        (noteFrom opener closer unclosed depth (stop + 1)).map
          fun (spans, close) => (⟨i, stop + 1⟩ :: spans, close)
      else .error .unterminatedString
    else if us[i] = opener then noteFrom opener closer unclosed (depth + 1) (i + 1)
    else if us[i] = closer then
      match depth with
      | 0 => .ok ([], i)
      | depth + 1 => noteFrom opener closer unclosed depth (i + 1)
    else noteFrom opener closer unclosed depth (i + 1)
  else .error unclosed
termination_by us.length - i
decreasing_by
  · have hle := le_literalEnd us us[i] (i + 1)
    omega
  all_goals omega

-- Taking notes does not change what is found.
theorem noteFrom_close (opener closer : Char) (unclosed : Defect) (depth i : Nat) :
    (noteFrom us opener closer unclosed depth i).map Prod.snd =
      closerFrom us opener closer unclosed depth i := by
  fun_induction noteFrom us opener closer unclosed depth i with
  | case1 depth i hlt hquote stop hstop ih =>
    rw [closerFrom.eq_def, dif_pos hlt, if_pos hquote]
    refine Eq.trans ?_ (if_pos hstop).symm
    rw [← ih]
    cases noteFrom us opener closer unclosed depth (stop + 1) <;> rfl
  | case2 depth i hlt hquote stop hstop =>
    rw [closerFrom.eq_def, dif_pos hlt, if_pos hquote]
    exact (if_neg hstop).symm
  | case3 depth i hlt hquote hopen ih =>
    rw [closerFrom.eq_def, dif_pos hlt, if_neg hquote, if_pos hopen, ih]
  | case4 i hlt hquote hopen hclose =>
    rw [closerFrom.eq_def, dif_pos hlt, if_neg hquote, if_neg hopen, if_pos hclose]
    rfl
  | case5 i hlt hquote hopen hclose depth ih =>
    rw [closerFrom.eq_def, dif_pos hlt, if_neg hquote, if_neg hopen, if_pos hclose]
    exact ih
  | case6 depth i hlt hquote hopen hclose ih =>
    rw [closerFrom.eq_def, dif_pos hlt, if_neg hquote, if_neg hopen, if_neg hclose, ih]
  | case7 depth i hlt =>
    rw [closerFrom.eq_def, dif_neg hlt]
    rfl

end Noting

section Characters

variable {source rest : List Char} {i : Nat} {c quote : Char} {depth : Nat}

theorem literalEnd_wide {k : Nat} (h : dropBytes? i source = some (c :: rest))
    (hquote : IsQuote quote) (hc : 0x80 ≤ c.toNat) (hk : k ≤ c.utf8Size) :
    literalEnd (units source) quote (i + k) = literalEnd (units source) quote (i + c.utf8Size) := by
  refine eq_of_passing (fun j u hu huwide => ?_) h hc hk
  obtain ⟨hlt, rfl⟩ := List.getElem?_eq_some_iff.1 hu
  rw [literalEnd.eq_def, dif_pos hlt, if_neg (ne_of_wide huwide (ascii_of_quote hquote)),
    if_neg (ne_of_wide huwide (by decide))]

theorem literalEnd_ascii (h : dropBytes? i source = some (c :: rest)) (hc : c.toNat < 0x80) :
    literalEnd (units source) quote i = if c = quote then i else
      literalEnd (units source) quote (if c = '\\' then i + 2 else i + 1) := by
  obtain ⟨hlt, hunit⟩ := List.getElem?_eq_some_iff.1 (unit_of_ascii h hc)
  rw [literalEnd.eq_def, dif_pos hlt, hunit]

-- The quote that ends a literal is found behind what the literal holds.
theorem literalEnd_units {body : List Char} (hquote : IsQuote quote) (hbody : Skips quote body)
    (h : dropBytes? i source = some (body ++ quote :: rest)) :
    literalEnd (units source) quote i = i + byteLength body := by
  induction hbody generalizing i with
  | nil => rw [literalEnd_ascii h (ascii_of_quote hquote), if_pos rfl]; rfl
  | @plain c cs hne hslash _ ih =>
    have hrest := ih (dropBytes?_cons h)
    rw [byteLength_cons, ← Nat.add_assoc, ← hrest]
    by_cases hc : c.toNat < 0x80
    · rw [literalEnd_ascii h hc, if_neg hne, if_neg hslash, utf8Size_of_ascii hc]
    · exact literalEnd_wide (k := 0) h hquote (Nat.le_of_not_lt hc) (Nat.zero_le _)
  | @escaped c cs _ ih =>
    have hbehind : dropBytes? (i + 1) source = some (c :: (cs ++ quote :: rest)) :=
      dropBytes?_cons h
    have hrest := ih (dropBytes?_cons hbehind)
    have hsize : '\\'.utf8Size = 1 := rfl
    rw [literalEnd_ascii h (by decide), if_neg (Skips.quote_ne hquote).symm, if_pos rfl,
      byteLength_cons, byteLength_cons, hsize, ← Nat.add_assoc, ← Nat.add_assoc, ← hrest]
    -- The unit behind the backslash may be the first of several.
    by_cases hc : c.toNat < 0x80
    · rw [utf8Size_of_ascii hc]
    · exact literalEnd_wide hbehind hquote (Nat.le_of_not_lt hc) c.utf8Size_pos

theorem noteFrom_plain (h : dropBytes? i source = some (c :: rest)) (hc : ¬ IsQuote c)
    (hopener : opener.toNat < 0x80) (hcloser : closer.toNat < 0x80) :
    noteFrom (units source) opener closer unclosed depth i =
      if c = opener then noteFrom (units source) opener closer unclosed (depth + 1) (i + c.utf8Size)
      else if c = closer then
        match depth with
        | 0 => .ok ([], i)
        | depth + 1 => noteFrom (units source) opener closer unclosed depth (i + c.utf8Size)
      else noteFrom (units source) opener closer unclosed depth (i + c.utf8Size) := by
  by_cases hascii : c.toNat < 0x80
  · obtain ⟨hlt, hunit⟩ := List.getElem?_eq_some_iff.1 (unit_of_ascii h hascii)
    rw [noteFrom.eq_def, dif_pos hlt, hunit, if_neg hc, utf8Size_of_ascii hascii]
  · have hwide := Nat.le_of_not_lt hascii
    rw [if_neg (ne_of_wide hwide hopener), if_neg (ne_of_wide hwide hcloser)]
    refine eq_of_passing (fun j u hu huwide => ?_) h hwide (Nat.zero_le _)
    obtain ⟨hlt, rfl⟩ := List.getElem?_eq_some_iff.1 hu
    have hquote {q : Char} (hq : q.toNat < 0x80) := ne_of_wide huwide hq
    rw [noteFrom.eq_def, dif_pos hlt, if_neg (ne_of_wide huwide hopener),
      if_neg (ne_of_wide huwide hcloser),
      if_neg (not_or.2 ⟨hquote (by decide), hquote (by decide)⟩)]

theorem noteFrom_literal {body : List Char} {stop : Nat} (hquote : IsQuote quote)
    (hbody : Skips quote body)
    (h : dropBytes? i source = some (quote :: (body ++ quote :: rest)))
    (hstop : stop = i + byteLength (Atom.literal quote body).chars) :
    noteFrom (units source) opener closer unclosed depth i =
      (noteFrom (units source) opener closer unclosed depth stop).map
        fun (spans, close) => (⟨i, stop⟩ :: spans, close) := by
  obtain ⟨hlt, hunit⟩ := List.getElem?_eq_some_iff.1 (unit_of_ascii h (ascii_of_quote hquote))
  have hinside := dropBytes?_cons h
  rw [utf8Size_quote hquote] at hinside
  have hend := literalEnd_units hquote hbody hinside
  have hbehind : literalEnd (units source) quote (i + 1) < (units source).length :=
    hend ▸ lt_length_units (dropBytes?_append hinside)
  have hpast : stop = literalEnd (units source) quote (i + 1) + 1 := by
    simp [hstop, hend, Atom.chars, utf8Size_quote hquote]
    omega
  rw [noteFrom.eq_def, dif_pos hlt, hunit, if_pos hquote, if_pos hbehind, hpast]

-- The search passes over the literals among the atoms, and stops behind the last atom.
theorem noteFrom_units {atoms : List Atom} (hopener : opener.toNat < 0x80)
    (hcloser : closer.toNat < 0x80) (hquote : ¬ IsQuote closer) (hne : opener ≠ closer)
    (hbalances : Balances opener closer depth atoms)
    (h : dropBytes? i source = some (spelling atoms ++ closer :: rest)) :
    noteFrom (units source) opener closer unclosed depth i =
      .ok (literalSpans i atoms, i + byteLength (spelling atoms)) := by
  induction atoms generalizing depth i with
  | nil =>
    obtain rfl : 0 = depth := by simpa [outside] using hbalances.whole
    rw [noteFrom_plain h hquote hopener hcloser, if_neg hne.symm, if_pos rfl]
    rfl
  | cons a atoms ih =>
    obtain ⟨ha, -⟩ := List.forall_mem_cons.1 hbalances.lawful
    cases a with
    | literal quote body =>
      obtain ⟨hq, hbody⟩ := ha
      rw [spelling_literal_cons] at h
      have hbehind : dropBytes? (i + byteLength (Atom.literal quote body).chars) source =
          some (spelling atoms ++ closer :: rest) := by
        refine dropBytes?_append ?_
        simpa [Atom.chars] using h
      have hlength : byteLength (spelling (.literal quote body :: atoms)) =
          byteLength (Atom.literal quote body).chars + byteLength (spelling atoms) :=
        byteLength_append _ _
      rw [List.cons_append, List.append_assoc, List.cons_append] at h
      rw [noteFrom_literal hq hbody h rfl, ih (hbalances.tail rfl) hbehind, hlength,
        ← Nat.add_assoc]
      rfl
    | plain c =>
      have hrest {depth' : Nat} (hbehind : Balances opener closer depth' atoms) :=
        ih hbehind (dropBytes?_cons h)
      rw [noteFrom_plain h ha hopener hcloser]
      rw [spelling_plain_cons, byteLength_cons, ← Nat.add_assoc, literalSpans]
      split
      · next hopen =>
        subst hopen
        exact hrest (hbalances.tail (count_opener hne))
      split
      · next hclose =>
        subst hclose
        have hpos := hbalances.before [] atoms rfl
        cases depth with
        | zero => cases hpos
        | succ depth => exact hrest (hbalances.tail (count_closer hne))
      · next hopen hclose => exact hrest (hbalances.tail (count_other hopen hclose))

end Characters

end Bytewise

theorem Token.delimiters {token : Token} {d : Delimiters} {inner : Slice}
    (hd : token.delimited? = some (d, inner)) : d = .parens ∨ d = .braces := by
  cases token with
  | text => cases hd
  | interpolation =>
    cases hd
    exact .inr rfl
  | tag t span =>
    obtain ⟨code, -, heq⟩ := Option.map_eq_some_iff.1 hd
    exact .inl (Prod.mk.inj heq).1.symm

-- What both readers make of the code in a token of the source.
structure Agreed (source : List Char) (d : Delimiters)
    (inner : Slice) : Prop where
  intro ::
  -- The closer is the first one that stands at rest.
  closer : ∃ before rest, source = before ++ inner.chars ++ d.closer :: rest ∧
    inner.start = byteLength before ∧ AtRest d.opener d.closer inner.chars ∧
    ∀ x y, inner.chars ++ d.closer :: rest = x ++ d.closer :: y →
      AtRest d.opener d.closer x → inner.chars.length ≤ x.length
  -- The reader meets no literal that is left open.
  ended : ∀ pos, Code.tokens inner.start inner.chars ≠ .error ⟨.unterminatedString, pos⟩
  -- The search by units ends there, and what it passes over are the literals that the reader finds.
  search : Bytewise.closerFrom (units source) d.opener d.closer d.unclosed 0 inner.start =
    .ok inner.stop
  literals : ∀ ts, Code.tokens inner.start inner.chars = .ok ts →
    Bytewise.noteFrom (units source) d.opener d.closer d.unclosed 0 inner.start =
      .ok (ts.filterMap Placed.literal?, inner.stop)

-- The lexer and the reader of code agree on text literals.
theorem literals_agreed {source : List Char} {ts : List Token} (h : tokens source = .ok ts)
    {token : Token} (hmem : token ∈ ts) {d : Delimiters} {inner : Slice}
    (hd : token.delimited? = some (d, inner)) : Agreed source d inner := by
  obtain ⟨a, b, -, -, -, hplace⟩ := (inTurn_of_tokens h).of_mem hmem
  obtain ⟨before, rest, hsource, hstart, hfound⟩ := hplace.exists_code hd
  obtain ⟨hquotes, hne, hascii⟩ : (¬ IsQuote d.closer) ∧ d.opener ≠ d.closer ∧
      d.opener.toNat < 0x80 ∧ d.closer.toNat < 0x80 := by
    rcases Token.delimiters hd with rfl | rfl <;> decide
  obtain ⟨atoms, hbalances, hspelling⟩ := balances_of_enclosed hne hfound
  have hspelling : spelling atoms = inner.chars := hspelling
  have hliterals : HasLiterals (literalSpans inner.start atoms)
      (Code.tokens inner.start inner.chars) := hasLiterals_tokens hbalances.lawful hspelling
  have hnotes : Bytewise.noteFrom (units source) d.opener d.closer d.unclosed 0 inner.start =
      .ok (literalSpans inner.start atoms, inner.stop) := by
    have hdrop : dropBytes? inner.start source = some (spelling atoms ++ d.closer :: rest) := by
      rw [hsource, hstart, hspelling, List.append_assoc, dropBytes?_byteLength]
    rw [Bytewise.noteFrom_units hascii.1 hascii.2 hquotes hne hbalances hdrop, hspelling]
    rfl
  refine ⟨⟨before, rest, hsource, hstart, ?_, fun x y hsplit hrest => ?_⟩, fun pos herror => ?_, ?_,
    fun ts hts => ?_⟩
  · exact ⟨atoms, hbalances.lawful, hspelling, hbalances.whole⟩
  · rw [← hspelling] at hsplit ⊢
    exact hbalances.le_of_atRest hquotes hsplit hrest
  · rw [herror] at hliterals
    exact hliterals rfl
  · rw [← Bytewise.noteFrom_close, hnotes]
    rfl
  · rw [hts] at hliterals
    rw [hnotes]
    exact congrArg (fun spans => Except.ok (spans, inner.stop)) hliterals.symm

-- Quotes of either kind, an escaped quote at the end of a literal, a backslash there, and
-- characters of several bytes, one of them behind a backslash.
def quotations : List Char :=
  "é$\x7b'\\é\x7d' + \"\x7d'\\\"\" \x7d\x7d @if(f('(\\\\', \")é\"))".toList

def quotationTokens : List Token :=
  [.text ⟨0, ['é']⟩, .interpolation false ⟨4, "'\\é\x7d' + \"\x7d'\\\"\" ".toList⟩ ⟨2, 21⟩,
    .text ⟨21, "\x7d ".toList⟩, .tag (.condition ⟨27, "f('(\\\\', \")é\")".toList⟩) ⟨23, 43⟩]

theorem literals_agreed_quotations :
    tokens quotations = .ok quotationTokens ∧
    Agreed quotations .braces ⟨4, "'\\é\x7d' + \"\x7d'\\\"\" ".toList⟩ ∧
    (Code.tokens 27 "f('(\\\\', \")é\")".toList).map (·.filterMap Placed.literal?) =
      .ok [⟨29, 34⟩, ⟨36, 41⟩] ∧
    Bytewise.noteFrom (units quotations) '(' ')' .unterminatedTag 0 27 =
      .ok ([⟨29, 34⟩, ⟨36, 41⟩], 42) := by
  have htokens : tokens quotations = .ok quotationTokens := by decide +kernel
  have hspans : (Code.tokens 27 "f('(\\\\', \")é\")".toList).map (·.filterMap Placed.literal?) =
      .ok [⟨29, 34⟩, ⟨36, 41⟩] := by decide +kernel
  refine ⟨htokens, literals_agreed htokens (.tail _ (.head _)) rfl, hspans, ?_⟩
  obtain ⟨ts, hts, hliterals⟩ := exists_of_map_eq_ok hspans
  have hcondition := literals_agreed htokens (.tail _ (.tail _ (.tail _ (.head _)))) rfl
  exact hliterals ▸ hcondition.literals ts hts

end Markup

end Stencil
