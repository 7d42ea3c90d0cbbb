import Mathlib.Logic.Relation
import Stencil.Proofs.Markup.Tiling

/-!
Which `@` begins a tag. Where the lexer comes to one in text, the characters behind it decide: a
word of the language begins a tag only where no longer word goes on. The word that ends a raw block
is looked for without that care.
-/

namespace Stencil.Markup

-- Does an identifier go on here?
abbrev GoesOn (cs : List Char) : Prop := cs.head?.any isIdentChar

-- What stands behind the `@` of a tag.
inductive BeginsTag : List Char → Prop where
  | opener {word : String} {rest : List Char} (hword : word ∈ ["if(", "elseif(", "for("]) :
      BeginsTag (word.toList ++ rest)
  | keyword {word : String} {rest : List Char}
      (hword : word ∈ ["else", "end", "endif", "endfor", "raw", "endraw"]) (hend : ¬ GoesOn rest) :
      BeginsTag (word.toList ++ rest)
  | param {blank : Char} {rest : List Char} (hblank : blank = ' ' ∨ blank = '\t') :
      BeginsTag ("param".toList ++ blank :: rest)
  | inclusion {rest : List Char} : BeginsTag ("template.".toList ++ rest)

theorem dropKeyword?_eq_some_iff {word cs rest : List Char} :
    dropKeyword? word cs = some rest ↔ cs = word ++ rest ∧ ¬ GoesOn rest := by
  constructor
  · exact eq_append_of_dropKeyword?
  · rintro ⟨rfl, hend⟩
    exact dropKeyword?_append hend

theorem map_some_ne_none {r : Except Fault Lexeme} : r.map some ≠ .ok none := by
  cases r <;> simp [Except.map]

-- The words are tried one after the other, and what begins a tag is taken by one of the readers.
theorem tag?_eq_none_iff {head : Nat} {cs : List Char} :
    tag? head cs = .ok none ↔ ¬ BeginsTag cs := by
  have tagged {r : Except Fault (Option Lexeme)} (hr : r ≠ .ok none) (hbegins : BeginsTag cs) :
      r = .ok none ↔ ¬ BeginsTag cs := iff_of_false hr (not_not_intro hbegins)
  have opener {word : String} {rest : List Char} (hword : word ∈ ["if(", "elseif(", "for("])
      (h : dropWord? word.toList cs = some rest) : BeginsTag cs :=
    dropWord?_eq_some_iff.1 h ▸ .opener hword
  have keyword {word : String} {rest : List Char}
      (hword : word ∈ ["else", "end", "endif", "endfor", "raw", "endraw"])
      (h : dropKeyword? word.toList cs = some rest) : BeginsTag cs := by
    obtain ⟨rfl, hend⟩ := dropKeyword?_eq_some_iff.1 h
    exact .keyword hword hend
  unfold tag?
  split
  · next h => exact tagged map_some_ne_none (opener (by simp) h)
  next hif =>
  split
  · next h => exact tagged map_some_ne_none (opener (by simp) h)
  next helseif =>
  split
  · next h => exact tagged map_some_ne_none (opener (by simp) h)
  next hfor =>
  split
  · next h => exact tagged (by simp) (keyword (by simp) h)
  next helse =>
  split
  · next h => exact tagged (by simp) (keyword (by simp) h)
  next hendif =>
  split
  · next h => exact tagged (by simp) (keyword (by simp) h)
  next hendfor =>
  split
  · next h => exact tagged (by simp) (keyword (by simp) h)
  next hend =>
  split
  · next h => exact tagged (by simp) (keyword (by simp) h)
  next hendraw =>
  split
  · next h => exact tagged map_some_ne_none (keyword (by simp) h)
  next hraw =>
  have hopener : ∀ word ∈ ["if(", "elseif(", "for("], ∀ rest, cs ≠ word.toList ++ rest := by
    intro word hword rest heq
    have hdrop := dropWord?_eq_some_iff.2 heq
    simp only [List.mem_cons, List.not_mem_nil, or_false] at hword
    rcases hword with rfl | rfl | rfl
    · exact hif rest hdrop
    · exact helseif rest hdrop
    · exact hfor rest hdrop
  have hkeyword : ∀ word ∈ ["else", "end", "endif", "endfor", "raw", "endraw"], ∀ rest,
      ¬ GoesOn rest → cs ≠ word.toList ++ rest := by
    intro word hword rest hbound heq
    have hdrop := dropKeyword?_eq_some_iff.2 ⟨heq, hbound⟩
    simp only [List.mem_cons, List.not_mem_nil, or_false] at hword
    rcases hword with rfl | rfl | rfl | rfl | rfl | rfl
    · exact helse rest hdrop
    · exact hend rest hdrop
    · exact hendif rest hdrop
    · exact hendfor rest hdrop
    · exact hraw rest hdrop
    · exact hendraw rest hdrop
  have text (hparam : ∀ blank rest, blank = ' ' ∨ blank = '\t' →
      cs ≠ "param".toList ++ blank :: rest) (hinclusion : ∀ rest, cs ≠ "template.".toList ++ rest) :
      ¬ BeginsTag cs := by
    intro hbegins
    cases hbegins with
    | opener hword => exact hopener _ hword _ rfl
    | keyword hword hbound => exact hkeyword _ hword _ hbound rfl
    | param hblank => exact hparam _ _ hblank rfl
    | inclusion => exact hinclusion _ rfl
  split
  · next rest h =>
    obtain rfl := dropWord?_eq_some_iff.1 h
    split
    · next hblank =>
      obtain ⟨blank, tail, rfl⟩ : ∃ blank tail, rest = blank :: tail := by
        cases rest with
        | nil => simp at hblank
        | cons blank tail => exact ⟨blank, tail, rfl⟩
      exact tagged (by simp) (.param (by simpa using hblank))
    · next hblank =>
      refine iff_of_true rfl (text (fun blank tail hb heq => hblank ?_) (by simp))
      obtain rfl := List.append_cancel_left heq
      simpa using hb
  · next hparam =>
    split
    · next h =>
      exact tagged map_some_ne_none (dropWord?_eq_some_iff.1 h ▸ .inclusion)
    · next hinclusion =>
      refine iff_of_true rfl (text (fun blank tail _ heq => ?_) fun tail heq => ?_)
      · exact hparam _ (dropWord?_eq_some_iff.2 heq)
      · exact hinclusion _ (dropWord?_eq_some_iff.2 heq)

theorem tag?_raw {head : Nat} {inner : List Char} (hbound : ¬ GoesOn inner) :
    tag? head ("raw".toList ++ inner) = (rawBlock head inner).map some := by
  have hraw : dropKeyword? "raw".toList ("raw".toList ++ inner) = some inner :=
    dropKeyword?_append hbound
  rw [tag?, hraw]
  rfl

-- The lexer on its way through a source: the tokens it has cut, the text run in progress with the
-- byte where it began (its last character first), and what is left, from byte `pos` on.
structure Front where
  done : List Token
  start : Nat
  run : List Char
  pos : Nat
  rest : List Char

namespace Front

variable {source cs : List Char} {f g : Front}

-- In front of a whole source.
def begin (source : List Char) : Front := ⟨[], 0, [], 0, source⟩

-- Behind one more character of text.
def stay (f : Front) (c : Char) (rest : List Char) : Front :=
  ⟨f.done, f.start, c :: f.run, f.pos + c.utf8Size, rest⟩

-- Behind a token, with the text before it cut off.
def cut (f : Front) (l : Lexeme) : Front :=
  ⟨f.done ++ textRun f.start f.run ++ [l.token], l.stop, [], l.stop, l.rest⟩

-- One step of the lexer.
inductive Steps (f : Front) : Front → Prop where
  | stay {c : Char} {rest : List Char} (hrest : f.rest = c :: rest)
      (hread : lexeme? f.pos f.rest = .ok none) : Steps f (f.stay c rest)
  | cut {l : Lexeme} (hread : lexeme? f.pos f.rest = .ok (some l)) : Steps f (f.cut l)

-- What the lexer comes to in text: the `@`s behind a tag's own, in code, in a comment, in a raw
-- block or on the line of a declaration are not among it.
def Reached (source : List Char) (f : Front) : Prop := Relation.ReflTransGen Steps (begin source) f

-- The tokens of the whole source, when the rest is cut from here on.
def finish (f : Front) : Except Fault (List Token) :=
  (lexemes f.start f.run f.pos f.rest).map (f.done ++ ·)

theorem finish_of_error {fault : Fault} (h : lexeme? f.pos f.rest = .error fault) :
    f.finish = .error fault := by
  obtain ⟨done, start, run, pos, rest⟩ := f
  cases rest with
  | nil => cases h
  | cons c rest =>
    rw [finish, lexemes]
    split
    · next hread => rw [← Except.error.inj (hread.symm.trans h)]; rfl
    · next hread => cases hread.symm.trans h
    · next hread => cases hread.symm.trans h

theorem finish_cut (f : Front) (l : Lexeme) : (f.cut l).finish =
    (lexemes l.stop [] l.stop l.rest).map (f.done ++ textRun f.start f.run ++ [l.token] ++ ·) := rfl

-- A step leaves the tokens of the whole source as they are.
theorem Steps.finish_eq (h : Steps f g) : f.finish = g.finish := by
  obtain ⟨done, start, run, pos, rest⟩ := f
  cases h with
  | @stay c rest hrest hread =>
    obtain rfl : _ = c :: rest := hrest
    rw [finish, lexemes]
    split
    · next h => cases h.symm.trans hread
    · rfl
    · next h => cases h.symm.trans hread
  | @cut l hread =>
    cases rest with
    | nil => cases hread
    | cons c rest =>
      rw [finish, lexemes]
      split
      · next h => cases h.symm.trans hread
      · next h => cases h.symm.trans hread
      · next h =>
        obtain rfl := Option.some.inj (Except.ok.inj (h.symm.trans hread))
        rw [finish_cut]
        cases lexemes _ [] _ _ <;> simp [Except.map]

-- A step can be told from the front it leads to.
theorem Steps.read_of_stay {c : Char} {rest : List Char} (h : Steps f (f.stay c rest)) :
    lexeme? f.pos f.rest = .ok none := by
  generalize hg : f.stay c rest = g at h
  cases h with
  | stay _ hread => exact hread
  | cut =>
    have hrun : c :: f.run = [] := congrArg run hg
    cases hrun

theorem Steps.read_of_cut {l : Lexeme} (h : Steps f (f.cut l)) :
    lexeme? f.pos f.rest = .ok (some l) := by
  generalize hg : f.cut l = g at h
  cases h with
  | @stay c rest hrest =>
    have hrun : [] = c :: f.run := congrArg run hg
    cases hrun
  | @cut l' hread =>
    have htoken : _ ++ [l.token] = _ ++ [l'.token] := congrArg done hg
    have hstop : l.stop = l'.stop := congrArg pos hg
    have hrest : l.rest = l'.rest := congrArg rest hg
    obtain ⟨token, stop, rest⟩ := l
    obtain ⟨token', stop', rest'⟩ := l'
    obtain rfl : token = token' := by simpa using htoken
    obtain rfl : stop = stop' := hstop
    obtain rfl : rest = rest' := hrest
    exact hread

theorem Reached.finish_eq (h : Reached source f) : tokens source = f.finish := by
  induction h with
  | refl =>
    simp only [finish, begin, List.nil_append]
    rw [tokens]
    cases lexemes 0 [] 0 source <;> rfl
  | tail _ hstep ih => rw [ih, hstep.finish_eq]

-- Where the lexer stands in the source.
theorem Reached.exists_before (h : Reached source f) :
    ∃ before, source = before ++ f.rest ∧ f.pos = byteLength before := by
  induction h with
  | refl => exact ⟨[], rfl, rfl⟩
  | tail _ hstep ih =>
    obtain ⟨before, hsource, hpos⟩ := ih
    cases hstep with
    | @stay c rest hrest =>
      refine ⟨before ++ [c], ?_, ?_⟩
      · rw [hsource, hrest, stay, List.append_assoc, List.singleton_append]
      · rw [stay, hpos, byteLength_append, byteLength_cons, byteLength_nil, Nat.add_zero]
    | @cut l hread =>
      obtain ⟨m, hm, hstop, -⟩ := spelled_lexeme? hread
      refine ⟨before ++ m, ?_, ?_⟩
      · rw [hsource, hm, cut, List.append_assoc]
      · rw [cut, hstop, hpos, byteLength_append]

-- From here on the lexer comes to every place, but for those inside of the pieces that it cuts.
theorem Reached.passes (h : Reached source f) {ts : List Token} (hts : tokens source = .ok ts)
    {x : List Char} (hrest : f.rest = x ++ cs) :
    (∃ g, Reached source g ∧ g.rest = cs ∧ g.pos = f.pos + byteLength x) ∨
      ∃ g l, Reached source g ∧ Steps g (g.cut l) ∧ g.pos < f.pos + byteLength x ∧
        f.pos + byteLength x < l.stop := by
  induction hlength : x.length using Nat.strong_induction_on generalizing f x with
  | _ n ih =>
    cases x with
    | nil => exact .inl ⟨f, h, hrest, rfl⟩
    | cons c x =>
      have onward {g : Front} {y : List Char} (hstep : Steps f g) (hg : g.rest = y ++ cs)
          (hy : y.length < n) (hpos : g.pos + byteLength y = f.pos + byteLength (c :: x)) :=
        hpos ▸ ih y.length hy (h.tail hstep) hg rfl
      cases hread : lexeme? f.pos f.rest with
      | error fault =>
        have hfault := h.finish_eq.symm.trans hts
        cases (finish_of_error hread).symm.trans hfault
      | ok found =>
        cases found with
        | none =>
          refine onward (.stay hrest hread) rfl ?_ ?_
          · rw [← hlength]
            exact Nat.lt_succ_self _
          · rw [byteLength_cons, stay, Nat.add_assoc]
        | some l =>
          obtain ⟨m, hm, hstop, -⟩ := spelled_lexeme? hread
          have hm' := hrest.symm.trans hm
          have behind (y : List Char) (hx : c :: x = m ++ y) (hrest' : l.rest = y ++ cs) := by
            refine onward (.cut hread) hrest' ?_ ?_
            · have hshorter := lexeme?_rest_length hread
              rw [hm, List.length_append] at hshorter
              rw [← hlength, hx, List.length_append]
              omega
            · rw [cut, hstop, hx, byteLength_append, Nat.add_assoc]
          rcases List.append_eq_append_iff.1 hm' with ⟨y, hy, hcsy⟩ | ⟨y, hx, hrest'⟩
          · cases y with
            | nil => exact behind [] (by simpa using hy.symm) (by simpa using hcsy.symm)
            | cons d y =>
              have hc := c.utf8Size_pos
              have hd := d.utf8Size_pos
              refine .inr ⟨f, l, h, .cut hread, ?_, ?_⟩
              · rw [byteLength_cons]
                omega
              · simp only [hstop, hy, byteLength_append, byteLength_cons]
                omega
          · exact behind y hx hrest'

-- So in a source that has tokens each place is one that the lexer comes to, or lies inside a piece.
theorem reached_or_inside {before : List Char} {ts : List Token}
    (hts : tokens (before ++ cs) = .ok ts) :
    (∃ f, Reached (before ++ cs) f ∧ f.rest = cs ∧ f.pos = byteLength before) ∨
      ∃ f l, Reached (before ++ cs) f ∧ Steps f (f.cut l) ∧ f.pos < byteLength before ∧
        byteLength before < l.stop := by
  have hbegin : Reached (before ++ cs) (begin (before ++ cs)) := .refl
  simpa [begin] using hbegin.passes hts rfl

-- Tokens that are cut stay.
theorem exists_of_finish {ts : List Token} (h : f.finish = .ok ts) :
    ∃ later, ts = f.done ++ later := by
  obtain ⟨later, -, rfl⟩ := exists_of_map_eq_ok h
  exact ⟨later, rfl⟩

end Front

-- The text run in progress becomes one text, with all that is still added to it.
theorem exists_text_of_lexemes {start pos : Nat} {run cs : List Char} {ts : List Token}
    (hrun : run ≠ []) (h : lexemes start run pos cs = .ok ts) :
    ∃ more later, ts = .text ⟨start, run.reverse ++ more⟩ :: later := by
  fun_induction lexemes start run pos cs generalizing ts with
  | case1 start run pos =>
    obtain rfl := Except.ok.inj h
    exact ⟨[], [], by simp [textRun, hrun]⟩
  | case2 => cases h
  | case3 start run pos c rest hnone ih =>
    obtain ⟨more, later, rfl⟩ := ih (List.cons_ne_nil _ _) h
    exact ⟨c :: more, later, by simp⟩
  | case4 start run pos c rest l hread ih =>
    obtain ⟨tokens, -, rfl⟩ := exists_of_map_eq_ok h
    exact ⟨[], l.token :: tokens, by simp [textRun, hrun]⟩

namespace Front

variable {source cs : List Char} {f : Front}

-- What is in front of the lexer is taken for a tag: the source is refused for it, or a token of its
-- own begins here and the text in front ends.
inductive TakenForTag (source : List Char) (f : Front) : Prop where
  | refused {fault : Fault} (hread : lexeme? f.pos f.rest = .error fault)
      (hsource : tokens source = .error fault)
  | token {l : Lexeme} (hstep : Steps f (f.cut l)) (hspelled : ReadsSpelled f.pos f.rest l)
      (hsource : ∀ ts, tokens source = .ok ts →
        ∃ later, ts = f.done ++ textRun f.start f.run ++ l.token :: later)

-- The character in front of the lexer stays in the text around it.
structure StaysText (source : List Char) (f : Front) (c : Char) (rest : List Char) : Prop where
  step : Steps f (f.stay c rest)
  text : ∀ ts, tokens source = .ok ts →
    ∃ more later, ts = f.done ++ .text ⟨f.start, f.run.reverse ++ c :: more⟩ :: later

-- A token that is cut is among those of the source.
theorem Reached.exists_later {l : Lexeme} (h : Reached source f) (hstep : Steps f (f.cut l))
    {ts : List Token} (hts : tokens source = .ok ts) :
    ∃ later, ts = f.done ++ textRun f.start f.run ++ l.token :: later := by
  rw [h.finish_eq, hstep.finish_eq] at hts
  obtain ⟨later, rfl⟩ := exists_of_finish hts
  exact ⟨later, by simp [cut]⟩

theorem Reached.takenForTag (h : Reached source f) (hread : lexeme? f.pos f.rest ≠ .ok none) :
    TakenForTag source f := by
  cases hr : lexeme? f.pos f.rest with
  | error fault => exact .refused hr (h.finish_eq.trans (finish_of_error hr))
  | ok found =>
    cases found with
    | none => exact absurd hr hread
    | some l =>
      exact .token (.cut hr) (spelled_lexeme? hr) fun _ hts => h.exists_later (.cut hr) hts

theorem TakenForTag.read_ne (h : TakenForTag source f) : lexeme? f.pos f.rest ≠ .ok none := by
  intro hnone
  cases h with
  | refused hread => cases hread.symm.trans hnone
  | token hstep => cases hstep.read_of_cut.symm.trans hnone

theorem Reached.staysText {c : Char} {rest : List Char} (h : Reached source f)
    (hrest : f.rest = c :: rest) (hread : lexeme? f.pos f.rest = .ok none) :
    StaysText source f c rest := by
  refine ⟨.stay hrest hread, fun ts hts => ?_⟩
  rw [h.finish_eq, (Steps.stay hrest hread).finish_eq] at hts
  obtain ⟨later, hlater, rfl⟩ := exists_of_map_eq_ok hts
  obtain ⟨more, later, rfl⟩ := exists_text_of_lexemes (List.cons_ne_nil _ _) hlater
  exact ⟨more, later, by simp [stay]⟩

theorem read_eq_none_iff (hrest : f.rest = '@' :: cs) :
    lexeme? f.pos f.rest = .ok none ↔ ¬ BeginsTag cs := by
  rw [hrest]
  exact tag?_eq_none_iff

theorem Reached.takenForTag_iff (h : Reached source f) (hrest : f.rest = '@' :: cs) :
    TakenForTag source f ↔ BeginsTag cs := by
  refine ⟨fun htaken => ?_, fun hbegins => h.takenForTag fun hnone => ?_⟩
  · exact not_not.1 (mt (read_eq_none_iff hrest).2 htaken.read_ne)
  · exact (read_eq_none_iff hrest).1 hnone hbegins

theorem Reached.staysText_iff (h : Reached source f) (hrest : f.rest = '@' :: cs) :
    StaysText source f '@' cs ↔ ¬ BeginsTag cs := by
  refine ⟨fun hstays hbegins => ?_, fun hbegins => ?_⟩
  · exact (((h.takenForTag_iff hrest).2 hbegins).read_ne) hstays.step.read_of_stay
  · exact h.staysText hrest ((read_eq_none_iff hrest).2 hbegins)

end Front

-- The raw text in front of the first `@endraw` of those with `bounded` behind them, and what is
-- behind it.
structure FirstEnd (bounded : List Char → Prop) (cs body rest : List Char) : Prop where
  split : cs = body ++ "@endraw".toList ++ rest
  bound : bounded rest
  first : ∀ before after, cs = before ++ "@endraw".toList ++ after → bounded after →
    body.length ≤ before.length

theorem FirstEnd.unique {bounded : List Char → Prop} {cs body rest body' rest' : List Char}
    (h : FirstEnd bounded cs body rest) (h' : FirstEnd bounded cs body' rest') :
    body = body' ∧ rest = rest' := by
  have hlength : body.length = body'.length :=
    Nat.le_antisymm (h.first _ _ h'.split h'.bound) (h'.first _ _ h.split h.bound)
  have hsame := h.split.symm.trans h'.split
  rw [List.append_assoc, List.append_assoc] at hsame
  obtain ⟨rfl, hrest⟩ := List.append_inj hsame hlength
  exact ⟨rfl, List.append_cancel_left hrest⟩

theorem splitAtWord?_first {word cs before rest : List Char}
    (h : splitAtWord? word cs = some (before, rest)) {before' rest' : List Char}
    (h' : cs = before' ++ word ++ rest') : before.length ≤ before'.length := by
  induction cs generalizing before before' with
  | nil => cases h
  | cons c cs ih =>
    unfold splitAtWord? at h
    split at h
    · obtain ⟨rfl, -⟩ := Prod.mk.inj (Option.some.inj h)
      exact Nat.zero_le _
    · next hnone =>
      obtain ⟨⟨b, r⟩, hb, he⟩ := Option.map_eq_some_iff.1 h
      obtain ⟨rfl, rfl⟩ := Prod.mk.inj he
      cases before' with
      | nil => cases (dropWord?_eq_some_iff.2 h').symm.trans hnone
      | cons d before' => exact Nat.succ_le_succ (ih hb (List.cons.inj h').2)

theorem splitAtWord?_ne_none {word before rest : List Char} (hword : word ≠ []) :
    splitAtWord? word (before ++ word ++ rest) ≠ none := by
  induction before with
  | nil =>
    obtain ⟨w, word, rfl⟩ := List.exists_cons_of_ne_nil hword
    have hdrop : dropWord? (w :: word) (w :: (word ++ rest)) = some rest :=
      dropWord?_eq_some_iff.2 rfl
    simp [splitAtWord?, hdrop]
  | cons c before ih =>
    rw [List.cons_append, List.cons_append, splitAtWord?]
    split
    · exact Option.some_ne_none _
    · exact fun hnone => ih (Option.map_eq_none_iff.1 hnone)

theorem firstEnd_iff {cs body rest : List Char} :
    FirstEnd (fun _ => True) cs body rest ↔
      splitAtWord? "@endraw".toList cs = some (body, rest) := by
  have sound {b r : List Char} (h : splitAtWord? "@endraw".toList cs = some (b, r)) :
      FirstEnd (fun _ => True) cs b r :=
    ⟨eq_append_of_splitAtWord? h, trivial, fun _ _ h' _ => splitAtWord?_first h h'⟩
  refine ⟨fun h => ?_, sound⟩
  have hsome : splitAtWord? "@endraw".toList cs ≠ none := by
    rw [h.split]
    exact splitAtWord?_ne_none (by decide)
  obtain ⟨⟨b, r⟩, hread⟩ := Option.ne_none_iff_exists'.1 hsome
  obtain ⟨rfl, rfl⟩ := h.unique (sound hread)
  exact hread

namespace Front

variable {source inner : List Char} {f : Front}

-- The raw block in front of the lexer is `body`, and `rest` follows it.
def EndsRaw (f : Front) (body rest : List Char) : Prop :=
  Steps f (f.cut ⟨.text ⟨f.pos + 4, body⟩, f.pos + 4 + byteLength body + 7, rest⟩)

theorem read_raw (hrest : f.rest = '@' :: "raw".toList ++ inner) (hbound : ¬ GoesOn inner) :
    lexeme? f.pos f.rest = (rawBlock f.pos inner).map some := by
  rw [hrest]
  exact tag?_raw hbound

-- The code looks for the word alone.
theorem endsRaw_iff (hrest : f.rest = '@' :: "raw".toList ++ inner) (hbound : ¬ GoesOn inner)
    {body rest : List Char} : f.EndsRaw body rest ↔ FirstEnd (fun _ => True) inner body rest := by
  have hread := read_raw hrest hbound
  rw [firstEnd_iff]
  unfold rawBlock at hread
  constructor
  · intro hstep
    have hfound := hread.symm.trans hstep.read_of_cut
    split at hfound
    · cases hfound
    · next hsplit =>
      obtain ⟨htoken, -, rfl⟩ := Lexeme.mk.inj (Option.some.inj (Except.ok.inj hfound))
      obtain ⟨-, rfl⟩ := Slice.mk.inj (Token.text.inj htoken)
      exact hsplit
  · intro hsplit
    rw [hsplit] at hread
    exact .cut hread

theorem Reached.unterminatedRaw (h : Reached source f)
    (hrest : f.rest = '@' :: "raw".toList ++ inner) (hbound : ¬ GoesOn inner)
    (hnone : ∀ body rest, inner ≠ body ++ "@endraw".toList ++ rest) :
    tokens source = .error ⟨.unterminatedRaw, f.pos⟩ := by
  have hread := read_raw hrest hbound
  have hsplit : splitAtWord? "@endraw".toList inner = none := by
    refine Option.eq_none_iff_forall_ne_some.2 fun found hfound => ?_
    exact hnone found.1 found.2 (eq_append_of_splitAtWord? hfound)
  rw [rawBlock, hsplit] at hread
  exact h.finish_eq.trans (finish_of_error hread)

-- The block ends where the words have to end just if the first of them does.
theorem endsRaw_bounded_iff (hrest : f.rest = '@' :: "raw".toList ++ inner)
    (hbound : ¬ GoesOn inner) :
    (∀ body rest, f.EndsRaw body rest ↔ FirstEnd (¬ GoesOn ·) inner body rest) ↔
      ∀ body rest, FirstEnd (fun _ => True) inner body rest → ¬ GoesOn rest := by
  constructor
  · exact fun h body rest hfirst => ((h body rest).1 ((endsRaw_iff hrest hbound).2 hfirst)).bound
  · intro h body rest
    rw [endsRaw_iff hrest hbound]
    constructor
    · intro hfirst
      exact ⟨hfirst.split, h _ _ hfirst, fun _ _ heq _ => hfirst.first _ _ heq trivial⟩
    · intro hlast
      have hsome : splitAtWord? "@endraw".toList inner ≠ none := by
        rw [hlast.split]
        exact splitAtWord?_ne_none (by decide)
      obtain ⟨⟨b, r⟩, hfound⟩ := Option.ne_none_iff_exists'.1 hsome
      have hfirst := firstEnd_iff.2 hfound
      have hbounded : FirstEnd (¬ GoesOn ·) inner b r :=
        ⟨hfirst.split, h _ _ hfirst, fun _ _ heq _ => hfirst.first _ _ heq trivial⟩
      obtain ⟨rfl, rfl⟩ := hbounded.unique hlast
      exact hfirst

-- An `@` that the lexer comes to in text is taken for a tag if what begins a tag stands behind it,
-- and stays in the text otherwise. A raw block that begins here ends at the first `@endraw`, so it
-- keeps to the boundaries of words unless a longer word begins there.
theorem Reached.recognizes {cs : List Char} (h : Reached source f) (hrest : f.rest = '@' :: cs) :
    (∃ before, source = before ++ '@' :: cs ∧ f.pos = byteLength before) ∧
    (TakenForTag source f ↔ BeginsTag cs) ∧
    (StaysText source f '@' cs ↔ ¬ BeginsTag cs) ∧
    ∀ inner, cs = "raw".toList ++ inner → ¬ GoesOn inner →
      (∀ body rest, f.EndsRaw body rest ↔ FirstEnd (fun _ => True) inner body rest) ∧
      ((∀ body rest, inner ≠ body ++ "@endraw".toList ++ rest) →
        tokens source = .error ⟨.unterminatedRaw, f.pos⟩) ∧
      ((∀ body rest, f.EndsRaw body rest ↔ FirstEnd (¬ GoesOn ·) inner body rest) ↔
        ∀ body rest, FirstEnd (fun _ => True) inner body rest → ¬ GoesOn rest) := by
  refine ⟨hrest ▸ h.exists_before, h.takenForTag_iff hrest, h.staysText_iff hrest, ?_⟩
  rintro inner rfl hbound
  exact ⟨fun _ _ => endsRaw_iff hrest hbound, h.unterminatedRaw hrest hbound,
    endsRaw_bounded_iff hrest hbound⟩

-- The word behind the first `@` goes on, the one behind the second does not. A raw block ends at
-- its `@endraw`.
theorem recognizes_else :
    StaysText "@elsewhere@else".toList (begin "@elsewhere@else".toList) '@'
        "elsewhere@else".toList ∧
      (∃ f, Reached "@e@else".toList f ∧ f.rest = "@else".toList ∧
        TakenForTag "@e@else".toList f) ∧
      (begin "@raw @else@endraw".toList).EndsRaw " @else".toList [] := by
  have hbegin : Reached "@elsewhere@else".toList (begin "@elsewhere@else".toList) := .refl
  have htext : tag? 0 "elsewhere@else".toList = .ok none := rfl
  have hraw : Reached "@raw @else@endraw".toList (begin "@raw @else@endraw".toList) := .refl
  have hsplit : FirstEnd (fun _ => True) " @else@endraw".toList " @else".toList [] :=
    firstEnd_iff.2 (by decide)
  have hends := ((hraw.recognizes rfl).2.2.2 " @else@endraw".toList rfl (by decide)).1
  refine ⟨(hbegin.recognizes rfl).2.2.1.2 (tag?_eq_none_iff.1 htext), ?_, (hends _ _).2 hsplit⟩
  have hfirst : Steps (begin "@e@else".toList) ⟨[], 0, ['@'], 1, "e@else".toList⟩ :=
    .stay rfl rfl
  have hsecond : Steps ⟨[], 0, ['@'], 1, "e@else".toList⟩ ⟨[], 0, ['e', '@'], 2, "@else".toList⟩ :=
    .stay rfl rfl
  have hreached : Reached "@e@else".toList ⟨[], 0, ['e', '@'], 2, "@else".toList⟩ :=
    .tail (.single hfirst) hsecond
  have hbegins : BeginsTag ("else".toList ++ []) := .keyword (by decide) (by decide)
  exact ⟨_, hreached, rfl, (hreached.recognizes rfl).2.1.2 hbegins⟩

-- Does every word end where no longer one goes on, that of a raw block as well?
def KeywordsBounded : Prop :=
  ∀ (source cs : List Char) (f : Front), Reached source f → f.rest = '@' :: cs →
    (TakenForTag source f ↔ BeginsTag cs) ∧ (StaysText source f '@' cs ↔ ¬ BeginsTag cs) ∧
    ∀ inner, cs = "raw".toList ++ inner → ¬ GoesOn inner → ∀ body rest,
      f.EndsRaw body rest ↔ FirstEnd (¬ GoesOn ·) inner body rest

theorem not_keywordsBounded : ¬ KeywordsBounded := by
  intro h
  have hbounded := (h "@raw a @endrawn b @endraw".toList _ (begin _) .refl rfl).2.2
    " a @endrawn b @endraw".toList rfl (by decide)
  have hfirst : FirstEnd (fun _ => True) " a @endrawn b @endraw".toList " a ".toList
      "n b @endraw".toList := firstEnd_iff.2 (by decide)
  have hends : (begin "@raw a @endrawn b @endraw".toList).EndsRaw " a ".toList
      "n b @endraw".toList := (endsRaw_iff rfl (by decide)).2 hfirst
  exact absurd ((hbounded _ _).1 hends).bound (by decide)

end Front

end Stencil.Markup
