import Stencil.Proofs.Output.Escaping
import Stencil.Text.Word

/-!
Entities replaced back. An escaped text can be read in one way only: every ampersand in it starts an
entity, also where the text that was escaped spelled an entity itself.
-/

namespace Stencil

namespace Text

-- The characters that have an entity.
def replaced : List Char := ['&', '<', '>', '"', '\'']

theorem mem_replaced_of_entity {c : Char} {e : String} (h : entity? c = some e) : c ∈ replaced := by
  unfold entity? at h
  split at h <;> first | decide | cases h

-- The entity that a text starts with: the character that it stands for, and what follows it.
def entityAt? (cs : List Char) : Option (Char × List Char) :=
  replaced.findSome? fun c =>
    (entity? c).bind fun e => (dropWord? e.toList cs).map (c, ·)

theorem exists_of_entityAt? {cs rest : List Char} {c : Char} (h : entityAt? cs = some (c, rest)) :
    ∃ e, entity? c = some e ∧ cs = e.toList ++ rest := by
  obtain ⟨d, -, hd⟩ := List.exists_of_findSome?_eq_some h
  obtain ⟨e, he, hmap⟩ := Option.bind_eq_some_iff.mp hd
  obtain ⟨rest', hdrop, hpair⟩ := Option.map_eq_some_iff.mp hmap
  obtain ⟨rfl, rfl⟩ := Prod.mk.inj hpair
  exact ⟨e, he, dropWord?_eq_some_iff.mp hdrop⟩

-- None of the five is the beginning of another.
theorem entityAt?_append {c : Char} {e : String} (h : entity? c = some e) (rest : List Char) :
    entityAt? (e.toList ++ rest) = some (c, rest) := by
  unfold entity? at h
  split at h <;> cases h <;> rfl

theorem exists_tail_of_entity {c : Char} {e : String} (h : entity? c = some e) :
    ∃ tail, e.toList = '&' :: tail ∧ '&' ∉ tail := by
  unfold entity? at h
  split at h <;> cases h <;> exact ⟨_, rfl, by decide⟩

theorem ne_of_plain {c : Char} (h : entity? c = none) : c ≠ '&' := by
  rintro rfl
  cases h

theorem entityAt?_of_ne {c : Char} (h : c ≠ '&') (cs : List Char) : entityAt? (c :: cs) = none := by
  refine Option.eq_none_iff_forall_ne_some.mpr fun (d, rest) hd => ?_
  obtain ⟨e, he, hcs⟩ := exists_of_entityAt? hd
  obtain ⟨tail, htail, -⟩ := exists_tail_of_entity he
  rw [htail] at hcs
  exact h (List.cons.inj hcs).1

theorem entityAt?_length {c d : Char} {cs rest : List Char}
    (h : entityAt? (c :: cs) = some (d, rest)) : rest.length ≤ cs.length := by
  obtain ⟨e, he, hcs⟩ := exists_of_entityAt? h
  obtain ⟨tail, htail, -⟩ := exists_tail_of_entity he
  rw [htail, List.cons_append] at hcs
  rw [(List.cons.inj hcs).2, List.length_append]
  exact Nat.le_add_left _ _

-- Replaces entities back, from left to right. What an entity is replaced by is not looked at again.
def unescape (cs : List Char) : List Char :=
  match cs with
  | [] => []
  | c :: cs =>
    match h : entityAt? (c :: cs) with
    | some (d, rest) =>
      have := entityAt?_length h
      d :: unescape rest
    | none => c :: unescape cs
termination_by cs.length

def unescapeMarkup (s : String) : String := String.ofList (unescape s.toList)

theorem unescape_entity {c : Char} {e : String} (h : entity? c = some e) (rest : List Char) :
    unescape (e.toList ++ rest) = c :: unescape rest := by
  have hat := entityAt?_append h rest
  obtain ⟨tail, htail, -⟩ := exists_tail_of_entity h
  rw [htail, List.cons_append] at hat ⊢
  rw [unescape]
  split
  · next hread =>
    obtain ⟨rfl, rfl⟩ := Prod.mk.inj (Option.some.inj (hat.symm.trans hread))
    rfl
  · next hread => cases hat.symm.trans hread

theorem unescape_plain {c : Char} (h : entity? c = none) (rest : List Char) :
    unescape (c :: rest) = c :: unescape rest := by
  have hat := entityAt?_of_ne (ne_of_plain h) rest
  rw [unescape]
  split
  · next hread => cases hat.symm.trans hread
  · rfl

theorem unescape_escape (cs : List Char) : unescape (cs.flatMap escapeChar) = cs := by
  induction cs with
  | nil => rw [List.flatMap_nil, unescape]
  | cons c cs ih =>
    rw [List.flatMap_cons]
    cases hc : entity? c with
    | none => rw [escapeChar_of_plain hc, List.singleton_append, unescape_plain hc, ih]
    | some e => rw [escapeChar_of_entity hc, unescape_entity hc, ih]

theorem unescapeMarkup_escapeMarkup (s : String) : unescapeMarkup (escapeMarkup s) = s := by
  rw [unescapeMarkup, toList_escapeMarkup, unescape_escape, String.ofList_toList]

theorem suffix_of_append {c : Char} {xs more rest : List Char} (hxs : c ∉ xs)
    (h : c :: rest <:+ xs ++ more) : c :: rest <:+ more := by
  induction xs with
  | nil => exact h
  | cons x xs ih =>
    have hx : c ≠ x := fun heq => hxs (heq ▸ List.mem_cons_self)
    have htail : c ∉ xs := fun hmem => hxs (List.mem_cons_of_mem x hmem)
    rcases List.suffix_cons_iff.mp h with heq | hsuffix
    · exact absurd (List.cons.inj heq).1 hx
    · exact ih htail hsuffix

-- An ampersand in what is written for a text starts the entity of one of its characters.
theorem exists_entity_of_suffix (cs : List Char) {rest : List Char}
    (h : '&' :: rest <:+ cs.flatMap escapeChar) :
    ∃ c ∈ cs, ∃ e, entity? c = some e ∧ e.toList <+: '&' :: rest := by
  induction cs with
  | nil => cases List.suffix_nil.mp h
  | cons c cs ih =>
    rw [List.flatMap_cons] at h
    have hlater : '&' :: rest <:+ cs.flatMap escapeChar →
        ∃ d ∈ c :: cs, ∃ e, entity? d = some e ∧ e.toList <+: '&' :: rest := by
      intro hsuffix
      obtain ⟨d, hd, hentity⟩ := ih hsuffix
      exact ⟨d, List.mem_cons_of_mem c hd, hentity⟩
    cases hc : entity? c with
    | none =>
      rw [escapeChar_of_plain hc] at h
      refine hlater (suffix_of_append ?_ h)
      exact fun hmem => ne_of_plain hc (List.mem_singleton.mp hmem).symm
    | some e =>
      obtain ⟨tail, htail, hnone⟩ := exists_tail_of_entity hc
      rw [escapeChar_of_entity hc, htail, List.cons_append] at h
      rcases List.suffix_cons_iff.mp h with heq | hsuffix
      · refine ⟨c, List.mem_cons_self, e, hc, ?_⟩
        rw [heq, htail]
        exact List.prefix_append ('&' :: tail) _
      · exact hlater (suffix_of_append hnone hsuffix)

theorem escapeMarkup_append (s t : String) :
    escapeMarkup (s ++ t) = escapeMarkup s ++ escapeMarkup t := by
  rw [← String.toList_inj, String.toList_append, toList_escapeMarkup, toList_escapeMarkup,
    toList_escapeMarkup, String.toList_append, List.flatMap_append]

theorem isDelimiter_of_replaced {c : Char} (h : c ∈ replaced) (hne : c ≠ '&') :
    isDelimiter c = true := by
  simp only [replaced, List.mem_cons, List.not_mem_nil, or_false] at h
  rcases h with rfl | rfl | rfl | rfl | rfl
  · exact absurd rfl hne
  all_goals rfl

-- Escaping loses nothing and can be done piece by piece. What a byte sink is given for a text is the
-- encoded form of what the text is escaped to.
theorem escapeMarkup_reversible :
    (∀ s, Pieces s.toList (escapePieces s) ∧
      (escapeMarkup s).toList = s.toList.flatMap escapeChar) ∧
    (∀ s t, escapeMarkup (s ++ t) = escapeMarkup s ++ escapeMarkup t) ∧
    (∀ s, (∀ c ∈ replaced, c ≠ '&' → c ∉ (escapeMarkup s).toList) ∧
      ∀ rest, '&' :: rest <:+ (escapeMarkup s).toList →
        ∃ c ∈ replaced, ∃ e, entity? c = some e ∧ e.toList <+: '&' :: rest) ∧
    (∀ s, unescapeMarkup (escapeMarkup s) = s) ∧
    Function.Injective escapeMarkup ∧
    ∀ (s : String) (content : List UInt8),
      (ByteSink.append ⟨.html, content⟩ (.escaped s)).content =
        content ++ encode (escapeMarkup s) := by
  refine ⟨fun s => ⟨pieces_escapePieces s, toList_escapeMarkup s⟩, escapeMarkup_append,
    fun s => ⟨fun c hc hne hmem => ?_, fun rest hrest => ?_⟩, unescapeMarkup_escapeMarkup,
    Function.LeftInverse.injective unescapeMarkup_escapeMarkup, fun s content => ?_⟩
  · have hdelimiter : isDelimiter c = true := isDelimiter_of_replaced hc hne
    have hmem' : c ∈ delimiters (escapeMarkup s) := List.mem_filter.mpr ⟨hmem, hdelimiter⟩
    rw [delimiters_escapeMarkup] at hmem'
    exact List.not_mem_nil hmem'
  · rw [toList_escapeMarkup] at hrest
    obtain ⟨c, -, e, he, hprefix⟩ := exists_entity_of_suffix _ hrest
    exact ⟨c, mem_replaced_of_entity he, e, he, hprefix⟩
  · exact congrArg (content ++ ·) (ContentType.html.encode_pieces s)

-- A text that spells an entity, and one that is what the entity stands for.
theorem escapeMarkup_reversible_spelled :
    escapeMarkup "é&lt;'" = "é&amp;lt;&#39;" ∧
      ('\'' ∈ replaced ∧ '\'' ≠ '&' ∧ '\'' ∉ (escapeMarkup "é&lt;'").toList) ∧
      ('&' :: "#39;".toList <:+ (escapeMarkup "é&lt;'").toList ∧
        ∃ c ∈ replaced, ∃ e, entity? c = some e ∧ e.toList <+: '&' :: "#39;".toList) ∧
      unescapeMarkup "é&amp;lt;&#39;" = "é&lt;'" ∧
      escapeMarkup "&lt;" ≠ escapeMarkup "<" := by
  obtain ⟨-, -, hclean, hback, hinjective, -⟩ := escapeMarkup_reversible
  have hescaped : escapeMarkup "é&lt;'" = "é&amp;lt;&#39;" := by decide +kernel
  have hsuffix : '&' :: "#39;".toList <:+ (escapeMarkup "é&lt;'").toList := by
    rw [hescaped]
    exact ⟨"é&amp;lt;".toList, rfl⟩
  have hreplaced : '\'' ∈ replaced := by decide
  have hne : '\'' ≠ '&' := by decide
  refine ⟨hescaped, ⟨hreplaced, hne, (hclean _).1 _ hreplaced hne⟩,
    ⟨hsuffix, (hclean _).2 _ hsuffix⟩, hescaped ▸ hback "é&lt;'", fun heq => ?_⟩
  exact absurd (hinjective heq) (by decide)

end Text

end Stencil
