import Stencil.Proofs.Directory.Below
import Stencil.Proofs.Markup.Targets
import Stencil.Proofs.Template.SourceMap

/-!
The files of included templates. Every target of an inclusion has a path, which goes on from the
root by the segments of the name, and no two targets have the same one.
-/

namespace Stencil

open Markup

namespace Directory

variable {segments : List (List Char)}

theorem nameFault?_target (h : IsName segments) : nameFault? (target segments) = none := by
  rw [nameFault?_eq_none_iff, h.slashParts_target]
  refine ⟨fun segment hsegment => ⟨h.filled segment hsegment, ?_⟩, fun c hc => ?_⟩
  · rintro rfl
    exact h.not_mem rfl _ hsegment List.mem_cons_self
  · rw [target, String.toList_ofList, joinSlash_eq_intercalate] at hc
    obtain rfl | ⟨segment, hsegment, hmem⟩ := mem_intercalate hc
    · decide
    · constructor <;> rintro rfl <;> exact h.not_mem rfl segment hsegment hmem

-- No segment stays where it is.
theorem ne_dot (h : IsName segments) : ∀ segment ∈ segments, segment ≠ ['.'] := by
  rintro segment hsegment rfl
  exact h.not_mem rfl _ hsegment List.mem_cons_self

theorem steps_target (h : IsName segments) : steps (target segments) = segments := by
  rw [steps, h.slashParts_target, List.filter_eq_self]
  exact fun segment hsegment => decide_eq_true (ne_dot h segment hsegment)

theorem lead_target (d : Directory) (h : IsName segments) : d.lead (target segments) = [] := by
  rw [lead, h.slashParts_target]
  split
  · cases segments with
    | nil => rfl
    | cons first others =>
      have hfirst := ne_dot h first List.mem_cons_self
      cases first with
      | nil => exact absurd rfl (h.filled [] List.mem_cons_self)
      | cons c cs => exact if_neg hfirst
  · rfl

-- The file for a target lies where the segments lead, and has the extension.
theorem path_target (d : Directory) (hslash : '/' ∉ d.extension.toList) {above : List (List Char)}
    {last : List Char} (h : IsName (above ++ [last])) :
    ∃ p, d.path (target (above ++ [last])) = .ok p ∧
      p.components = d.root.components ++ above.map .name ++
        [.name (last ++ d.extension.toList)] := by
  have hname := nameFault?_target h
  obtain ⟨hjoined, hne⟩ := components_joined (d := d) hname
  rw [lead_target d h, steps_target h, List.append_nil, List.map_append, ← List.append_assoc]
    at hjoined
  refine ⟨_, by rw [path, hname], ?_⟩
  exact (Path.components_extend hslash hne).1 _ last hjoined

-- The path tells which target it is for.
theorem target_eq_of_components (d : Directory) (hslash : '/' ∉ d.extension.toList)
    {segments' : List (List Char)} (h : IsName segments) (h' : IsName segments') {p p' : Path}
    (hp : d.path (target segments) = .ok p) (hp' : d.path (target segments') = .ok p')
    (hsame : p.components = p'.components) : segments = segments' := by
  obtain ⟨above, last, rfl⟩ := List.eq_nil_or_concat' segments |>.resolve_left h.ne_nil
  obtain ⟨above', last', rfl⟩ := List.eq_nil_or_concat' segments' |>.resolve_left h'.ne_nil
  obtain ⟨q, hq, hcomponents⟩ := d.path_target hslash h
  obtain ⟨q', hq', hcomponents'⟩ := d.path_target hslash h'
  obtain rfl := Except.ok.inj (hp.symm.trans hq)
  obtain rfl := Except.ok.inj (hp'.symm.trans hq')
  rw [hcomponents, hcomponents'] at hsame
  obtain ⟨habove, hlast⟩ := List.append_inj' hsame rfl
  have hname := Component.name.inj (List.singleton_inj.mp hlast)
  have hnames := List.append_cancel_left habove
  rw [List.map_injective_iff.mpr (fun _ _ => Component.name.inj) hnames,
    List.append_cancel_right hname]

end Directory

-- What stands before the code of an inclusion has the name of its target in it.
theorem Markup.Opener.exists_segments {opener : List Char} {name : String}
    (h : Opener opener (.inclusion name)) :
    ∃ segments, IsName segments ∧ opener = inclusionOpener segments ∧ name = target segments := by
  generalize htag : Tag.inclusion name = tag at h
  cases h with
  | inclusion hname hchars =>
    obtain ⟨segments, hsegments, rfl⟩ := IsName.exists_of_isDotted hname hchars
    have hname := (Tag.inclusion.inj (congrFun htag ⟨0, []⟩)).1
    exact ⟨segments, hsegments, rfl, hname.trans hsegments.target_eq.symm⟩
  | _ => cases congrFun htag ⟨0, []⟩

namespace Template

variable {source : String} {trimLines : Bool} {t : Template}

-- The inclusions of a template stand in its source, with the names of their targets.
theorem exists_includes (h : parse source trimLines = .ok t) {id : Nat} {name : String}
    {args : List Argument} {span : Span} (hnode : .inclusion id name args span ∈ t.nodes) :
    ∃ before cs segments inner rest, source.toList = before ++ cs ∧
      Includes cs segments inner rest ∧ name = target segments ∧
      span = ⟨byteLength before,
        byteLength (before ++ inclusionOpener segments ++ inner ++ [')'])⟩ := by
  obtain ⟨mid, -, hitems⟩ := inTurn_of_parse h
  obtain ⟨-, hparts⟩ := Node.inTurn_nodes t.body (opened_of_parse h) hitems
  obtain ⟨a, b, -, -, hat, -⟩ := (hparts _ hnode).landmarks
  generalize hitem : Item.inclusion id name args span = item at hat
  cases hat with
  | inclusion hopener hencloses =>
    cases hitem
    obtain ⟨segments, hsegments, rfl, rfl⟩ := hopener.exists_segments
    obtain ⟨before, inner, rest, hsource, rfl, rfl, hcloses, -⟩ := hencloses.code
    refine ⟨before, inclusionOpener segments ++ (inner ++ ')' :: rest), segments, inner, rest, ?_,
      ⟨hsegments, rfl, closes_iff_balanced.mp hcloses⟩, rfl, rfl⟩
    rw [hsource, List.append_assoc, List.append_assoc]
    rfl
  | _ => cases hitem

theorem parse_of_tokens_error {fault : Fault} (h : tokens source.toList = .error fault) :
    parse source trimLines = .error (.ofFault source fault) := by
  rw [parse, h]
  rfl

-- Every inclusion has a target made of segments, which are what is written with dots between them.
-- In text, an inclusion that is written so becomes a token, and what begins as one otherwise is an
-- error. Each target has a file, where the segments lead from the root, and no two have the same.
theorem inclusions_name_files (source : String) :
    (∀ trimLines t, parse source trimLines = .ok t →
      ∀ id name args span, .inclusion id name args span ∈ t.nodes →
        ∃ before cs segments inner rest, source.toList = before ++ cs ∧
          Includes cs segments inner rest ∧ name = target segments ∧
          span = ⟨byteLength before,
            byteLength (before ++ inclusionOpener segments ++ inner ++ [')'])⟩) ∧
    (∀ f, Front.Reached source.toList f →
      (∀ segments inner rest, Includes f.rest segments inner rest →
        f.Steps (f.cut (inclusionLexeme f.pos segments inner rest)) ∧
        ∀ ts, tokens source.toList = .ok ts → ∃ later, ts = f.done ++ textRun f.start f.run ++
          (inclusionLexeme f.pos segments inner rest).token :: later) ∧
      ("@template.".toList <+: f.rest →
        (∀ segments inner rest, ¬ Includes f.rest segments inner rest) →
        ∃ fault, tokens source.toList = .error fault ∧
          ∀ trimLines, parse source trimLines = .error (.ofFault source fault))) ∧
    (∀ segments, IsName segments → (target segments).toList = joinSlash segments ∧
      (target segments).toList = (dotted segments).map fun c => if c == '.' then '/' else c) ∧
    ∀ d : Directory, '/' ∉ d.extension.toList →
      (∀ above last, IsName (above ++ [last]) → ∃ p,
        d.path (target (above ++ [last])) = .ok p ∧
        p.components = d.root.components ++ above.map .name ++
          [.name (last ++ d.extension.toList)]) ∧
      ∀ segments segments', IsName segments → IsName segments' →
        target segments ≠ target segments' → ∀ p p', d.path (target segments) = .ok p →
          d.path (target segments') = .ok p' → p.components ≠ p'.components := by
  refine ⟨fun trimLines t h id name args span hnode => exists_includes h hnode,
    fun f hf => ⟨fun segments inner rest h => ?_, fun hrest hnone => ?_⟩,
    fun segments h => ⟨String.toList_ofList, ?_⟩, fun d hslash => ⟨fun above last h => ?_, ?_⟩⟩
  · have hstep := Front.steps_of_includes h
    exact ⟨hstep, fun ts hts => hf.exists_later hstep hts⟩
  · obtain ⟨fault, -, htokens⟩ := hf.refused_inclusion hrest hnone
    exact ⟨fault, htokens, fun _ => parse_of_tokens_error htokens⟩
  · rw [h.target_eq, String.toList_ofList]
  · exact d.path_target hslash h
  · intro segments segments' h h' hne p p' hp hp' hsame
    exact hne (congrArg target (d.target_eq_of_components hslash h h' hp hp' hsame))

def ab : List (List Char) := [['a'], ['b']]

-- A name with a dot in it, and one with two dots beside each other.
theorem inclusions_name_files_nested :
    (∃ t, parse "@template.a.b(x)" true = .ok t ∧ ∃ id name args span,
      .inclusion id name args span ∈ t.nodes ∧ ∃ segments, IsName segments ∧
        name = target segments) ∧
    (∃ later, tokens "@template.a.b(x)".toList =
      .ok (.tag (.inclusion "a/b" ⟨14, ['x']⟩) ⟨0, 16⟩ :: later)) ∧
    (∃ fault, parse "@template.a..b(x)" true = .error fault) ∧
    ∃ p p', Directory.templates.path "a/b" = .ok p ∧ p.text = "tpl/a/b.kiln" ∧
      p.components = [.name ['t', 'p', 'l'], .name ['a'], .name ['b', '.', 'k', 'i', 'l', 'n']] ∧
      Directory.templates.path "a_b" = .ok p' ∧ p.components ≠ p'.components := by
  obtain ⟨hread, hfront, -, hfiles⟩ := inclusions_name_files "@template.a.b(x)"
  obtain ⟨-, hbroken, -, -⟩ := inclusions_name_files "@template.a..b(x)"
  have hname : IsName ab := by decide
  have hother : IsName [['a', '_', 'b']] := by decide
  have hcloses : Delimiters.parens.Closes ['x'] [] := rfl
  have hincludes : Includes "@template.a.b(x)".toList ab ['x'] [] :=
    ⟨hname, by decide, closes_iff_balanced.mp hcloses⟩
  refine ⟨?_, ?_, ?_, ?_⟩
  · have hany : (parse "@template.a.b(x)" true).toOption.any fun t => t.nodes.any fun
        | .inclusion .. => true
        | _ => false := by
      decide +kernel
    obtain ⟨t, ht, hnodes⟩ := (Option.any_eq_true _ _).mp hany
    obtain ⟨node, hnode, hinclusion⟩ := List.any_eq_true.mp hnodes
    have hparse := eq_ok_of_toOption ht
    cases node with
    | inclusion id name args span =>
      obtain ⟨_, _, segments, _, _, -, h, hname, -⟩ :=
        hread true t hparse id name args span hnode
      exact ⟨t, hparse, id, name, args, span, hnode, segments, h.name, hname⟩
    | _ => cases hinclusion
  · have hsome : (tokens "@template.a.b(x)".toList).toOption.isSome := by decide +kernel
    obtain ⟨ts, hts⟩ := Option.isSome_iff_exists.mp hsome
    have htokens := eq_ok_of_toOption hts
    obtain ⟨later, rfl⟩ := ((hfront (.begin _) .refl).1 ab ['x'] [] hincludes).2 ts htokens
    exact ⟨later, htokens⟩
  · have hnone : ∀ segments inner rest,
        ¬ Includes "@template.a..b(x)".toList segments inner rest := by
      intro segments inner rest h
      have hread : inclusion 0 "a..b(x)".toList = .error ⟨.invalidTemplateName, 10⟩ := rfl
      cases hread.symm.trans (inclusion_of_includes h)
    obtain ⟨fault, -, hparse⟩ := (hbroken (.begin _) .refl).2 (by decide) hnone
    exact ⟨_, hparse true⟩
  · have hslash : '/' ∉ Directory.templates.extension.toList := by decide
    obtain ⟨haccepts, hdistinct⟩ := hfiles Directory.templates hslash
    obtain ⟨p, hp, hcomponents⟩ := haccepts [['a']] ['b'] hname
    obtain ⟨p', hp', -⟩ := haccepts [] ['a', '_', 'b'] hother
    have htext : Directory.templates.path "a/b" = .ok (.ofString "tpl/a/b.kiln") := rfl
    obtain rfl := Except.ok.inj (hp.symm.trans htext)
    exact ⟨_, p', hp, by decide, hcomponents, hp',
      hdistinct ab [['a', '_', 'b']] hname hother (by decide) _ p' hp hp'⟩

end Template

end Stencil
