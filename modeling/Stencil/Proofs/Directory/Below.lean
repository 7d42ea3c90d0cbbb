import Stencil.Directory.Basic
import Stencil.Proofs.Directory.Components

/-!
Which names lead to files below the root of a directory.
-/

namespace Stencil

namespace Path

-- A path that goes on from another by names, and by at least one. Where one of them says that it
-- stays does not count.
def Below (p root : Path) : Prop :=
  ∃ names, names ≠ [] ∧ p.components.filter (· ≠ .current) =
    root.components.filter (· ≠ .current) ++ names.map .name

-- A path that ends in a name.
def EndsInName (p : Path) : Prop := ∃ above name, p.components = above ++ [.name name]

end Path

namespace Directory

-- The names that have a path: no segment is empty or leads up, and nothing else separates segments.
theorem nameFault?_eq_none_iff {name : String} :
    nameFault? name = none ↔
      (∀ segment ∈ slashParts name.toList, segment ≠ [] ∧ segment ≠ ['.', '.']) ∧
        ∀ c ∈ name.toList, c ≠ '\\' ∧ c ≠ ':' := by
  have hempty : name.isEmpty = true → [] ∈ slashParts name.toList := by
    intro h
    obtain rfl := String.isEmpty_iff.mp h
    exact List.mem_singleton.mpr rfl
  have hone : nameFault? name = none ↔ name.isEmpty = false ∧
      ['.', '.'] ∉ slashParts name.toList ∧ [] ∉ slashParts name.toList ∧
      ∀ c ∈ name.toList, c ≠ '\\' ∧ c ≠ ':' := by
    unfold nameFault?
    by_cases h : name.isEmpty = true
    · simp [h]
    by_cases hup : ['.', '.'] ∈ slashParts name.toList
    · simp [h, hup]
    by_cases hnil : [] ∈ slashParts name.toList
    · simp [h, hup, hnil]
    · simp [h, hup, hnil]
  rw [hone]
  constructor
  · rintro ⟨-, hup, hnil, hchars⟩
    exact ⟨fun segment hs => ⟨fun h => hnil (h ▸ hs), fun h => hup (h ▸ hs)⟩, hchars⟩
  · rintro ⟨hsegments, hchars⟩
    refine ⟨?_, fun h => (hsegments _ h).2 rfl, fun h => (hsegments _ h).1 rfl, hchars⟩
    exact Bool.eq_false_iff.mpr fun h => (hsegments _ (hempty h)).1 rfl

-- The segments of a name that go on from where they are.
def steps (name : String) : List (List Char) := (slashParts name.toList).filter (· ≠ ['.'])

-- What the path for a name starts with besides its root: a root that says nothing stays where the
-- name says that it does.
def lead (d : Directory) (name : String) : List Component :=
  if d.root.chars = [] then Path.start (slashParts name.toList) else []

variable {d : Directory} {name : String}

theorem counted_segments (h : nameFault? name = none) :
    Path.counted (slashParts name.toList) = (steps name).map .name := by
  obtain ⟨hsegments, -⟩ := nameFault?_eq_none_iff.mp h
  have hsteps : (slashParts name.toList).filter (!Path.isIdle ·) = steps name := by
    refine List.filter_congr fun segment hs => ?_
    have hidle : Path.isIdle segment = false ↔ segment ≠ ['.'] := by
      rw [Path.isIdle_eq_false_iff]
      exact and_iff_right (hsegments segment hs).1
    rw [Bool.eq_iff_iff, Bool.not_eq_true', hidle, decide_eq_true_iff]
  rw [Path.counted, hsteps]
  refine List.map_congr_left fun segment hs => ?_
  exact if_neg (hsegments segment (List.mem_filter.mp hs).1).2

theorem filter_lead (h : nameFault? name = none) : (d.lead name).filter (· ≠ .current) = [] := by
  obtain ⟨hsegments, -⟩ := nameFault?_eq_none_iff.mp h
  unfold lead
  split
  · cases hparts : slashParts name.toList with
    | nil => rfl
    | cons first rest =>
        have hne := (hsegments first (by rw [hparts]; exact List.mem_cons_self)).1
        match first with
        | [] => exact absurd rfl hne
        | c :: cs =>
            simp only [Path.start]
            split <;> rfl
  · rfl

-- The path before the extension is added.
theorem components_joined (h : nameFault? name = none) :
    ((slashParts name.toList).foldl Path.push d.root).components =
        d.root.components ++ d.lead name ++ (steps name).map .name ∧
      ((slashParts name.toList).foldl Path.push d.root).chars ≠ [] := by
  obtain ⟨hsegments, -⟩ := nameFault?_eq_none_iff.mp h
  have hparts : ∀ part ∈ slashParts name.toList, part ≠ [] ∧ '/' ∉ part :=
    fun part hpart => ⟨(hsegments part hpart).1, not_mem_of_mem_slashParts hpart⟩
  have hne := slashParts_ne_nil name.toList
  refine ⟨?_, Path.pushAll_ne_nil hparts hne d.root⟩
  rw [← counted_segments h, lead]
  by_cases hroot : d.root.chars = []
  · have hnone : d.root.components = [] := by
      rw [Path.components, Path.parts_of_nil hroot]
      rfl
    rw [if_pos hroot, Path.components_pushAll_nil hparts hne hroot, hnone, List.nil_append]
  · rw [if_neg hroot, Path.components_pushAll hparts hroot, List.append_nil]

-- What the path starts with besides its root goes nowhere.
theorem name_not_mem_lead (h : nameFault? name = none) (n : List Char) : .name n ∉ d.lead name := by
  intro hmem
  have hfilter := List.filter_eq_nil_iff.mp (filter_lead (d := d) h) _ hmem
  simp at hfilter

theorem lead_of_endsInName (h : d.root.EndsInName) (name : String) : d.lead name = [] := by
  refine if_neg fun hroot => ?_
  obtain ⟨above, last, hlast⟩ := h
  rw [Path.components, Path.parts_of_nil hroot] at hlast
  simp [Path.start, Path.counted, Path.isIdle] at hlast

-- A path below another, if it is known what it has besides the components of the other.
theorem below_iff {p root : Path} {more : List Component}
    (h : p.components = root.components ++ more) :
    p.Below root ↔ ∃ names, names ≠ [] ∧ more.filter (· ≠ .current) = names.map .name := by
  simp only [Path.Below, h, List.filter_append, List.append_cancel_left_eq]

-- Which extensions are names by themselves.
theorem counted_extension_iff {extension : String} :
    (∃ names, names ≠ [] ∧
      (Path.counted [extension.toList]).filter (· ≠ .current) = names.map .name) ↔
    extension ∉ ["", ".", ".."] := by
  by_cases hidle : extension = "" ∨ extension = "."
  · have hnone : Path.counted [extension.toList] = [] := by
      obtain rfl | rfl := hidle <;> rfl
    rw [hnone]
    constructor
    · rintro ⟨names, hne, hnames⟩
      exact absurd (List.map_eq_nil_iff.mp hnames.symm) hne
    · obtain rfl | rfl := hidle <;> simp
  rw [not_or] at hidle
  by_cases hup : extension = ".."
  · subst hup
    constructor
    · rintro ⟨names, hne, hnames⟩
      obtain ⟨n, ns, rfl⟩ := List.exists_cons_of_ne_nil hne
      cases (List.cons.inj hnames).1
    · simp
  have hidle' : Path.isIdle extension.toList = false :=
    Path.isIdle_eq_false_iff.mpr ⟨fun h => hidle.1 (String.toList_injective h),
      fun h => hidle.2 (String.toList_injective h)⟩
  have hup' : extension.toList ≠ ['.', '.'] := fun h => hup (String.toList_injective h)
  rw [Path.counted_name hidle' hup']
  constructor
  · simp [hidle, hup]
  · exact fun _ => ⟨[extension.toList], by simp, rfl⟩

-- Names lead below the root, by their segments and with the extension on the last one. Only a name
-- whose segments all stay where they are may not: the extension goes to the root then, or is all
-- that the path has besides it.
theorem path_below_iff (d : Directory) (name : String) (hslash : '/' ∉ d.extension.toList)
    (hname : nameFault? name = none) :
    ∃ p, d.path name = .ok p ∧
      (∀ before last, steps name = before ++ [last] →
        p.components = d.root.components ++ d.lead name ++ before.map .name ++
          [.name (last ++ d.extension.toList)]) ∧
      (steps name = [] → ∀ above last, d.root.components = above ++ [.name last] →
        p.components = above ++ [.name (last ++ d.extension.toList)]) ∧
      (steps name = [] → ¬ d.root.EndsInName →
        p.components = d.root.components ++ d.lead name ++ Path.counted [d.extension.toList]) ∧
      (p.Below d.root ↔ steps name ≠ [] ∨
        (¬ d.root.EndsInName ∧ d.extension ∉ ["", ".", ".."])) := by
  obtain ⟨hjoined, hne⟩ := components_joined (d := d) hname
  obtain ⟨hends, hother⟩ := Path.components_extend hslash hne
  have hpath : d.path name = .ok (((slashParts name.toList).foldl Path.push d.root).extend
      d.extension.toList) := by
    rw [path, hname]
  generalize (slashParts name.toList).foldl Path.push d.root = joined
    at hjoined hne hends hother hpath
  have hsteps : ∀ before last, steps name = before ++ [last] →
      (joined.extend d.extension.toList).components = d.root.components ++ d.lead name ++
        before.map .name ++ [.name (last ++ d.extension.toList)] := by
    intro before last hlast
    refine hends _ last ?_
    rw [hjoined, hlast, List.map_append, ← List.append_assoc]
    rfl
  have hends' : steps name = [] → ∀ above last, d.root.components = above ++ [.name last] →
      (joined.extend d.extension.toList).components =
        above ++ [.name (last ++ d.extension.toList)] := by
    intro hnone above last hroot
    refine hends above last ?_
    rw [hjoined, hnone, lead_of_endsInName ⟨above, last, hroot⟩, hroot]
    simp
  have hnameless : steps name = [] → ¬ d.root.EndsInName →
      (joined.extend d.extension.toList).components =
        d.root.components ++ d.lead name ++ Path.counted [d.extension.toList] := by
    intro hnone hroot
    have hjoined' : joined.components = d.root.components ++ d.lead name := by
      simpa [hnone] using hjoined
    rw [← hjoined']
    refine hother fun above last h => ?_
    rw [hjoined'] at h
    obtain hlead | ⟨front, c, hlead⟩ := (d.lead name).eq_nil_or_concat
    · rw [hlead, List.append_nil] at h
      exact hroot ⟨above, last, h⟩
    · rw [hlead, List.concat_eq_append, ← List.append_assoc] at h
      obtain rfl := List.singleton_inj.mp (List.append_inj' h rfl).2
      exact name_not_mem_lead hname last (by rw [hlead]; simp)
  refine ⟨joined.extend d.extension.toList, hpath, hsteps, hends', hnameless, ?_⟩
  obtain hnone | ⟨before, last, hlast⟩ := (steps name).eq_nil_or_concat
  · by_cases hroot : d.root.EndsInName
    · obtain ⟨above, last, hlast⟩ := hroot
      have hbelow : ¬ (joined.extend d.extension.toList).Below d.root := by
        rintro ⟨names, hne, hnames⟩
        rw [hends' hnone above last hlast, hlast] at hnames
        have hlength := congrArg List.length hnames
        simp [hne] at hlength
      simp only [hbelow, hnone, hlast, Path.EndsInName]
      simp
    · have hcomponents := hnameless hnone hroot
      rw [List.append_assoc] at hcomponents
      rw [below_iff hcomponents, List.filter_append, filter_lead hname, List.nil_append,
        counted_extension_iff]
      simp [hnone, hroot]
  · rw [List.concat_eq_append] at hlast
    have hcomponents := hsteps before last hlast
    rw [List.append_assoc, List.append_assoc] at hcomponents
    rw [below_iff hcomponents, List.filter_append, filter_lead hname, List.nil_append]
    refine ⟨fun _ => .inl (by simp [hlast]), fun _ => ?_⟩
    exact ⟨before ++ [last ++ d.extension.toList], by simp, by simp⟩

-- Does every name lead below the root?
def StaysBelow : Prop :=
  ∀ (d : Directory) (name : String), '/' ∉ d.extension.toList → nameFault? name = none →
    ∃ p, d.path name = .ok p ∧ p.Below d.root

def templates : Directory := ⟨.ofString "tpl", ".kiln"⟩

-- A name that stays at the root leads to a file beside it.
theorem not_staysBelow : ¬ StaysBelow := by
  intro h
  obtain ⟨p, hp, names, -, hbelow⟩ := h templates "." (by decide) (by decide)
  have hbeside : templates.path "." = .ok (.ofString "tpl.kiln") := rfl
  obtain rfl := Except.ok.inj (hp.symm.trans hbeside)
  have hfile : (Path.ofString "tpl.kiln").components = [.name "tpl.kiln".toList] := by decide
  have hroot : templates.root.components = [.name "tpl".toList] := by decide
  rw [hfile, hroot] at hbelow
  have hsame := (List.cons.inj hbelow).1
  revert hsame
  decide

theorem path_below_iff_nested :
    '/' ∉ templates.extension.toList ∧ nameFault? "a/./b" = none ∧
      ∃ p, templates.path "a/./b" = .ok p ∧ p.text = "tpl/a/b.kiln" ∧
        p.components = [.name ['t', 'p', 'l'], .name ['a'], .name ['b', '.', 'k', 'i', 'l', 'n']] ∧
        p.Below templates.root := by
  have hslash : '/' ∉ templates.extension.toList := by decide
  have hname : nameFault? "a/./b" = none := by decide
  obtain ⟨p, hp, hsteps, -, -, hbelow⟩ := path_below_iff templates "a/./b" hslash hname
  have htext : templates.path "a/./b" = .ok (.ofString "tpl/a/b.kiln") := rfl
  obtain rfl := Except.ok.inj (hp.symm.trans htext)
  exact ⟨hslash, hname, _, hp, by decide, hsteps [['a']] ['b'] (by decide),
    hbelow.mpr (.inl (by decide))⟩

end Directory

end Stencil
