import Stencil.Proofs.Registry.Serving

/-!
What every request leaves as it was, whatever the source answers: templates once parsed and programs
once published. A name is loaded only while it has no template.
-/

namespace Stencil

theorem Registry.find?_eq_none_iff {r : Registry} {key : Key} :
    r.find? key = none ↔ key ∉ r.published.map (·.1) := by
  simp only [Registry.find?, List.lookup_eq_none_iff, List.mem_map, not_exists, not_and]
  constructor
  · rintro h entry hmem rfl
    simpa using h entry hmem
  · intro h entry hmem
    simpa using fun heq : key = entry.1 => h entry hmem heq.symm

-- All programs made are published, each under a key of its own.
structure Registry.Counted (r : Registry) : Prop where
  count : r.compileCount = r.published.length
  keys : (r.published.map (·.1)).Nodup

namespace Workshop

variable {w w' w'' : Workshop}

-- Where a workshop reads from at present.
def library (w : Workshop) : Library := ⟨w.loader, w.registry.oracle, w.registry.config⟩

-- Some names were loaded. None of them had a template; those that can be read have one now, and
-- were loaded only once.
structure Loaded (w w' : Workshop) (names : List String) : Prop where
  loads : w'.loads = names ++ w.loads
  unparsed : ∀ name ∈ names, w.registry.parsed? name = none
  once : ∀ name ∈ names, ∀ t, w.library.template name = .ok t →
    w'.registry.parsed? name = some t ∧ names.count name = 1

-- One state of a workshop and a later one, if the source has not changed.
structure Lasts (w w' : Workshop) : Prop where
  library : w'.library = w.library
  published : ∀ {key c}, w.registry.find? key = some c → w'.registry.find? key = some c
  counted : w.registry.Counted → w'.registry.Counted
  parsed : ∀ {name t}, w.registry.parsed? name = some t → w'.registry.parsed? name = some t
  loaded : ∃ names, Loaded w w' names

-- The same, if nothing was published in between.
structure Reads (w w' : Workshop) : Prop extends Lasts w w' where
  same : w'.registry.published = w.registry.published
  sameCount : w'.registry.compileCount = w.registry.compileCount

theorem loaded_none (h : w'.loads = w.loads) : Loaded w w' [] :=
  ⟨h, fun _ hmem => (nomatch hmem), fun _ hmem => (nomatch hmem)⟩

theorem Loaded.trans {names names' : List String} (h : Loaded w w' names)
    (h' : Loaded w' w'' names') (hlast : Lasts w w') (hlast' : Lasts w' w'') :
    Loaded w w'' (names' ++ names) where
  loads := by rw [h'.loads, h.loads, List.append_assoc]
  unparsed := by
    intro name hmem
    obtain hmem | hmem := List.mem_append.mp hmem
    · -- A name that is parsed already is parsed later on.
      have hlater := h'.unparsed name hmem
      cases hparsed : w.registry.parsed? name with
      | none => rfl
      | some t =>
          rw [hlast.parsed hparsed] at hlater
          cases hlater
    · exact h.unparsed name hmem
  once := by
    intro name hmem t ht
    by_cases hfirst : name ∈ names
    · obtain ⟨hparsed, hcount⟩ := h.once name hfirst t ht
      have hnot : name ∉ names' := by
        intro hlater
        have hnone := h'.unparsed name hlater
        rw [hparsed] at hnone
        cases hnone
      refine ⟨hlast'.parsed hparsed, ?_⟩
      rw [List.count_append, List.count_eq_zero.mpr hnot, hcount]
    · have hlater : name ∈ names' := by simpa [hfirst] using hmem
      obtain ⟨hparsed, hcount⟩ := h'.once name hlater t (by rw [hlast.library, ht])
      refine ⟨hparsed, ?_⟩
      rw [List.count_append, List.count_eq_zero.mpr hfirst, hcount]

theorem Lasts.refl (w : Workshop) : Lasts w w :=
  ⟨rfl, id, id, id, [], loaded_none rfl⟩

theorem Lasts.trans (h : Lasts w w') (h' : Lasts w' w'') : Lasts w w'' := by
  obtain ⟨names, hnames⟩ := h.loaded
  obtain ⟨names', hnames'⟩ := h'.loaded
  exact ⟨h'.library.trans h.library, fun hc => h'.published (h.published hc),
    fun hr => h'.counted (h.counted hr), fun ht => h'.parsed (h.parsed ht), names' ++ names,
    hnames.trans hnames' h h'⟩

theorem Reads.refl (w : Workshop) : Reads w w := ⟨.refl w, rfl, rfl⟩

theorem Reads.trans (h : Reads w w') (h' : Reads w' w'') : Reads w w'' :=
  ⟨h.toLasts.trans h'.toLasts, h'.same.trans h.same, h'.sameCount.trans h.sameCount⟩

theorem Reads.of_parsed (hlibrary : w'.library = w.library)
    (hsame : w'.registry.published = w.registry.published)
    (hcount : w'.registry.compileCount = w.registry.compileCount)
    (hparsed : ∀ {name t}, w.registry.parsed? name = some t → w'.registry.parsed? name = some t)
    {names : List String} (hnames : Loaded w w' names) : Reads w w' where
  library := hlibrary
  published := by
    intro key c hc
    rw [Registry.find?, hsame]
    exact hc
  counted := fun h => ⟨by rw [hcount, hsame, h.count], by rw [hsame]; exact h.keys⟩
  parsed := hparsed
  loaded := ⟨names, hnames⟩
  same := hsame
  sameCount := hcount

-- A name without a template is loaded, and its template kept if it can be read.
theorem run_template_of_unparsed {name : String} (h : w.registry.parsed? name = none) :
    (template name).run w =
      match w.library.template name with
      | .ok t => (.ok t, w.keep name t)
      | .error e => (.error e, { w with loads := name :: w.loads }) := by
  rw [run_template_of_new h]
  simp only [Library.template, library]
  cases w.loader name with
  | error e => rfl
  | ok source =>
      dsimp only
      cases NamedTemplate.parse name source w.registry.config.trimControlLines <;> rfl

theorem reads_template (w : Workshop) (name : String) : Reads w ((template name).run w).2 := by
  cases hparsed : w.registry.parsed? name with
  | some t =>
      rw [run_template_of_parsed hparsed]
      exact .refl w
  | none =>
      rw [run_template_of_unparsed hparsed]
      have hunparsed : ∀ other ∈ [name], w.registry.parsed? other = none := by
        intro other hmem
        rw [List.mem_singleton.mp hmem, hparsed]
      cases ht : w.library.template name with
      | error e =>
          refine .of_parsed rfl rfl rfl id (⟨rfl, hunparsed, ?_⟩ : Loaded w _ [name])
          intro other hmem u hu
          rw [List.mem_singleton.mp hmem, ht] at hu
          cases hu
      | ok t =>
          refine .of_parsed rfl rfl rfl (grows_keep hparsed t).parsed
            (⟨rfl, hunparsed, ?_⟩ : Loaded w _ [name])
          intro other hmem u hu
          obtain rfl := List.mem_singleton.mp hmem
          obtain rfl := Except.ok.inj (ht.symm.trans hu)
          exact ⟨by rw [parsed?_keep, if_pos rfl], by simp⟩

theorem grows_template (w : Workshop) (name : String) : Grows w ((template name).run w).2 := by
  cases hparsed : w.registry.parsed? name with
  | some t =>
      rw [run_template_of_parsed hparsed]
      exact .refl w
  | none =>
      rw [run_template_of_unparsed hparsed]
      cases w.library.template name with
      | error e => exact ⟨rfl, rfl, rfl, id⟩
      | ok t => exact grows_keep hparsed t

-- A relation between a state and a later one that every request for a template keeps to.
structure Persists (R : Workshop → Workshop → Prop) : Prop where
  refl : ∀ w, R w w
  trans : ∀ {w w' w''}, R w w' → R w' w'' → R w w''
  template : ∀ w name, R w ((template name).run w).2

theorem persists_reads : Persists Reads := ⟨.refl, .trans, reads_template⟩

theorem persists_grows : Persists Grows := ⟨.refl, .trans, grows_template⟩

-- So does every request that is put together from these.
namespace Persists

variable {R : Workshop → Workshop → Prop}

theorem prepare (h : Persists R) (w : Workshop) (names : List String) :
    R w ((Workshop.prepare names).run w).2 := by
  induction names generalizing w with
  | nil => exact h.refl w
  | cons name names ih =>
      rw [run_prepare_cons]
      exact h.trans (h.template w name) (ih _)

theorem bind (h : Persists R) {α β : Type} {x : Request α} {f : α → Request β}
    (hx : R w (x.run w).2) (hf : ∀ a w', R w' ((f a).run w').2) : R w ((x >>= f).run w).2 := by
  rw [run_bind]
  generalize x.run w = r at hx ⊢
  obtain ⟨result, w'⟩ := r
  cases result with
  | error e => exact hx
  | ok a => exact h.trans hx (hf a w')

theorem schema (h : Persists R) (w : Workshop) (name : String) :
    R w ((Workshop.schema name).run w).2 := by
  refine h.bind (h.template w name) fun t w' => ?_
  rw [run_get]
  cases t.schema w'.registry.oracle <;> exact h.refl w'

theorem compile (h : Persists R) (w : Workshop) (key : Key) :
    R w ((Workshop.compile key).run w).2 := by
  refine h.bind (h.template w key.name) fun t w' => ?_
  refine h.bind (h.prepare w' t.template.targets) fun _ w'' => ?_
  rw [run_get]
  dsimp only
  cases t.compile ⟨w''.registry.oracle, w''.registry.knownSchema?⟩ key.mode <;> exact h.refl w''

end Persists

theorem counted_publish (h : w.registry.Counted) {key : Key}
    (hnew : w.registry.find? key = none) (c : Compiled) : (w.publish key c).registry.Counted where
  count := congrArg (· + 1) h.count
  keys := List.nodup_cons.mpr ⟨Registry.find?_eq_none_iff.mp hnew, h.keys⟩

theorem lasts_publish {key : Key} (hnew : w.registry.find? key = none) (c : Compiled) :
    Lasts w (w.publish key c) where
  library := rfl
  published := by
    intro other d hd
    have hne : other ≠ key := by
      rintro rfl
      rw [hnew] at hd
      cases hd
    rw [find?_publish, if_neg hne, hd]
  counted := fun h => counted_publish h hnew c
  parsed := id
  loaded := ⟨[], loaded_none rfl⟩

-- A request for a program leaves what its supplier leaves.
theorem lasts_obtain {key : Key} {supplier : Request (Option Nat × Program)}
    (h : Reads w (supplier.run w).2) : Lasts w ((obtain key supplier).run w).2 := by
  cases hfind : w.registry.find? key with
  | some c =>
      rw [run_obtain_of_published hfind]
      exact .refl w
  | none =>
      rw [run_obtain_of_new hfind]
      generalize supplier.run w = r at h ⊢
      obtain ⟨_ | ⟨home, p⟩, w'⟩ := r
      · exact h.toLasts
      · have hnew : w'.registry.find? key = none := by
          rw [Registry.find?, h.same]
          exact hfind
        exact h.toLasts.trans (lasts_publish hnew _)

-- If it fails, so did the supplier, and nothing was published.
theorem reads_of_run_obtain {key : Key} {supplier : Request (Option Nat × Program)}
    (h : Reads w (supplier.run w).2) {e : Failure}
    (hrun : (obtain key supplier).run w = (.error e, w')) :
    Reads w w' ∧ w'.registry.find? key = none := by
  cases hfind : w.registry.find? key with
  | some c =>
      rw [run_obtain_of_published hfind] at hrun
      cases hrun
  | none =>
      rw [run_obtain_of_new hfind] at hrun
      generalize supplier.run w = r at h hrun
      obtain ⟨_ | ⟨home, p⟩, w''⟩ := r
      · cases hrun
        refine ⟨h, ?_⟩
        rw [Registry.find?, h.same]
        exact hfind
      · cases hrun

end Workshop

end Stencil
