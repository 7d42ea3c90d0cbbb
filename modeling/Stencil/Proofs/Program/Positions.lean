import Stencil.Proofs.Program.Plans
import Stencil.Proofs.Soundness.Defaults

/-!
The positions of parameters. However a schema is put together, its names are distinct and stand in
the order in which they were first put in, and a name is found there with what was last put in for
it. An accepted header puts in each of its declarations once, so a declaration, its parameter and
its slot have one position.
-/

namespace Stencil

namespace Schema

-- Schemas put together from the empty one, with all that was put in, in its order.
inductive Built : List Parameter → Schema → Prop
  | empty : Built [] .empty
  | required {log : List Parameter} {s : Schema} (before : Built log s) (name : String)
    (type : Ty) : Built (log ++ [⟨name, type, none⟩]) (s.withRequired name type)
  | optional {log : List Parameter} {s : Schema} (before : Built log s) (name : String) (type : Ty)
    (default : Constant) :
    Built (log ++ [⟨name, type, some default⟩]) (s.withOptional name type default)
  | insert {log : List Parameter} {s : Schema} (before : Built log s) (p : Parameter) :
    Built (log ++ [p]) (s.insert p)

-- What a schema tells of all that was put in: each name where it came first, and the parameter that
-- came last for it.
structure Tells (s : Schema) (log : List Parameter) : Prop where
  distinct : (s.params.map (·.name)).Nodup
  order : s.params.map (·.name) = (log.map (·.name)).eraseDups
  get? : ∀ name, s.get? name = (log.reverse.find? (·.name == name)).map fun p =>
    ((log.map (·.name)).eraseDups.idxOf name, p)
  get?_eq_none : ∀ name, s.get? name = none ↔ ∀ p ∈ log, p.name ≠ name

theorem names_put (p : Parameter) (params : List Parameter) : (put p params).map (·.name) =
    if p.name ∈ params.map (·.name) then params.map (·.name)
    else params.map (·.name) ++ [p.name] := by
  induction params with
  | nil => rfl
  | cons q params ih =>
    rw [put]
    by_cases hq : q.name = p.name
    · simp [hq]
    · have hp : p.name ≠ q.name := Ne.symm hq
      rw [if_neg hq, List.map_cons, ih]
      simp only [List.map_cons, List.mem_cons, hp, false_or]
      split <;> rfl

theorem eraseDups_concat (names : List String) (name : String) : (names ++ [name]).eraseDups =
    if name ∈ names then names.eraseDups else names.eraseDups ++ [name] := by
  rw [List.eraseDups_append]
  by_cases h : name ∈ names <;> simp [List.removeAll, h, List.eraseDups_cons]

-- The position of a parameter is that of its name among the names.
theorem get?_eq_map_find? (s : Schema) (name : String) : s.get? name =
    (s.params.find? (·.name == name)).map fun p => ((s.params.map (·.name)).idxOf name, p) := by
  have hindex : (s.params.map (·.name)).idxOf name = s.params.findIdx (·.name == name) := by
    rw [List.idxOf, List.findIdx_map]
    rfl
  unfold Schema.get?
  rw [hindex, List.find?_eq_getElem?_findIdx, List.findIdx?_eq_guard_findIdx_lt]
  by_cases h : s.params.findIdx (·.name == name) < s.params.length <;> simp [Option.guard, h]

section

variable {s : Schema} {log : List Parameter}

theorem Tells.of_find? (distinct : (s.params.map (·.name)).Nodup)
    (order : s.params.map (·.name) = (log.map (·.name)).eraseDups)
    (hfind : ∀ name, s.params.find? (·.name == name) = log.reverse.find? (·.name == name)) :
    s.Tells log := by
  have hget (name : String) : s.get? name = (log.reverse.find? (·.name == name)).map fun p =>
      ((log.map (·.name)).eraseDups.idxOf name, p) := by
    rw [get?_eq_map_find?, hfind, order]
  refine ⟨distinct, order, hget, fun name => ?_⟩
  rw [hget, Option.map_eq_none_iff, List.find?_eq_none]
  simp

theorem Tells.find? (h : s.Tells log) (name : String) :
    s.params.find? (·.name == name) = log.reverse.find? (·.name == name) := by
  rw [← map_snd_get?, h.get?, Option.map_map]
  exact Option.map_id'

-- One more parameter goes to the end of the log, and into its place in the schema.
theorem Tells.insert (h : s.Tells log) (p : Parameter) : (s.insert p).Tells (log ++ [p]) := by
  refine .of_find? ?_ ?_ fun name => ?_
  · rw [Schema.insert, names_put]
    split
    · exact h.distinct
    · next hfresh =>
      exact List.nodup_append.mpr ⟨h.distinct, by simp, fun a ha b hb => by grind⟩
  · rw [List.map_append, List.map_singleton, eraseDups_concat, Schema.insert, names_put]
    simp only [h.order, List.mem_eraseDups]
  · rw [Schema.insert, find?_put, h.find?, List.reverse_concat]
    split
    · next hname => rw [List.find?_cons_of_pos (by simpa using hname)]
    · next hname => rw [List.find?_cons_of_neg (by simpa using hname)]

theorem Built.tells (h : Built log s) : s.Tells log := by
  induction h with
  | empty => exact .of_find? List.nodup_nil rfl fun _ => rfl
  | required _ name type ih | optional _ name type default ih | insert _ p ih => exact ih.insert _

end

-- Parameters with distinct names can be put in one after the other.
theorem built_of_distinct {params : List Parameter} (h : (params.map (·.name)).Nodup) :
    Built params ⟨params⟩ := by
  induction params using List.reverseRecOn with
  | nil => exact .empty
  | append_singleton params p ih =>
    rw [List.map_append, List.nodup_append] at h
    have hinsert := (ih h.1).insert p
    have hfresh : ∀ q ∈ params, q.name ≠ p.name := fun q hq =>
      h.2.2 q.name (List.mem_map_of_mem hq) p.name (by simp)
    rwa [Schema.insert, put_of_fresh hfresh] at hinsert

end Schema

namespace Template

section

variable {oracle : Oracle} {source : String} {t : Template} {schema : Schema}

-- An accepted header declares its parameters, and their names are what the body sees.
theorem header_of_schema (h : t.schema oracle source = .ok schema) :
    t.checkHeader oracle = pure (schema, schema.scope) ∧
      List.Forall₂ (ParamDecl.Declares oracle) t.params schema.params ∧
        (schema.params.map (·.name)).Nodup := by
  unfold Template.schema at h
  split at h
  · next schema' scope hheader =>
    obtain rfl := Except.ok.inj h
    have hempty : ParamDecl.checkAll oracle .empty Schema.empty.scope t.params =
        pure (schema', scope) := hheader
    have hdistinct := ParamDecl.distinct_of_checkAll hempty List.nodup_nil
    obtain ⟨params, hparams, hschema, rfl⟩ := ParamDecl.declares_of_checkAll hempty
    obtain rfl : schema'.params = params := by simpa [Schema.empty] using hschema
    exact ⟨hheader, hparams, hdistinct⟩
  · cases h

-- The parameter of a declaration stands where the declaration stands, and owns the slot of that
-- number.
theorem position_of_schema (h : t.schema oracle source = .ok schema) {i : Nat} {decl : ParamDecl}
    (hdecl : t.params[i]? = some decl) : ∃ p, decl.Declares oracle p ∧
      schema.get? decl.name = some (i, p) ∧
        schema.scope.find? decl.name = some (i, some p.type) := by
  obtain ⟨-, hparams, hdistinct⟩ := header_of_schema h
  obtain ⟨hlt, rfl⟩ := List.getElem?_eq_some_iff.mp hdecl
  have hlt' : i < schema.params.length := hparams.length_eq ▸ hlt
  have hdeclares := hparams.get hlt hlt'
  have hparam : schema.params[i]? = some schema.params[i] := List.getElem?_eq_getElem hlt'
  have hname : schema.params[i].name = t.params[i].name := hdeclares.named
  have hslot := Schema.find?_scope hdistinct hparam
  refine ⟨schema.params[i], hdeclares, ?_, hname ▸ hslot⟩
  refine Schema.get?_eq_some_iff.mpr ⟨hparam, hname, fun j other hj hother hsame => ?_⟩
  have hnames : (schema.params.map (·.name))[j]? = (schema.params.map (·.name))[i]? := by
    rw [List.getElem?_map, List.getElem?_map, hother, hparam, Option.map_some, Option.map_some,
      hsame, hname]
  have hbound : j < (schema.params.map (·.name)).length := by
    rw [List.length_map]
    exact Nat.lt_trans hj hlt'
  exact hj.ne ((List.getElem?_inj hbound hdistinct).mp hnames)

end

end Template

-- A schema has distinct names in the order in which they were first put in. It finds a name there,
-- with what was last put in for it, and no name that never was. An accepted header puts in what it
-- declares, one after the other, so a declaration, its parameter, the slot that the body reads and
-- that of the frame have one position. The header alone gives the schema of the whole template.
theorem Schema.positions_stable :
    (∀ log s, Built log s → s.Tells log) ∧
    (∀ (oracle : Oracle) (source : String) (t : Template) (schema : Schema),
      t.schema oracle source = .ok schema →
        List.Forall₂ (ParamDecl.Declares oracle) t.params schema.params ∧
          Built schema.params schema ∧ schema.Tells schema.params) ∧
    ∀ (context : CheckContext) (source : String) (t : Template) (checked : CheckedTemplate),
      t.bind context source = .ok checked →
        t.schema context.oracle source = .ok checked.schema ∧
        t.checkHeader context.oracle = pure (checked.schema, checked.schema.scope) ∧
        (∀ i decl, t.params[i]? = some decl → ∃ p, decl.Declares context.oracle p ∧
          checked.schema.get? decl.name = some (i, p) ∧
            checked.schema.scope.find? decl.name = some (i, some p.type)) ∧
        ∀ (name : String) (mode : Mode) (ρ : Type) (values : List (Value ρ)),
          values.length = checked.schema.size →
            Frame.HoldsParams (checked.program name mode) values
              ((checked.program name mode).frame values) := by
  refine ⟨fun log s => Built.tells, fun oracle source t schema h => ?_,
    fun context source t checked h => ?_⟩
  · obtain ⟨-, hparams, hdistinct⟩ := Template.header_of_schema h
    have hbuilt := built_of_distinct hdistinct
    exact ⟨hparams, hbuilt, hbuilt.tells⟩
  · have hschema := Template.schema_of_bind h
    have hsafe (name : String) (mode : Mode) : (checked.program name mode).FrameSafe :=
      (Template.elaborates_of_bind h).frameSafe name mode
    exact ⟨hschema, (Template.header_of_schema hschema).1,
      fun i decl => Template.position_of_schema hschema,
      fun name mode ρ values => Program.holds_frame (hsafe name mode).params_le⟩

def Template.labelled : String := "@param list<int> xs\n@param string label = 'x'\n$\x7blabel\x7d"

-- The third insertion replaces the first. The second of two declarations owns the second slot.
theorem Schema.positions_stable_labelled :
    let s := ((Schema.empty.withRequired "b" .int).withOptional "a" .text
      (.literal (.text "x"))).insert ⟨"b", .float, none⟩
    let context : CheckContext := ⟨Declarations.empty.oracle, fun _ => none⟩
    let values : List (Value Unit) := [.list [], .text "y"]
    s.params.map (·.name) = ["b", "a"] ∧ s.get? "b" = some (0, ⟨"b", .float, none⟩) ∧
      s.get? "c" = none ∧
      ∃ t checked p, Template.parse Template.labelled true = .ok t ∧
        t.bind context Template.labelled = .ok checked ∧
        t.params.map (·.name) = ["xs", "label"] ∧ checked.schema.get? "label" = some (1, p) ∧
          checked.schema.scope.find? "label" = some (1, some p.type) ∧
          ((checked.program "labelled" .text).frame values)[1]? = some (.text "y") := by
  intro s context values
  obtain ⟨hbuilt, hheader, hbound⟩ := positions_stable
  have htells := hbuilt _ s (((Built.empty.required "b" .int).optional "a" .text
    (.literal (.text "x"))).insert ⟨"b", .float, none⟩)
  have hrun : (Template.parse Template.labelled true).toOption.bind (fun t =>
      (t.bind context Template.labelled).toOption.map fun _ => t.params.map (·.name)) =
      some ["xs", "label"] := by decide +kernel
  obtain ⟨t, ht, hrun⟩ := Option.bind_eq_some_iff.mp hrun
  obtain ⟨checked, hchecked, hnames⟩ := Option.map_eq_some_iff.mp hrun
  have hbind : t.bind context Template.labelled = .ok checked := eq_ok_of_toOption hchecked
  obtain ⟨hschema, -, hplace, hframe⟩ := hbound context Template.labelled t checked hbind
  have hlabel : (t.params.map (·.name))[1]? = some "label" := by rw [hnames]; rfl
  rw [List.getElem?_map] at hlabel
  obtain ⟨decl, hdecl, hname⟩ := Option.map_eq_some_iff.mp hlabel
  obtain ⟨p, -, hget, hslot⟩ := hplace 1 decl hdecl
  rw [hname] at hget hslot
  have hsize : checked.schema.size = 2 := by
    obtain ⟨hdeclared, -⟩ := hheader _ _ _ _ hschema
    exact hdeclared.length_eq.symm.trans (by simpa using congrArg List.length hnames)
  have hparam := (hframe "labelled" .text Unit values hsize.symm).param 1 (by
    change 1 < checked.schema.size
    omega)
  exact ⟨htells.order.trans (by decide), (htells.get? "b").trans rfl,
    (htells.get?_eq_none "c").mpr (by decide), t, checked, p, eq_ok_of_toOption ht, hbind, hnames,
    hget, hslot, hparam⟩

end Stencil
