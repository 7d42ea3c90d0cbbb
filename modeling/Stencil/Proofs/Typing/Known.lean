import Stencil.Proofs.Type.Records
import Stencil.Proofs.Typing.Reported

/-!
No record type dangles. Where the types of all members are known, so is every type that a check
finds: of parameters, of expressions and all that is in them, and of the names of loops.
-/

namespace Stencil

variable {oracle : Oracle}

namespace Ty

theorem knownTo_of_plain {τ : Ty} (h : τ.recordName? = none) : τ.KnownTo oracle := by
  intro name hname
  rw [recordName?_eq_some_iff.mpr hname] at h
  cases h

theorem knownTo_list {τ : Ty} : (list τ).KnownTo oracle ↔ τ.KnownTo oracle := by
  refine ⟨fun h name hname => h name (.list hname), fun h name hname => ?_⟩
  cases hname with
  | list inside => exact h name inside

-- Types are joined to one of them.
theorem KnownTo.unify {a b c : Ty} (ha : a.KnownTo oracle) (hb : b.KnownTo oracle)
    (h : a.unify b = some c) : c.KnownTo oracle := by
  unfold Ty.unify at h
  split at h
  · obtain rfl := Option.some.inj h
    exact ha
  · split at h
    · obtain rfl := Option.some.inj h
      exact hb
    · cases h

theorem KnownTo.foldlM {a c : Ty} {types : List Ty} (ha : a.KnownTo oracle)
    (htypes : ∀ τ ∈ types, τ.KnownTo oracle) (h : types.foldlM Ty.unify a = some c) :
    c.KnownTo oracle := by
  induction types generalizing a with
  | nil =>
    obtain rfl := Option.some.inj h
    exact ha
  | cons τ types ih =>
    obtain ⟨hτ, htypes⟩ := List.forall_mem_cons.mp htypes
    obtain ⟨b, hb, hrest⟩ := Option.bind_eq_some_iff.mp h
    exact ih (ha.unify hτ hb) htypes hrest

end Ty

-- Operators and builtins give no records.
theorem UnaryOp.plain_of_type? {op : UnaryOp} {σ τ : Ty} (h : op.type? σ = some τ) :
    τ.recordName? = none := by
  unfold UnaryOp.type? at h
  split at h <;> cases h <;> rfl

theorem Ty.plain_of_numericType? {a b c : Ty} (h : Ty.numericType? a b = some c) :
    c.recordName? = none := by
  unfold Ty.numericType? at h
  split at h
  · split at h <;> cases h <;> rfl
  · cases h

theorem BinaryOp.plain_of_type? {op : BinaryOp} {ρ σ τ : Ty} (h : op.type? ρ σ = some τ) :
    τ.recordName? = none := by
  unfold BinaryOp.type? at h
  split at h
  · split at h <;> cases h
    rfl
  · split at h <;> cases h
    rfl
  · obtain ⟨_, -, rfl⟩ := Option.map_eq_some_iff.mp h
    rfl
  · split at h
    · cases h
      rfl
    · obtain ⟨_, -, rfl⟩ := Option.map_eq_some_iff.mp h
      rfl
  · cases h
    rfl
  · exact Ty.plain_of_numericType? h

theorem BuiltinMethod.plain_of_find? {σ τ : Ty} {name : String} {b : Builtin}
    (h : BuiltinMethod.find? σ name = some (.plain b τ)) : τ.recordName? = none := by
  unfold BuiltinMethod.find? at h
  split at h <;> cases h <;> rfl

theorem Literal.plain_type (value : Literal) : value.type.recordName? = none := by
  cases value <;> rfl

-- All types that are noted in a term are known.
def Term.Known (oracle : Oracle) (t : Term) : Prop := ∀ n ∈ t.notes, n.type.KnownTo oracle

theorem Term.note_mem_notes (t : Term) : t.note ∈ t.notes := by
  cases t <;> simp [note, notes]

theorem Term.Known.type {t : Term} (h : t.Known oracle) : t.type.KnownTo oracle :=
  h t.note t.note_mem_notes

-- All types of visible names are known.
def Scope.Known (oracle : Oracle) (scope : Scope) : Prop :=
  ∀ l ∈ scope, ∀ τ, l.type = some τ → τ.KnownTo oracle

theorem Scope.Known.inLoop {scope : Scope} {element : Binding} {index : Option Binding}
    {type : Option Ty} (h : scope.Known oracle) (htype : ∀ τ, type = some τ → τ.KnownTo oracle) :
    (scope.inLoop element index type).Known oracle := by
  have hinner : Scope.Known oracle (⟨element.name, type⟩ :: scope) :=
    List.forall_mem_cons.mpr ⟨htype, h⟩
  cases index with
  | none => exact hinner
  | some index =>
    refine List.forall_mem_cons.mpr ⟨?_, hinner⟩
    rintro _ ⟨⟩
    exact Ty.knownTo_of_plain rfl

section Expressions

variable {scope : Scope}

mutual

theorem Expr.known_of_elaborates (hclosed : oracle.Closed) (hscope : scope.Known oracle) :
    ∀ {e : Expr} {t : Term}, e.Elaborates oracle scope t → t.Known oracle
  | _, _, .literal _ value => by
    rintro n hn
    obtain rfl := List.mem_singleton.mp hn
    exact Ty.knownTo_of_plain value.plain_type
  | _, _, .name found => by
    rintro n hn
    obtain rfl := List.mem_singleton.mp hn
    exact hscope _ (Scope.mem_of_find? found) _ rfl
  | _, _, .list items joined => by
    have hitems := Expr.known_of_elaborateAll hclosed hscope items
    refine List.forall_mem_cons.mpr ⟨Ty.knownTo_list.mpr ?_, ?_⟩
    · refine Ty.KnownTo.foldlM (Ty.knownTo_of_plain rfl) ?_ joined
      exact List.forall_mem_map.mpr fun t ht => (hitems t ht).type
    · rw [Term.notesOfAll_eq_flatMap]
      exact List.forall_mem_flatMap.mpr hitems
  | _, _, .field object typed found => by
    have hobject := Expr.known_of_elaborates hclosed hscope object
    exact List.forall_mem_cons.mpr ⟨hclosed _ _ _ found _ (List.mem_singleton_self _), hobject⟩
  | _, _, .method object typed found args accepted => by
    have hobject := Expr.known_of_elaborates hclosed hscope object
    have hargs := Expr.known_of_elaborateAll hclosed hscope args
    have hreturns := hclosed _ _ _ found _ List.mem_concat_self
    refine List.forall_mem_cons.mpr ⟨hreturns, List.forall_mem_append.mpr ⟨hobject, ?_⟩⟩
    rw [Term.notesOfAll_eq_flatMap]
    exact List.forall_mem_flatMap.mpr hargs
  | _, _, .builtin object found => by
    have hobject := Expr.known_of_elaborates hclosed hscope object
    have hplain := BuiltinMethod.plain_of_find? found
    exact List.forall_mem_cons.mpr ⟨Ty.knownTo_of_plain hplain, hobject⟩
  | _, _, .contains object found needle accepted => by
    have hobject := Expr.known_of_elaborates hclosed hscope object
    have hneedle := Expr.known_of_elaborates hclosed hscope needle
    exact List.forall_mem_cons.mpr
      ⟨Ty.knownTo_of_plain rfl, List.forall_mem_append.mpr ⟨hobject, hneedle⟩⟩
  | _, _, .unary operand typed => by
    have hoperand := Expr.known_of_elaborates hclosed hscope operand
    have hplain := UnaryOp.plain_of_type? typed
    exact List.forall_mem_cons.mpr ⟨Ty.knownTo_of_plain hplain, hoperand⟩
  | _, _, .binary lhs rhs typed => by
    have hlhs := Expr.known_of_elaborates hclosed hscope lhs
    have hrhs := Expr.known_of_elaborates hclosed hscope rhs
    have hplain := BinaryOp.plain_of_type? typed
    exact List.forall_mem_cons.mpr
      ⟨Ty.knownTo_of_plain hplain, List.forall_mem_append.mpr ⟨hlhs, hrhs⟩⟩

theorem Expr.known_of_elaborateAll (hclosed : oracle.Closed) (hscope : scope.Known oracle) :
    ∀ {es : List Expr} {ts : List Term}, Expr.ElaborateAll oracle scope es ts →
      ∀ t ∈ ts, t.Known oracle
  | _, _, .nil => nofun
  | _, _, .cons first rest => List.forall_mem_cons.mpr
    ⟨Expr.known_of_elaborates hclosed hscope first, Expr.known_of_elaborateAll hclosed hscope rest⟩

end

end Expressions

-- All types that are noted in a statement are known.
def Statement.Known (oracle : Oracle) (ss : List Statement) : Prop :=
  ∀ n ∈ notesOfAll ss, n.type.KnownTo oracle

section Bodies

variable {context : CheckContext}

theorem Argument.Fill.known {oracle : Oracle} {scope : Scope} {schema : Schema}
    {args : List Argument} {i : Nat} {params : List Parameter} {ts : List (Option Term)}
    (hclosed : oracle.Closed) (hscope : scope.Known oracle)
    (h : Argument.Fill oracle scope schema args i params ts) :
    ∀ n ∈ Term.notesOfAll (ts.filterMap id), n.type.KnownTo oracle := by
  induction h with
  | nil => nofun
  | omitted _ _ _ ih => exact ih
  | given _ elaborates _ _ ih =>
    exact List.forall_mem_append.mpr ⟨Expr.known_of_elaborates hclosed hscope elaborates, ih⟩

mutual

theorem Node.known_of_elaborates (hclosed : context.oracle.Closed) : ∀ {scope : Scope} {node : Node}
    {s : Statement}, scope.Known context.oracle → node.Elaborates context scope s →
      ∀ n ∈ s.notes, n.type.KnownTo context.oracle
  | _, _, _, _, .text _ _ => nofun
  | _, _, _, hscope, .interpolation value _ => Expr.known_of_elaborates hclosed hscope value
  | _, _, _, hscope, .conditional arms otherwise =>
    List.forall_mem_append.mpr ⟨Arm.known_of_elaborateAll hclosed hscope arms,
      Node.known_of_elaborateAll hclosed hscope otherwise⟩
  | _, _, _, hscope, .loop iterable typed body otherwise => by
    have hiterable := Expr.known_of_elaborates hclosed hscope iterable
    have hitem := Ty.knownTo_list.mp (typed ▸ hiterable.type)
    have hbody := Node.known_of_elaborateAll hclosed
      (hscope.inLoop fun τ hτ => Option.some.inj hτ ▸ hitem) body
    have hotherwise := Node.known_of_elaborateAll hclosed hscope otherwise
    exact List.forall_mem_append.mpr ⟨List.forall_mem_append.mpr ⟨hiterable, hbody⟩, hotherwise⟩
  | _, _, _, hscope, .inclusion _ filled => filled.known hclosed hscope

theorem Node.known_of_elaborateAll (hclosed : context.oracle.Closed) : ∀ {scope : Scope}
    {nodes : List Node} {ss : List Statement}, scope.Known context.oracle →
      Node.ElaborateAll context scope nodes ss → Statement.Known context.oracle ss
  | _, _, _, _, .nil => nofun
  | _, _, _, hscope, .cons first rest => List.forall_mem_append.mpr
    ⟨Node.known_of_elaborates hclosed hscope first, Node.known_of_elaborateAll hclosed hscope rest⟩

theorem Arm.known_of_elaborateAll (hclosed : context.oracle.Closed) : ∀ {scope : Scope}
    {arms : List Arm} {branches : List Branch}, scope.Known context.oracle →
      Arm.ElaborateAll context scope arms branches →
      ∀ n ∈ Statement.notesOfBranches branches, n.type.KnownTo context.oracle
  | _, _, _, _, .nil => nofun
  | _, _, _, hscope, .cons test _ body rest => List.forall_mem_append.mpr
    ⟨List.forall_mem_append.mpr ⟨Expr.known_of_elaborates hclosed hscope test,
      Node.known_of_elaborateAll hclosed hscope body⟩,
      Arm.known_of_elaborateAll hclosed hscope rest⟩

end

end Bodies

namespace Template

variable {context : CheckContext} {t : Template} {source : String} {checked : CheckedTemplate}

theorem knownTo_of_denotes {type : TypeExpr} {τ : Ty} (h : type.Denotes oracle τ) :
    τ.KnownTo oracle := by
  induction h with
  | bool | int | float | text => exact Ty.knownTo_of_plain rfl
  | record _ known =>
    rintro _ ⟨⟩
    exact known
  | list _ ih => exact Ty.knownTo_list.mpr ih

-- Header: the types of parameters are known.
theorem known_params (h : t.bind context source = .ok checked) :
    ∀ p ∈ checked.schema.params, p.type.KnownTo context.oracle := by
  have hparams := (elaborates_of_bind h).params
  intro p hp
  obtain ⟨decl, hdecl⟩ := exists_forall₂_iff.mp ⟨_, hparams.flip⟩ p hp
  exact knownTo_of_denotes (TypeExpr.denotes_iff.mpr hdecl.typed)

theorem known_scope (h : t.bind context source = .ok checked) :
    checked.schema.scope.Known context.oracle := by
  intro l hl τ hτ
  obtain ⟨p, hp, rfl⟩ := List.mem_map.mp (List.mem_reverse.mp hl)
  obtain rfl := Option.some.inj hτ
  exact known_params h p hp

-- The elements that a loop goes through have a known type.
theorem Reaches.known_items (hclosed : context.oracle.Closed)
    (hbind : t.bind context source = .ok checked) {scope : Scope} {said : List Complaint}
    {element : Binding} {index : Option Binding} {iterable : Expr} {body : List Node}
    {otherwise : Option (List Node)} {span : Span} {nodes : List Node} {term : Term} {τ : Ty}
    (h : t.Reaches context scope said
      (.nodes (.loop element index iterable body otherwise span :: nodes)))
    (hscope : scope.Known context.oracle)
    (hitems : (iterable.checkIterable context.oracle scope).result = some (term, τ)) :
    τ.KnownTo context.oracle := by
  have hsilent : (iterable.checkIterable context.oracle scope).complaints = [] :=
    (List.append_eq_nil_iff.mp (h.inside.silent hbind).1).2
  have hpure : iterable.checkIterable context.oracle scope = pure (some (term, τ)) :=
    congrArg₂ Check.mk hsilent hitems
  obtain ⟨hchecked, htyped⟩ := Expr.checkIterable_eq_some.mp hpure
  have helaborates := Expr.elaborates_of_check iterable hchecked
  have hterm := (Expr.known_of_elaborates hclosed hscope helaborates).type
  exact Ty.knownTo_list.mp (htyped ▸ hterm)

-- Wherever the check comes to, what is visible has a known type.
theorem Reaches.known_scope (hclosed : context.oracle.Closed)
    (hbind : t.bind context source = .ok checked) {scope : Scope} {said : List Complaint}
    {pending : Pending} (h : t.Reaches context scope said pending) :
    scope.Known context.oracle := by
  induction h with
  | body =>
    rw [(header_of_check (check_of_bind hbind)).1]
    exact Template.known_scope hbind
  | inside node ih =>
    refine ih.inLoop fun τ hτ => ?_
    obtain ⟨⟨term, _⟩, hitems, rfl⟩ := Option.map_eq_some_iff.mp hτ
    exact node.known_items hclosed hbind ih hitems
  | next _ ih | shown _ ih | test _ ih | arm _ ih | otherwise _ ih | iterable _ ih | empty _ ih
  | argument _ ih | operand _ _ ih => exact ih

theorem Binds.known (hclosed : context.oracle.Closed) (hbind : t.bind context source = .ok checked)
    {binding : Binding} {τ : Ty} (h : t.Binds context binding τ) : τ.KnownTo context.oracle := by
  cases h with
  | element reached items =>
    exact reached.known_items hclosed hbind (reached.known_scope hclosed hbind) items
  | index => exact Ty.knownTo_of_plain rfl

end Template

end Stencil
