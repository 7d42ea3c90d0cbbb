import Mathlib.Logic.Relation
import Stencil.Proofs.Registry.Library

/-!
More declarations break no template. A check without complaint has used positive answers only, of
the oracle and of the lookup of schemas, so it gives the same where these answers stay.
-/

namespace Stencil

-- An oracle extends another if it gives the same to all questions that the other has an answer to.
structure Oracle.Extends (larger oracle : Oracle) : Prop where
  hasType : ∀ {name : String}, oracle.hasType name = true → larger.hasType name = true
  member : ∀ {owner name : String} {m : Member},
    oracle.member owner name = some m → larger.member owner name = some m

structure CheckContext.Extends (larger context : CheckContext) : Prop where
  oracle : larger.oracle.Extends context.oracle
  schemas : ∀ {target : String} {schema : Schema},
    context.schemas target = some schema → larger.schemas target = some schema

theorem Oracle.Extends.refl (oracle : Oracle) : oracle.Extends oracle := ⟨id, id⟩

theorem Oracle.Extends.trans {a b c : Oracle} (h : c.Extends b) (h' : b.Extends a) : c.Extends a :=
  ⟨fun known => h.hasType (h'.hasType known), fun known => h.member (h'.member known)⟩

namespace Check

variable {α β : Type} {c c' : Check α}

-- What the first check finds without complaint, the second finds too.
def KeptBy (c c' : Check α) : Prop := ∀ ⦃a : α⦄, c = pure a → c' = pure a

namespace KeptBy

theorem refl (c : Check α) : c.KeptBy c := fun _ => id

theorem reject {problem : Problem} {span : Span} {c : Check (Option α)} :
    (Check.reject problem span).KeptBy c := fun _ h => (reject_eq_pure.mp h).elim

theorem bind {f f' : α → Check β} (hc : c.KeptBy c') (hf : ∀ a, (f a).KeptBy (f' a)) :
    (c >>= f).KeptBy (c' >>= f') := by
  intro b h
  obtain ⟨a, hfirst, hrest⟩ := bind_eq_pure.mp h
  exact bind_eq_pure.mpr ⟨a, hc hfirst, hf a hrest⟩

-- Where what follows is the same.
theorem before (hc : c.KeptBy c') (f : α → Check β) : (c >>= f).KeptBy (c' >>= f) :=
  hc.bind fun a => refl (f a)

end KeptBy

end Check

open Check (KeptBy)

section Expressions

variable {oracle larger : Oracle}

theorem Expr.checkMember_kept (h : larger.Extends oracle) (m : Mark) (object : Term)
    (name : String) :
    (Expr.checkMember oracle m object name).KeptBy (Expr.checkMember larger m object name) := by
  unfold Expr.checkMember
  cases object.type with
  | record owner =>
    cases hmember : oracle.member owner name with
    | none =>
      simp only [hmember]
      exact .reject
    | some member =>
      simp only [hmember, h.member hmember]
      exact .refl _
  | _ => exact .refl _

theorem Expr.checkCall_kept (h : larger.Extends oracle) (m : Mark) (object : Term) (name : String)
    (args : List (Span × Option Term)) :
    (Expr.checkCall oracle m object name args).KeptBy
      (Expr.checkCall larger m object name args) := by
  unfold Expr.checkCall
  cases object.type with
  | record owner =>
    cases hmember : oracle.member owner name with
    | none =>
      simp only [hmember]
      exact .reject
    | some member =>
      simp only [hmember, h.member hmember]
      exact .refl _
  | _ => exact .refl _

mutual

theorem Expr.check_kept (h : larger.Extends oracle) (scope : Scope) :
    ∀ e : Expr, (e.check oracle scope).KeptBy (e.check larger scope)
  | .literal _ _ => .refl _
  | .name _ _ => .refl _
  | .list _ items => (Expr.checkAll_kept h scope items).before _
  | .member m object field => (Expr.check_kept h scope object).bind fun
    | none => .refl _
    | some object => Expr.checkMember_kept h m object field
  | .call m object method args =>
    (Expr.check_kept h scope object).bind fun object =>
      (Expr.checkAll_kept h scope args).bind fun args =>
        match object with
        | none => .refl _
        | some object => Expr.checkCall_kept h m object method args
  | .unary _ _ operand => (Expr.check_kept h scope operand).before _
  | .binary _ _ lhs rhs =>
    (Expr.check_kept h scope lhs).bind fun _ => (Expr.check_kept h scope rhs).before _

theorem Expr.checkAll_kept (h : larger.Extends oracle) (scope : Scope) :
    ∀ es : List Expr, (Expr.checkAll oracle scope es).KeptBy (Expr.checkAll larger scope es)
  | [] => .refl _
  | e :: es => (Expr.check_kept h scope e).bind fun _ => (Expr.checkAll_kept h scope es).before _

end

theorem Argument.checkAll_kept (h : larger.Extends oracle) (scope : Scope) (args : List Argument) :
    (Argument.checkAll oracle scope args).KeptBy (Argument.checkAll larger scope args) := by
  induction args with
  | nil => exact .refl _
  | cons arg args ih => exact (Expr.check_kept h scope arg.value).bind fun _ => ih.before _

theorem TypeExpr.check_kept (h : larger.Extends oracle) (span : Span) (type : TypeExpr) :
    (type.check oracle span).KeptBy (type.check larger span) := by
  induction type with
  | list element ih => exact ih.before _
  | named name =>
    unfold TypeExpr.check
    cases Ty.primitive? name with
    | some type => exact .refl _
    | none =>
      by_cases hknown : oracle.hasType name = true
      · simp only [hknown, h.hasType hknown]
        exact .refl _
      · simp only [hknown]
        exact .reject

theorem ParamDecl.check_kept (h : larger.Extends oracle) (schema : Schema) (scope : Scope)
    (decl : ParamDecl) :
    (decl.check oracle schema scope).KeptBy (decl.check larger schema scope) := by
  unfold ParamDecl.check
  split
  · exact .refl _
  · exact (TypeExpr.check_kept h decl.span decl.type).before _

theorem ParamDecl.checkAll_kept (h : larger.Extends oracle) (schema : Schema) (scope : Scope)
    (decls : List ParamDecl) : (ParamDecl.checkAll oracle schema scope decls).KeptBy
      (ParamDecl.checkAll larger schema scope decls) := by
  induction decls generalizing schema scope with
  | nil => exact .refl _
  | cons decl decls ih =>
    exact (ParamDecl.check_kept h schema scope decl).bind fun (schema, scope) => ih schema scope

theorem Template.checkHeader_kept (h : larger.Extends oracle) (t : Template) :
    (t.checkHeader oracle).KeptBy (t.checkHeader larger) :=
  ParamDecl.checkAll_kept h .empty [] t.params

-- A template that can be included still can, with the same parameters.
theorem Template.schema_kept (h : larger.Extends oracle) {t : Template} {source : String}
    {schema : Schema} (hschema : t.schema oracle source = .ok schema) :
    t.schema larger source = .ok schema := by
  unfold Template.schema at hschema
  split at hschema
  · next schema' scope hheader =>
    obtain rfl := Except.ok.inj hschema
    have hkept : t.checkHeader larger = pure (schema', scope) :=
      Template.checkHeader_kept h t hheader
    rw [Template.schema, hkept]
    rfl
  · cases hschema

end Expressions

section Bodies

variable {context larger : CheckContext}

mutual

theorem Node.check_kept (h : larger.Extends context) (scope : Scope) :
    ∀ node : Node, (node.check context scope).KeptBy (node.check larger scope)
  | .text _ _ => .refl _
  | .interpolation _ value _ => ((Expr.check_kept h.oracle scope value).before _).before _
  | .conditional arms none _ => (Arm.checkAll_kept h scope arms).before _
  | .conditional arms (some nodes) _ =>
    (Arm.checkAll_kept h scope arms).bind fun _ => (Node.checkAll_kept h scope nodes).before _
  | .loop _ _ iterable body none _ =>
    ((Expr.check_kept h.oracle scope iterable).before _).bind fun _ =>
      (Node.checkAll_kept h _ body).before _
  | .loop _ _ iterable body (some nodes) _ =>
    ((Expr.check_kept h.oracle scope iterable).before _).bind fun _ =>
      (Node.checkAll_kept h _ body).bind fun _ => (Node.checkAll_kept h scope nodes).before _
  | .inclusion _ target args _ => (Argument.checkAll_kept h.oracle scope args).bind fun _ => by
    cases hschema : context.schemas target with
    | none => exact .reject
    | some schema =>
      simp only [h.schemas hschema]
      exact .refl _

theorem Node.checkAll_kept (h : larger.Extends context) (scope : Scope) : ∀ nodes : List Node,
    (Node.checkAll context scope nodes).KeptBy (Node.checkAll larger scope nodes)
  | [] => .refl _
  | node :: nodes => (Node.check_kept h scope node).bind fun _ =>
    (Node.checkAll_kept h scope nodes).before _

theorem Arm.checkAll_kept (h : larger.Extends context) (scope : Scope) : ∀ arms : List Arm,
    (Arm.checkAll context scope arms).KeptBy (Arm.checkAll larger scope arms)
  | [] => .refl _
  | .mk test body :: arms =>
    ((Expr.check_kept h.oracle scope test).before _).bind fun _ =>
      (Node.checkAll_kept h scope body).bind fun _ => (Arm.checkAll_kept h scope arms).before _

end

theorem Template.check_kept (h : larger.Extends context) (t : Template) :
    (t.check context).KeptBy (t.check larger) :=
  (Template.checkHeader_kept h.oracle t).bind fun (_, scope) =>
    (Node.checkAll_kept h scope t.body).before _

theorem Template.bind_kept (h : larger.Extends context) {t : Template} {source : String}
    {checked : CheckedTemplate} (hbind : t.bind context source = .ok checked) :
    t.bind larger source = .ok checked := by
  have hcheck : t.check larger = pure (some checked) :=
    Template.check_kept h t (Template.check_of_bind hbind)
  rw [Template.bind, hcheck]
  rfl

theorem NamedTemplate.check_kept (h : larger.Extends context) {t : NamedTemplate}
    {checked : CheckedTemplate} (hcheck : t.check context = .ok checked) :
    t.check larger = .ok checked := by
  rw [NamedTemplate.check, Template.bind_kept h (t.bind_of_check hcheck)]
  rfl

end Bodies

namespace Declarations

variable {d d' : Declarations} {r : RecordType}

theorem get?_register (d : Declarations) (r : RecordType) :
    (d.register r).get? r.name = some r := by
  have hnone : (d.records.filter (·.name ≠ r.name)).find? (·.name = r.name) = none := by
    simp
  simp only [get?, register, List.find?_append, hnone]
  simp

theorem get?_register_of_ne {name : String} (h : name ≠ r.name) :
    (d.register r).get? name = d.get? name := by
  have hsame (a : RecordType) : (a.name ≠ r.name ∧ a.name = name) ↔ a.name = name := by
    constructor
    · exact And.right
    · rintro rfl
      exact ⟨h, rfl⟩
  have hlast : List.find? (fun a : RecordType => decide (a.name = name)) [r] = none := by
    simp [h.symm]
  simp only [get?, register, List.find?_append, List.find?_filter, hlast, decide_eq_true_eq, hsame,
    Option.or_none]

-- A record type may take the place of one that has no member that it does not have.
theorem extends_register
    (h : ∀ known, d.get? r.name = some known →
      ∀ name m, known.get? name = some m → r.get? name = some m) :
    (d.register r).oracle.Extends d.oracle where
  hasType {name} hknown := by
    by_cases hname : name = r.name
    · simp [oracle, hname, get?_register]
    · simpa [oracle, get?_register_of_ne hname] using hknown
  member {owner name m} hmember := by
    by_cases howner : owner = r.name
    · subst howner
      obtain ⟨known, hknown, hm⟩ := Option.bind_eq_some_iff.mp hmember
      simpa [oracle, get?_register] using h known hknown name m hm
    · simpa [oracle, get?_register_of_ne howner] using hmember

-- One more declaration: a record type of a new name, or members behind those of one that is known.
inductive Grows : Declarations → Declarations → Prop
  | record {d : Declarations} {r : RecordType} (fresh : d.get? r.name = none) :
    Grows d (d.register r)
  | members {d : Declarations} {r : RecordType} (known : d.get? r.name = some r)
      (added : List (String × Member)) :
    Grows d (d.register { r with members := r.members ++ added })

theorem Grows.extends (h : Grows d d') : d'.oracle.Extends d.oracle := by
  cases h with
  | record fresh =>
    refine extends_register fun known hknown => ?_
    rw [fresh] at hknown
    cases hknown
  | @members r hr added =>
    refine extends_register fun known hknown name m hm => ?_
    obtain rfl : r = known := Option.some.inj (hr.symm.trans hknown)
    have hfirst : r.members.lookup name = some m := hm
    simp [RecordType.get?, List.lookup_append, hfirst]

theorem extends_of_grows (h : Relation.ReflTransGen Grows d d') : d'.oracle.Extends d.oracle := by
  induction h with
  | refl => exact .refl _
  | tail _ hlast ih => exact hlast.extends.trans ih

end Declarations

namespace Library

variable {lib : Library} {larger : Oracle}

theorem schema?_kept (h : larger.Extends lib.oracle) {name : String} {schema : Schema}
    (hschema : lib.schema? name = some schema) :
    ({ lib with oracle := larger } : Library).schema? name = some schema := by
  obtain ⟨t, ht, hschema⟩ := Option.bind_eq_some_iff.mp hschema
  have hbound : t.template.schema lib.oracle t.source = .ok schema :=
    eq_ok_of_mapError (eq_ok_of_toOption hschema)
  have hkept := Template.schema_kept h hbound
  refine Option.bind_eq_some_iff.mpr ⟨t, ht, ?_⟩
  rw [NamedTemplate.schema, hkept]
  rfl

theorem context_extends (lib : Library) (h : larger.Extends lib.oracle) :
    ({ lib with oracle := larger } : Library).context.Extends lib.context :=
  ⟨h, schema?_kept h⟩

theorem checked_kept (lib : Library) (h : larger.Extends lib.oracle) {name : String}
    {checked : CheckedTemplate} (hchecked : lib.checked name = .ok checked) :
    ({ lib with oracle := larger } : Library).checked name = .ok checked := by
  unfold Library.checked at hchecked ⊢
  cases ht : lib.template name with
  | error e =>
    rw [ht] at hchecked
    cases hchecked
  | ok t =>
    rw [ht] at hchecked
    have hlarger : ({ lib with oracle := larger } : Library).template name = .ok t := ht
    rw [hlarger]
    exact NamedTemplate.check_kept (context_extends lib h) hchecked

end Library

-- More declarations break no template. One that passes under some oracle and schemas passes where
-- there are more of both, and gives the very same checked template, with the same parameters, types
-- and program. This is so after any number of record types and members have been declared, also for
-- templates whose schemas are found out with the same oracle.
theorem NamedTemplate.kept_under_extension :
    (∀ (context larger : CheckContext) (t : NamedTemplate) (checked : CheckedTemplate),
      larger.Extends context → t.template.bind context t.source = .ok checked →
        t.template.bind larger t.source = .ok checked ∧
        ∀ mode, t.compile larger mode = t.compile context mode) ∧
    ∀ d d' : Declarations, Relation.ReflTransGen Declarations.Grows d d' →
      d'.oracle.Extends d.oracle ∧
      ∀ (loader : Loader) (config : Config) (key : Key) (p : Program),
        (⟨loader, d.oracle, config⟩ : Library).program key = .ok p →
        (⟨loader, d'.oracle, config⟩ : Library).program key = .ok p := by
  refine ⟨fun context larger t checked h hbind => ?_, fun d d' hgrows => ?_⟩
  · have hlarger := Template.bind_kept h hbind
    refine ⟨hlarger, fun mode => ?_⟩
    simp only [compile, check, hlarger, hbind]
  · have h := Declarations.extends_of_grows hgrows
    refine ⟨h, fun loader config key p hp => ?_⟩
    obtain ⟨checked, hchecked, rfl⟩ := exists_of_map_eq_ok hp
    have hkept := Library.checked_kept ⟨loader, d.oracle, config⟩ h hchecked
    rw [Library.program, hkept]
    rfl

-- A page that includes a part for each of its guests, and the part, which shows a name.
def guestPages : Loader :=
  ((MemorySource.empty.insert "page" "@param list<Guest> guests
@for(g in guests)      @template.badge(g, g.name.len() > 9)@end").insert
    "badge" "@param Guest guest
@param bool small
@if(!small)${guest.name}@end").load

def guests : Declarations :=
  Declarations.empty.register ((RecordType.empty "Guest").withField "name" .text)

-- Tables come in, and guests get one.
def seatedGuests : Declarations :=
  (guests.register (.empty "Table")).register
    (((RecordType.empty "Guest").withField "name" .text).withField "table" (.record "Table"))

theorem Declarations.seatedGuests_grows : Relation.ReflTransGen Grows guests seatedGuests := by
  have htable : Grows guests (guests.register (.empty "Table")) := .record (by decide)
  have hguest : (guests.register (.empty "Table")).get? "Guest" =
      some ((RecordType.empty "Guest").withField "name" .text) := by decide
  exact (Relation.ReflTransGen.single htable).tail
    (.members hguest [("table", .field (.record "Table"))])

theorem NamedTemplate.kept_under_extension_guests :
    let lib : Library := ⟨guestPages, guests.oracle, .default⟩
    let larger : Library := ⟨guestPages, seatedGuests.oracle, .default⟩
    ∃ t checked p, lib.template "page" = .ok t ∧
      t.template.bind lib.context t.source = .ok checked ∧
      t.template.bind larger.context t.source = .ok checked ∧
      lib.program ⟨"page", .bytes⟩ = .ok p ∧ larger.program ⟨"page", .bytes⟩ = .ok p := by
  intro lib larger
  have hruns : ((lib.template "page").toOption.bind fun t =>
      (t.template.bind lib.context t.source).toOption).isSome = true := by decide +kernel
  have hprogram : (lib.program ⟨"page", .bytes⟩).toOption.isSome = true := by decide +kernel
  obtain ⟨checked, hchecked⟩ := Option.isSome_iff_exists.mp hruns
  obtain ⟨t, ht, hbind⟩ := Option.bind_eq_some_iff.mp hchecked
  obtain ⟨p, hp⟩ := Option.isSome_iff_exists.mp hprogram
  obtain ⟨hkept, hgrown⟩ := kept_under_extension
  obtain ⟨hextends, hprograms⟩ := hgrown guests seatedGuests Declarations.seatedGuests_grows
  have hcontext : larger.context.Extends lib.context := Library.context_extends lib hextends
  have hlarger := hkept lib.context larger.context t checked hcontext (eq_ok_of_toOption hbind)
  exact ⟨t, checked, p, eq_ok_of_toOption ht, eq_ok_of_toOption hbind, hlarger.1,
    eq_ok_of_toOption hp, hprograms guestPages .default ⟨"page", .bytes⟩ p (eq_ok_of_toOption hp)⟩

end Stencil
