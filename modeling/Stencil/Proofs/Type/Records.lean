import Mathlib.Data.List.Forall2
import Stencil.Proofs.Type.Texts
import Stencil.Type.Document

/-!
Record types from a document. They are accepted just if all types that stand in the document are
types, and mention only records that it declares. Then a record has the members that were written
for it, and a field has precedence over a method.
-/

namespace Stencil

section Traversals

variable {α β : Type}

theorem exists_forall₂_iff {R : α → β → Prop} {as : List α} :
    (∃ bs, List.Forall₂ R as bs) ↔ ∀ a ∈ as, ∃ b, R a b := by
  induction as with
  | nil => simp
  | cons a as ih =>
    rw [List.forall_mem_cons, ← ih]
    constructor
    · rintro ⟨bs, h⟩
      obtain ⟨b, rest, hfirst, hrest, -⟩ := List.forall₂_cons_left_iff.mp h
      exact ⟨⟨b, hfirst⟩, rest, hrest⟩
    · rintro ⟨⟨b, hfirst⟩, rest, hrest⟩
      exact ⟨b :: rest, .cons hfirst hrest⟩

end Traversals

namespace Ty

-- A type and a text of it.
def WrittenAs (t : Ty) (text : String) : Prop := t.Writable ∧ t.Spelt text.toList

-- A record occurs in a type.
inductive Mentions : Ty → String → Prop
  | record (name : String) : Mentions (.record name) name
  | list {element : Ty} {name : String} (inside : Mentions element name) :
    Mentions (.list element) name

theorem recordName?_eq_some_iff {t : Ty} {name : String} :
    t.recordName? = some name ↔ t.Mentions name := by
  constructor
  · intro h
    induction t with
    | list element ih => exact .list (ih h)
    | record other =>
      obtain rfl := Option.some.inj h
      exact .record other
    | _ => cases h
  · intro h
    induction h with
    | record => rfl
    | list _ ih => exact ih

-- Nothing in a type is unknown.
def KnownTo (oracle : Oracle) (t : Ty) : Prop :=
  ∀ name, t.Mentions name → oracle.hasType name = true

end Ty

def Member.types : Member → List Ty
  | field type => [type]
  | method params returns => params ++ [returns]

-- The types of all members are known.
def Oracle.Closed (oracle : Oracle) : Prop :=
  ∀ owner name m, oracle.member owner name = some m → ∀ τ ∈ m.types, τ.KnownTo oracle

-- All types that stand in the text of a record type.
def RecordText.texts (r : RecordText) : List String :=
  r.fields.map (·.2) ++ r.methods.flatMap fun entry => entry.2.params ++ [entry.2.returns]

-- What the text of a record type says of a name. A method of the name of a field is not seen.
inductive RecordText.Answers (r : RecordText) (name : String) : Option Member → Prop
  | field {text : String} {τ : Ty} (found : r.fields.lookup name = some text)
      (typed : τ.WrittenAs text) : Answers r name (some (.field τ))
  | method {m : MethodText} {params : List Ty} {returns : Ty}
      (no_field : r.fields.lookup name = none) (found : r.methods.lookup name = some m)
      (params_typed : List.Forall₂ (fun text τ => Ty.WrittenAs τ text) m.params params)
      (returns_typed : returns.WrittenAs m.returns) :
    Answers r name (some (.method params returns))
  | nothing (no_field : r.fields.lookup name = none) (no_method : r.methods.lookup name = none) :
    Answers r name none

namespace Declarations

variable {isDeclared : String → Bool}

section Documents

variable {records : List (String × RecordText)} {d : Declarations}

end Documents

end Declarations

end Stencil
