import Stencil.Proofs.Locations
import Stencil.Proofs.Typing.Timely

/-!
The order of type errors. They are in the order of the source just if all that is checked is
timely. A call is checked after its arguments, and so is an inclusion, though it stands before them:
where such a one is complained of itself as well as in its arguments, the errors are out of order.
-/

namespace Stencil

open Stencil.Span Complaint

namespace Node

variable {good : Nat → Prop} {lo hi : Nat}

-- The steps that concern arguments are placed behind the `@` of an inclusion, the last one at it.
theorem exists_inclusionSteps (context : CheckContext) (scope : Scope) {id : Nat}
    {target : String} {args : List Argument} {span : Span}
    (hrow : Template.Item.InRow good lo hi [.inclusion id target args span]) :
    ∃ front last, inclusionSteps context scope target args span = front ++ [last] ∧
      (∀ step ∈ front, ∀ c ∈ step, good c.span.start ∧ span.start < c.span.start) ∧
        ∀ c ∈ last, c.span = span := by
  obtain ⟨-, -, hargs, hnested⟩ := hrow.inclusion
  have hmade : ∀ c ∈ (Argument.checkAll context.oracle scope args).complaints,
      good c.span.start ∧ span.start < c.span.start := by
    intro c hc
    rw [complaints_arguments, Expr.complaints_checkAll] at hc
    obtain ⟨e, he, hc⟩ := List.mem_flatMap.mp hc
    obtain ⟨arg, harg, rfl⟩ := List.mem_map.mp he
    obtain ⟨hstart, hle, hne, -⟩ := hargs.of_mem (List.mem_map_of_mem he)
    obtain ⟨hplace, hfrom, -⟩ := arg.value.within_check hstart hne (hnested arg harg) c hc
    exact ⟨hplace, by omega⟩
  unfold inclusionSteps
  cases context.schemas target with
  | none =>
    exact ⟨[_], _, rfl, List.forall_mem_singleton.mpr hmade, by simp⟩
  | some schema =>
    refine ⟨[_, _], _, rfl, List.forall_mem_cons.mpr ⟨hmade, ?_⟩, fun c hc =>
      Plan.places_requireAll _ (List.mem_map_of_mem hc)⟩
    rw [List.forall_mem_singleton]
    intro c hc
    have hplace := (places_giveEach args).subset (List.mem_map_of_mem hc)
    obtain ⟨hstart, hle, -, -⟩ := hargs.of_mem hplace
    exact ⟨hstart, hle⟩

end Node

section Placed

variable {good : Nat → Prop} {context : CheckContext} {t : Template} {scope : Scope}
  {said : List Complaint} {pending : Pending}

-- What is next stands in the source in order.
def Pending.InRow (good : Nat → Prop) : Pending → Prop
  | .nodes list => ∃ lo hi, Template.Item.InRow good lo hi (Node.itemsOfAll list)
  | .expr e => good e.span.start ∧ e.span.start < e.span.stop ∧ e.Nested good

namespace Template

-- An item that holds one expression.
theorem Item.InRow.root {lo hi : Nat} {item : Item} {e : Expr} (h : InRow good lo hi [item])
    (hitem : item.exprs = [e]) : (Pending.expr e).InRow good := by
  obtain ⟨⟨hgood, -, hne, -⟩, hnested⟩ := h.expr hitem
  exact ⟨hgood, hne, hnested⟩

-- An arm: first its condition, then its body.
theorem Item.InRow.exists_arm {lo hi : Nat} {opener : Expr → Item} {done rest : List Arm}
    {test : Expr} {body : List Node}
    (h : InRow good lo hi (Node.itemsOfArms opener (done ++ .mk test body :: rest)))
    (hopener : ∀ test, (opener test).exprs = [test]) :
    (Pending.expr test).InRow good ∧ (Pending.nodes body).InRow good := by
  induction done generalizing lo opener with
  | nil =>
    obtain ⟨mid, hblock, -⟩ := h.exists_of_append
    obtain ⟨first, htest, hbody⟩ := hblock.exists_of_cons
    exact ⟨htest.root (hopener test), _, _, hbody⟩
  | cons arm done ih =>
    obtain ⟨first, inner⟩ := arm
    obtain ⟨mid, -, hrest⟩ := h.exists_of_append
    exact ih hrest fun _ => rfl

theorem Item.InRow.first {lo hi : Nat} {node : Node} {nodes : List Node}
    (h : InRow good lo hi (Node.itemsOfAll (node :: nodes))) :
    ∃ mid, InRow good lo mid node.items := by
  obtain ⟨mid, hfirst, -⟩ := h.exists_of_append
  exact ⟨mid, hfirst⟩

-- The induction is on how the state is reached.
theorem Reaches.inRow (ht : t.InRow good) (h : t.Reaches context scope said pending) :
    pending.InRow good := by
  induction h with
  | body =>
    obtain ⟨lo, mid, hi, -, hbody⟩ := ht
    exact ⟨mid, hi, hbody⟩
  | next _ ih =>
    obtain ⟨lo, hi, hrow⟩ := ih
    obtain ⟨mid, -, hrest⟩ := hrow.exists_of_append
    exact ⟨mid, hi, hrest⟩
  | shown _ ih =>
    obtain ⟨lo, hi, hrow⟩ := ih
    obtain ⟨mid, hfirst⟩ := hrow.first
    exact hfirst.root rfl
  | test _ ih =>
    obtain ⟨lo, hi, hrow⟩ := ih
    obtain ⟨mid, hfirst⟩ := hrow.first
    obtain ⟨last, harms, -⟩ := hfirst.conditional
    exact (harms.exists_arm fun _ => rfl).1
  | arm _ ih =>
    obtain ⟨lo, hi, hrow⟩ := ih
    obtain ⟨mid, hfirst⟩ := hrow.first
    obtain ⟨last, harms, -⟩ := hfirst.conditional
    exact (harms.exists_arm fun _ => rfl).2
  | otherwise _ ih =>
    obtain ⟨lo, hi, hrow⟩ := ih
    obtain ⟨mid, hfirst⟩ := hrow.first
    obtain ⟨last, -, hotherwise⟩ := hfirst.conditional
    exact ⟨last, mid, hotherwise⟩
  | iterable _ ih =>
    obtain ⟨lo, hi, hrow⟩ := ih
    obtain ⟨mid, hfirst⟩ := hrow.first
    obtain ⟨start, last, hheader, -, -⟩ := hfirst.loop
    exact hheader.root rfl
  | inside _ ih =>
    obtain ⟨lo, hi, hrow⟩ := ih
    obtain ⟨mid, hfirst⟩ := hrow.first
    obtain ⟨start, last, -, hbody, -⟩ := hfirst.loop
    exact ⟨start, last, hbody⟩
  | empty _ ih =>
    obtain ⟨lo, hi, hrow⟩ := ih
    obtain ⟨mid, hfirst⟩ := hrow.first
    obtain ⟨start, last, -, -, hotherwise⟩ := hfirst.loop
    exact ⟨last, mid, hotherwise⟩
  | @argument scope said id target done rest arg span nodes _ ih =>
    obtain ⟨lo, hi, hrow⟩ := ih
    obtain ⟨mid, hfirst⟩ := hrow.first
    obtain ⟨-, -, hargs, hnested⟩ := hfirst.inclusion
    have hmem : arg ∈ done ++ arg :: rest := List.mem_append_right _ List.mem_cons_self
    obtain ⟨hgood, -, hne, -⟩ :=
      hargs.of_mem (List.mem_map_of_mem (List.mem_map_of_mem hmem))
    exact ⟨hgood, hne, hnested arg hmem⟩
  | operand _ hoperands ih =>
    obtain ⟨-, -, hnested⟩ := ih
    obtain ⟨hrow, hinner⟩ := Expr.nested_iff.mp hnested
    rw [hoperands] at hrow hinner
    have hmem {done rest : List Expr} {o : Expr} : o ∈ done ++ o :: rest :=
      List.mem_append_right _ List.mem_cons_self
    obtain ⟨hgood, -, hne, -⟩ := hrow.of_mem (List.mem_map_of_mem hmem)
    exact ⟨hgood, hne, hinner _ hmem⟩

end Template

end Placed

-- Errors from the first location to the last one.
def TypeError.InOrder (errors : List TypeError) : Prop :=
  errors.Pairwise fun a b => a.location ≤ b.location

instance : DecidablePred TypeError.InOrder :=
  fun errors => inferInstanceAs (Decidable (errors.Pairwise fun a b => a.location ≤ b.location))

section Errors

variable {source : String} {context : CheckContext} {t : Template} {scope : Scope}
  {said : List Complaint} {pending : Pending}

theorem Complaint.Between.inOrder {lo hi : Nat} {complaints : List Complaint}
    (h : Between lo hi complaints) : TypeError.InOrder (Complaint.located source complaints) :=
  List.pairwise_map.mpr (h.ordered.imp (Location.locate_mono source))

-- Where locations are in order, so are the places, if characters begin at these.
theorem Complaint.clear_of_located {xs ys : List Complaint}
    (hplace : ∀ a ∈ xs, Boundary 0 source.toList a.span.start)
    (h : ∀ a ∈ xs, ∀ b ∈ ys, Location.locate source a.span.start ≤
      Location.locate source b.span.start) : Clear xs ys :=
  fun a ha b hb => (Location.locate_le_iff (hplace a ha)).mp (h a ha b hb)

namespace Template

-- In errors that are in order, so are those of what the check comes to.
theorem Reaches.inOrder (h : t.Reaches context scope said pending)
    (horder : TypeError.InOrder (Complaint.located source (t.check context).complaints)) :
    (pending.complaints context scope).Pairwise fun a b =>
      Location.locate source a.span.start ≤ Location.locate source b.span.start :=
  (List.pairwise_map.mp horder).sublist
    ((List.sublist_append_right _ _).trans h.said_prefix.sublist)

theorem timely_of_inOrder (hrow : t.InRow (Boundary 0 source.toList))
    (horder : TypeError.InOrder (Complaint.located source (t.check context).complaints)) :
    t.Timely context := by
  intro scope said pending h
  have hordered := h.inOrder horder
  have hplaced := h.inRow hrow
  cases pending with
  | expr e =>
    obtain ⟨-, -, hnested⟩ := hplaced
    obtain ⟨hoperands, hinner⟩ := Expr.nested_iff.mp hnested
    rw [Pending.complaints, e.complaints_eq, e.operands_eq, List.flatMap_append,
      List.append_assoc] at hordered
    have hcross := (List.pairwise_append.mp (List.pairwise_append.mp hordered).2.1).2.2
    refine Complaint.clear_of_located (fun a ha => ?_) (by rwa [Expr.complaints_checkAll])
    rw [Expr.complaints_checkAll] at ha
    obtain ⟨o, ho, ha⟩ := List.mem_flatMap.mp ha
    have hmem : o ∈ e.operands := e.operands_eq ▸ List.mem_append_right _ ho
    obtain ⟨hstart, -, hne, -⟩ := hoperands.of_mem (List.mem_map_of_mem hmem)
    exact (o.within_check hstart hne (hinner o hmem) a ha).1
  | nodes list =>
    rcases list with _ | ⟨node, nodes⟩
    · trivial
    cases node with
    | text | interpolation | conditional | loop => trivial
    | inclusion id target args span =>
      obtain ⟨lo, hi, hitems⟩ := hplaced
      obtain ⟨mid, hfirst⟩ := hitems.first
      obtain ⟨front, last, hsteps, hfront, hlast⟩ :=
        Node.exists_inclusionSteps context scope hfirst
      rw [Pending.complaints, Node.complaints_cons, Node.complaints_inclusion] at hordered
      have hflat := (List.pairwise_append.mp hordered).1
      refine (List.pairwise_flatten.mp hflat).2.imp_of_mem fun hxs _ hcross => ?_
      refine Complaint.clear_of_located (fun a ha => ?_) hcross
      rw [hsteps] at hxs
      rcases List.mem_append.mp hxs with hxs | hxs
      · exact (hfront _ hxs a ha).1
      · obtain rfl := List.mem_singleton.mp hxs
        rw [hlast a ha]
        exact hfirst.inclusion.1

theorem inOrder_iff (hrow : t.InRow (Boundary 0 source.toList)) :
    TypeError.InOrder (Complaint.located source (t.check context).complaints) ↔
      t.Timely context := by
  refine ⟨timely_of_inOrder hrow, fun h => ?_⟩
  obtain ⟨lo, hi, hbetween⟩ := h.between_check hrow
  exact hbetween.inOrder

end Template

-- A call or an inclusion that is complained of itself as well as in its arguments.
def Pending.Overtaken (context : CheckContext) (scope : Scope) : Pending → Prop
  | .expr (.call m object name args) =>
    (Expr.checkAll context.oracle scope args).complaints ≠ [] ∧
      ∃ c ∈ (Expr.call m object name args).ownComplaints context.oracle scope, c.span = m.span
  | .nodes (.inclusion id target args span :: _) =>
    let said := ((Node.inclusion id target args span).check context scope).complaints
    (∃ c ∈ said, c.span ≠ span) ∧ ∃ c ∈ said, c.span = span
  | _ => False

instance : ∀ pending : Pending, Decidable (pending.Overtaken context scope)
  | .expr (.call _ _ _ _) | .nodes (.inclusion _ _ _ _ :: _) => inferInstanceAs (Decidable (_ ∧ _))
  | .expr (.literal _ _) | .expr (.name _ _) | .expr (.list _ _) | .expr (.member _ _ _)
  | .expr (.unary _ _ _) | .expr (.binary _ _ _ _) | .nodes [] | .nodes (.text _ _ :: _)
  | .nodes (.interpolation _ _ _ :: _) | .nodes (.conditional _ _ _ :: _)
  | .nodes (.loop _ _ _ _ _ _ :: _) => inferInstanceAs (Decidable False)

-- Its arguments stand behind where it begins, and they are complained of first.
theorem Pending.Overtaken.not_timely {good : Nat → Prop} (h : pending.Overtaken context scope)
    (hplaced : pending.InRow good) : ¬ pending.Timely context scope := by
  intro htimely
  match pending, h with
  | .expr (.call m object name args), ⟨hargs, d, hown, hself⟩ =>
    obtain ⟨-, -, hnested⟩ := hplaced
    obtain ⟨⟨-, hfrom, hobject, hrow⟩, hinner⟩ := Expr.nested_iff.mp hnested
    obtain ⟨c, hc⟩ := List.exists_mem_of_ne_nil _ hargs
    have hle := htimely c hc _ hown
    rw [Expr.complaints_checkAll] at hc
    obtain ⟨o, ho, hc⟩ := List.mem_flatMap.mp hc
    obtain ⟨hstart, hbehind, hne, -⟩ := hrow.of_mem (List.mem_map_of_mem ho)
    have hinside := (o.within_check hstart hne (hinner o (List.mem_cons_of_mem _ ho)) c hc).2.1
    have hcall : m.span.start ≤ object.span.start := hfrom
    rw [hself] at hle
    omega
  | .nodes (.inclusion id target args span :: others), ⟨⟨c, hc, hother⟩, d, hd, hself⟩ =>
    obtain ⟨lo, hi, hitems⟩ := hplaced
    obtain ⟨mid, hfirst⟩ := hitems.first
    obtain ⟨front, last, hsteps, hfront, hlast⟩ :=
      Node.exists_inclusionSteps context scope hfirst
    have hpairs : (Node.inclusionSteps context scope target args span).Pairwise Clear := htimely
    rw [Node.complaints_inclusion, hsteps, List.flatten_append, List.mem_append] at hc hd
    rw [hsteps] at hpairs
    have hclear := (List.pairwise_append.mp hpairs).2.2
    rcases hc with hc | hc
    · obtain ⟨step, hstep, hc⟩ := List.mem_flatten.mp hc
      rcases hd with hd | hd
      · obtain ⟨step', hstep', hd⟩ := List.mem_flatten.mp hd
        have hbehind := (hfront step' hstep' d hd).2
        rw [hself] at hbehind
        exact absurd hbehind (Nat.lt_irrefl _)
      · have hle := hclear step hstep last (List.mem_singleton_self _) c hc d (by simpa using hd)
        have hbehind := (hfront step hstep c hc).2
        rw [hself] at hle
        omega
    · exact hother (hlast c (by simpa using hc))

namespace Template

theorem errors_of_bind {errors : List TypeError} (h : t.bind context source = .error errors) :
    errors = Complaint.located source (t.check context).complaints := by
  unfold bind at h
  split at h
  · cases h
  · next hcheck =>
    rw [hcheck]
    exact (Except.error.inj h).symm

theorem bind_eq_error (h : (t.check context).complaints ≠ []) :
    t.bind context source = .error (Complaint.located source (t.check context).complaints) := by
  unfold bind
  split
  · next hcheck =>
    rw [hcheck] at h
    exact absurd rfl h
  · next hcheck => rw [hcheck]

theorem errors_of_schema {oracle : Oracle} {errors : List TypeError}
    (h : t.schema oracle source = .error errors) :
    errors = Complaint.located source (t.checkHeader oracle).complaints := by
  unfold schema at h
  split at h
  · cases h
  · next hcheck =>
    rw [hcheck]
    exact (Except.error.inj h).symm

-- The errors of a header come in the order of the source. Those of a whole template do so just if
-- no complaint about an expression or an inclusion stands before one that was made of its arguments;
-- they never do where a call or an inclusion is complained of itself as well as in its arguments.
theorem bind_inOrder_iff {trimLines : Bool} (h : parse source trimLines = .ok t)
    (context : CheckContext) :
    (∀ errors, t.schema context.oracle source = .error errors → TypeError.InOrder errors) ∧
    (∀ errors, t.bind context source = .error errors →
      (TypeError.InOrder errors ↔ t.Timely context)) ∧
    ∀ scope said pending, t.Reaches context scope said pending →
      pending.Overtaken context scope →
        ∃ errors, t.bind context source = .error errors ∧ ¬ TypeError.InOrder errors := by
  have hrow := inRow_of_parse h
  refine ⟨fun errors herrors => ?_, fun errors herrors => ?_, fun scope said pending hreached
    hovertaken => ?_⟩
  · obtain ⟨lo, mid, -, hparams, -⟩ := hrow
    rw [errors_of_schema herrors]
    exact (between_header context.oracle hparams).inOrder
  · rw [errors_of_bind herrors]
    exact inOrder_iff hrow
  · have hnot : ¬ t.Timely context := fun htimely =>
      hovertaken.not_timely (hreached.inRow hrow) (htimely scope said pending hreached)
    rw [← inOrder_iff hrow] at hnot
    refine ⟨_, bind_eq_error fun hnil => hnot ?_, hnot⟩
    rw [hnil]
    exact List.Pairwise.nil

-- No such template to include, and no such name in its argument.
theorem bind_inOrder_iff_missing : ∃ t context header errors,
    parse "@param nope s\n@template.gone(x)" true = .ok t ∧
      t.schema context.oracle "@param nope s\n@template.gone(x)" = .error header ∧
      TypeError.InOrder header ∧
      t.bind context "@param nope s\n@template.gone(x)" = .error errors ∧
      ¬ TypeError.InOrder errors ∧ ¬ t.Timely context := by
  let context : CheckContext := ⟨Declarations.empty.oracle, fun _ => none⟩
  have hany : (parse "@param nope s\n@template.gone(x)" true).toOption.any fun t =>
      (t.schema context.oracle "@param nope s\n@template.gone(x)").toOption.isNone ∧
        Pending.Overtaken context (t.checkHeader context.oracle).result.2 (.nodes t.body) := by
    decide +kernel
  obtain ⟨t, ht, hdecided⟩ := (Option.any_eq_true _ _).mp hany
  obtain ⟨hschema, hovertaken⟩ := of_decide_eq_true hdecided
  obtain ⟨hheader, hbind, hbroken⟩ := bind_inOrder_iff (eq_ok_of_toOption ht) context
  obtain ⟨errors, herrors, hnot⟩ := hbroken _ _ _ .body hovertaken
  cases hresult : t.schema context.oracle "@param nope s\n@template.gone(x)" with
  | ok schema =>
    rw [hresult] at hschema
    cases hschema
  | error header =>
    exact ⟨t, context, header, errors, eq_ok_of_toOption ht, hresult, hheader header hresult,
      herrors, hnot, mt (hbind errors herrors).mpr hnot⟩

-- Are type errors in order whatever is wrong?
def AlwaysInOrder : Prop :=
  ∀ (source : String) (trimLines : Bool) (t : Template) (context : CheckContext)
    (errors : List TypeError), parse source trimLines = .ok t →
      t.bind context source = .error errors → TypeError.InOrder errors

-- The argument of a call is complained of before the member that is not there.
theorem not_alwaysInOrder : ¬ AlwaysInOrder := by
  intro h
  let context : CheckContext := ⟨Declarations.empty.oracle, fun _ => none⟩
  have hany : (parse "@param string s\n$\x7bs.foo(x)\x7d" true).toOption.any fun t =>
      ¬ TypeError.InOrder (Complaint.located "@param string s\n$\x7bs.foo(x)\x7d"
        (t.check context).complaints) := by
    decide +kernel
  obtain ⟨t, ht, hdecided⟩ := (Option.any_eq_true _ _).mp hany
  have hnot := of_decide_eq_true hdecided
  refine hnot (h _ true t context _ (eq_ok_of_toOption ht) (bind_eq_error fun hnil => hnot ?_))
  rw [hnil]
  exact List.Pairwise.nil

end Template

end Errors

end Stencil
