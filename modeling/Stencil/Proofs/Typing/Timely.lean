import Stencil.Proofs.Template.Extents
import Stencil.Proofs.Typing.Placing
import Stencil.Proofs.Typing.Reported

/-!
Complaints that come in the order of the source. They do as far as what is checked is timely: an
expression is complained of itself behind its arguments, and an inclusion one step after the other.
-/

namespace Stencil

open Stencil.Span

namespace Complaint

-- No complaint of the second list stands before one of the first.
def Clear (earlier later : List Complaint) : Prop :=
  ∀ a ∈ earlier, ∀ b ∈ later, a.span.start ≤ b.span.start

-- Complaints in the order of their places, between bytes `lo` and `hi`.
structure Between (lo hi : Nat) (complaints : List Complaint) : Prop where
  le : lo ≤ hi
  bounds : ∀ c ∈ complaints, lo ≤ c.span.start ∧ c.span.start ≤ hi
  ordered : complaints.Pairwise fun a b => a.span.start ≤ b.span.start

namespace Between

variable {lo mid hi : Nat} {xs ys : List Complaint} {good : Nat → Prop} {spans : List Span}

theorem nil (h : lo ≤ hi) : Between lo hi [] := ⟨h, by simp, .nil⟩

theorem widen {lo' hi' : Nat} (h : Between lo hi xs) (hlo : lo' ≤ lo) (hhi : hi ≤ hi') :
    Between lo' hi' xs where
  le := (hlo.trans h.le).trans hhi
  bounds c hc := by
    obtain ⟨hfrom, hto⟩ := h.bounds c hc
    exact ⟨hlo.trans hfrom, hto.trans hhi⟩
  ordered := h.ordered

-- Both lists may stand in the same place where neither is in the other's way.
theorem append_of_clear (h : Between lo hi xs) (h' : Between lo hi ys) (hclear : Clear xs ys) :
    Between lo hi (xs ++ ys) :=
  ⟨h.le, List.forall_mem_append.mpr ⟨h.bounds, h'.bounds⟩,
    List.pairwise_append.mpr ⟨h.ordered, h'.ordered, hclear⟩⟩

theorem append (h : Between lo mid xs) (h' : Between mid hi ys) : Between lo hi (xs ++ ys) :=
  (h.widen (Nat.le_refl _) h'.le).append_of_clear (h'.widen h.le (Nat.le_refl _))
    fun a ha b hb => (h.bounds a ha).2.trans (h'.bounds b hb).1

theorem flatten {steps : List (List Complaint)} (hle : lo ≤ hi)
    (h : ∀ step ∈ steps, Between lo hi step) (hclear : steps.Pairwise Clear) :
    Between lo hi steps.flatten where
  le := hle
  bounds c hc := by
    obtain ⟨step, hstep, hc⟩ := List.mem_flatten.mp hc
    exact (h step hstep).bounds c hc
  ordered := List.pairwise_flatten.mpr ⟨fun step hstep => (h step hstep).ordered, hclear⟩

theorem of_place {s : Span} (hlo : lo ≤ s.start) (hhi : s.start ≤ hi)
    (h : ∀ c ∈ xs, c.span = s) : Between lo hi xs where
  le := hlo.trans hhi
  bounds c hc := by
    rw [h c hc]
    exact ⟨hlo, hhi⟩
  ordered := List.pairwise_of_forall_mem_list fun a ha b hb => by rw [h a ha, h b hb]

-- Complaints that blame spans of a row, one after the other.
theorem of_row (hrow : Row good lo hi spans) (hsub : (xs.map Complaint.span).Sublist spans) :
    Between lo hi xs where
  le := hrow.le
  bounds c hc := by
    obtain ⟨-, hle, hne, hstop⟩ := hrow.of_mem (hsub.subset (List.mem_map_of_mem hc))
    exact ⟨hle, hne.le.trans hstop⟩
  ordered := by
    have hpairs := hrow.pairwise.sublist hsub
    rwa [List.pairwise_map] at hpairs

end Between

end Complaint

open Complaint

namespace Expr

variable {good : Nat → Prop} {lo hi : Nat} {oracle : Oracle} {scope : Scope}

-- No complaint of the expression itself stands before one of its arguments.
def Timely (oracle : Oracle) (scope : Scope) (e : Expr) : Prop :=
  Clear (checkAll oracle scope e.arguments).complaints (e.ownComplaints oracle scope)

theorem Timely.clear {e : Expr} (h : e.Timely oracle scope) :
    Clear (checkAll oracle scope e.operands).complaints (e.ownComplaints oracle scope) := by
  intro a ha b hb
  refine h a ?_ b hb
  have hpass := subjects_pass (List.ne_nil_of_mem hb)
  rw [complaints_checkAll] at ha hpass ⊢
  rw [operands_eq, List.flatMap_append, hpass] at ha
  exact ha

-- The complaints of an expression are placed in it.
theorem within_check : ∀ e : Expr, good e.span.start → e.span.start < e.span.stop →
    e.Nested good → ∀ c ∈ (e.check oracle scope).complaints,
      good c.span.start ∧ e.span.start ≤ c.span.start ∧ c.span.start ≤ e.span.stop := by
  refine of_operands fun e ih hgood hne hnested c hc => ?_
  obtain ⟨hrow, hoperands⟩ := nested_iff.mp hnested
  have hmem {o : Expr} (ho : o ∈ e.operands) := hrow.of_mem (List.mem_map_of_mem ho)
  rw [complaints_eq] at hc
  rcases List.mem_append.mp hc with hc | hown
  · obtain ⟨o, ho, hc⟩ := List.mem_flatMap.mp hc
    obtain ⟨hstart, hle, hlt, hstop⟩ := hmem ho
    obtain ⟨hplace, hfrom, hto⟩ := ih o ho hstart hlt (hoperands o ho) c hc
    exact ⟨hplace, hle.trans hfrom, hto.trans hstop⟩
  · have hplace : c.span ∈ (e.ownComplaints oracle scope).map Complaint.span :=
      List.mem_map_of_mem hown
    rcases e.places_own with hwhole | hparts
    · rw [hwhole, List.mem_singleton] at hplace
      rw [hplace]
      exact ⟨hgood, Nat.le_refl _, hne.le⟩
    · obtain ⟨hstart, hle, hlt, hstop⟩ := hrow.of_mem (hparts.subset hplace)
      exact ⟨hstart, hle, hlt.le.trans hstop⟩

theorem between_checkAll {es : List Expr} (hrow : Row good lo hi (es.map Expr.span))
    (hes : ∀ e ∈ es, Between e.span.start e.span.stop (e.check oracle scope).complaints) :
    Between lo hi (checkAll oracle scope es).complaints := by
  rw [complaints_checkAll]
  induction es generalizing lo with
  | nil => exact .nil hrow
  | cons e es ih =>
    obtain ⟨-, hle, -, hrest⟩ := hrow
    obtain ⟨he, hes⟩ := List.forall_mem_cons.mp hes
    exact (he.widen hle (Nat.le_refl _)).append (ih hrest hes)

-- Where all parts are timely, the complaints of an expression come in order.
theorem between_check : ∀ e : Expr, e.span.start < e.span.stop → e.Nested good →
    (∀ part ∈ e.parts, part.Timely oracle scope) →
      Between e.span.start e.span.stop (e.check oracle scope).complaints := by
  refine of_operands fun e ih hne hnested htimely => ?_
  obtain ⟨hrow, hoperands⟩ := nested_iff.mp hnested
  rw [parts_eq] at htimely
  obtain ⟨hhere, hthere⟩ := List.forall_mem_cons.mp htimely
  have hbetween : Between e.span.start e.span.stop
      (checkAll oracle scope e.operands).complaints := by
    refine between_checkAll hrow fun o ho => ?_
    obtain ⟨-, -, hlt, -⟩ := hrow.of_mem (List.mem_map_of_mem ho)
    exact ih o ho hlt (hoperands o ho) fun part hpart =>
      hthere part (List.mem_flatMap.mpr ⟨o, ho, hpart⟩)
  have hown : Between e.span.start e.span.stop (e.ownComplaints oracle scope) := by
    rcases e.places_own with hwhole | hparts
    · have hspan : Row (fun _ => True) e.span.start e.span.stop [e.span] :=
        .singleton trivial (Nat.le_refl _) hne (Nat.le_refl _)
      exact .of_row hspan (hwhole ▸ List.Sublist.refl _)
    · exact .of_row hrow hparts
  have hclear := hhere.clear
  rw [complaints_checkAll] at hbetween hclear
  rw [complaints_eq]
  exact hbetween.append_of_clear hown hclear

-- What is made of an expression is complained of at it, and only where it has a type.
def Judged {β : Type} (oracle : Oracle) (scope : Scope) (e : Expr) (c : Check β) : Prop :=
  ∃ f : Option Term → Check β, c = e.check oracle scope >>= f ∧ (f none).places = [] ∧
    ∀ t, (f (some t)).places.Sublist [e.span]

theorem judged_checkShown (e : Expr) : e.Judged oracle scope (e.checkShown oracle scope) := by
  refine ⟨_, rfl, rfl, fun t => ?_⟩
  dsimp only
  split
  · exact List.nil_sublist _
  · exact List.Sublist.refl _

theorem judged_checkCondition (e : Expr) :
    e.Judged oracle scope (e.checkCondition oracle scope) := by
  refine ⟨_, rfl, rfl, fun t => ?_⟩
  dsimp only
  split
  · exact List.nil_sublist _
  · exact List.Sublist.refl _

theorem judged_checkIterable (e : Expr) :
    e.Judged oracle scope (e.checkIterable oracle scope) := by
  refine ⟨_, rfl, rfl, fun t => ?_⟩
  dsimp only
  split
  · exact List.nil_sublist _
  · exact List.Sublist.refl _

theorem Judged.between {β : Type} {e : Expr} {c : Check β} (hjudged : e.Judged oracle scope c)
    (hspan : e.span.start < e.span.stop)
    (h : Between e.span.start e.span.stop (e.check oracle scope).complaints) :
    Between e.span.start e.span.stop c.complaints := by
  obtain ⟨f, rfl, hnone, hsome⟩ := hjudged
  rw [Check.complaints_bind]
  cases hresult : (e.check oracle scope).result with
  | none => rwa [List.map_eq_nil_iff.mp hnone, List.append_nil]
  | some t =>
    have hpass : (e.check oracle scope).complaints = [] := by
      by_contra hne
      exact Option.some_ne_none t (hresult.symm.trans ((fails_check e).mpr (.inl hne)))
    have hrow : Row (fun _ => True) e.span.start e.span.stop [e.span] :=
      .singleton trivial (Nat.le_refl _) hspan (Nat.le_refl _)
    rw [hpass]
    exact .of_row hrow (hsome t)

end Expr

namespace Node

variable {good : Nat → Prop} {lo hi : Nat} {context : CheckContext} {scope : Scope}

-- What is complained of an inclusion, step by step: of the arguments by themselves, of what they
-- are given for, and of the parameters that are left; or that there is no such template.
def inclusionSteps (context : CheckContext) (scope : Scope) (target : String)
    (args : List Argument) (span : Span) : List (List Complaint) :=
  let given := Argument.checkAll context.oracle scope args
  given.complaints ::
    match context.schemas target with
    | none => [[⟨.unknownTemplate target, span⟩]]
    | some schema =>
      let plan := Plan.giveEach target schema given.result.length 0 false
        (List.replicate schema.size none) given.result
      [plan.complaints, (Plan.requireAll target span schema.params plan.result).complaints]

theorem complaints_inclusion (id : Nat) (target : String) (args : List Argument) (span : Span) :
    ((Node.inclusion id target args span).check context scope).complaints =
      (inclusionSteps context scope target args span).flatten := by
  cases hschema : context.schemas target <;>
    simp [Node.check, inclusionSteps, hschema, checkInclusion, Check.reject]

theorem complaints_arguments (oracle : Oracle) (args : List Argument) :
    (Argument.checkAll oracle scope args).complaints =
      (Expr.checkAll oracle scope (args.map Argument.value)).complaints := by
  rw [Argument.checkAll_eq, Expr.complaints_checkAll, List.flatMap_map]

-- What arguments are given for is complained of at the arguments.
theorem places_giveEach {target : String} {schema : Schema} {count : Nat} {plan : Plan}
    (args : List Argument) : (Plan.giveEach target schema count 0 false plan
      (Argument.checkAll context.oracle scope args).result).places.Sublist
        ((args.map Argument.value).map Expr.span) := by
  have hspans : (Argument.checkAll context.oracle scope args).result.map (·.1.value.span) =
      (args.map Argument.value).map Expr.span := by
    simp [Argument.checkAll_eq]
  rw [← hspans]
  exact Plan.places_giveEach

-- In each step by itself the complaints come in order.
theorem between_inclusionStep {id : Nat} {target : String} {args : List Argument} {span : Span}
    (hrow : Template.Item.InRow good lo hi [.inclusion id target args span])
    (htimely : ∀ arg ∈ args, ∀ part ∈ arg.value.parts, part.Timely context.oracle scope) :
    ∀ step ∈ inclusionSteps context scope target args span, Between lo hi step := by
  obtain ⟨-, hlo, hargs, hnested⟩ := hrow.inclusion
  have hhi : span.start ≤ hi := (Nat.le_succ _).trans hargs.le
  have hmade : Between lo hi (Argument.checkAll context.oracle scope args).complaints := by
    rw [complaints_arguments]
    refine (Expr.between_checkAll hargs fun e he => ?_).widen (by omega) (Nat.le_refl _)
    obtain ⟨arg, harg, rfl⟩ := List.mem_map.mp he
    obtain ⟨-, -, hne, -⟩ := hargs.of_mem (List.mem_map_of_mem he)
    exact arg.value.between_check hne (hnested arg harg) (htimely arg harg)
  unfold inclusionSteps
  cases context.schemas target with
  | none =>
    have hunknown : Between lo hi [⟨.unknownTemplate target, span⟩] :=
      .of_place hlo hhi (by simp)
    exact List.forall_mem_cons.mpr ⟨hmade, List.forall_mem_singleton.mpr hunknown⟩
  | some schema =>
    have hgiven : Between lo hi (Plan.giveEach target schema
        (Argument.checkAll context.oracle scope args).result.length 0 false
        (List.replicate schema.size none)
        (Argument.checkAll context.oracle scope args).result).complaints :=
      (Between.of_row hargs (places_giveEach args)).widen (by omega) (Nat.le_refl _)
    refine List.forall_mem_cons.mpr ⟨hmade, List.forall_mem_cons.mpr ⟨hgiven, ?_⟩⟩
    rw [List.forall_mem_singleton]
    exact .of_place hlo hhi fun c hc => Plan.places_requireAll _ (List.mem_map_of_mem hc)

end Node

section Bodies

variable {good : Nat → Prop} {lo hi : Nat} {context : CheckContext} {t : Template}

-- Where the check of a template comes to, no complaint comes before an earlier one.
def Pending.Timely (context : CheckContext) (scope : Scope) : Pending → Prop
  | .expr e => e.Timely context.oracle scope
  | .nodes (.inclusion _ target args span :: _) =>
    (Node.inclusionSteps context scope target args span).Pairwise Clear
  | .nodes _ => True

def Template.Timely (context : CheckContext) (t : Template) : Prop :=
  ∀ scope said pending, t.Reaches context scope said pending → pending.Timely context scope

namespace Template

theorem Timely.parts (ht : t.Timely context) {scope : Scope} {said : List Complaint} {e : Expr}
    (h : t.Reaches context scope said (.expr e)) :
    ∀ part ∈ e.parts, part.Timely context.oracle scope := by
  intro part hpart
  obtain ⟨said', hreached⟩ := exists_reaches_of_part e h part hpart
  exact ht scope said' (.expr part) hreached

-- A part of a row that holds one expression.
theorem Timely.between_root (ht : t.Timely context) {scope : Scope} {said : List Complaint}
    {e : Expr} {item : Item} {β : Type} {c : Check β} (h : t.Reaches context scope said (.expr e))
    (hjudged : e.Judged context.oracle scope c) (hitem : item.exprs = [e])
    (hrow : Item.InRow good lo hi [item]) : Between lo hi c.complaints := by
  obtain ⟨⟨-, hle, hne, hstop⟩, hnested⟩ := hrow.expr hitem
  have hchecked := e.between_check hne hnested (ht.parts h)
  exact (hjudged.between hne hchecked).widen hle hstop

mutual

-- Where all is timely the complaints of a row of nodes come in order.
theorem Timely.between_node (ht : t.Timely context) : ∀ (node : Node) {lo hi : Nat} {scope : Scope}
    {said : List Complaint} {nodes : List Node},
    t.Reaches context scope said (.nodes (node :: nodes)) → Item.InRow good lo hi node.items →
      Between lo hi (node.check context scope).complaints
  | .text content span, lo, hi, scope, said, nodes, h, hrow => .nil hrow.row.le
  | .interpolation raw value span, lo, hi, scope, said, nodes, h, hrow => by
    have hchecked := ht.between_root (.shown h) value.judged_checkShown rfl hrow
    simpa [Node.check] using hchecked
  | .conditional arms none span, lo, hi, scope, said, nodes, h, hrow => by
    obtain ⟨mid, harms, hclose⟩ := hrow.conditional
    have hchecked := between_arms ht arms [] h (fun _ => rfl) harms
    rw [Node.complaints_conditional]
    exact hchecked.append (.nil hclose.row.le)
  | .conditional arms (some otherwise) span, lo, hi, scope, said, nodes, h, hrow => by
    obtain ⟨mid, harms, hotherwise⟩ := hrow.conditional
    have hchecked := between_arms ht arms [] h (fun _ => rfl) harms
    have hlast := between_nodes ht otherwise (.otherwise h) hotherwise
    rw [Node.complaints_conditional]
    exact hchecked.append hlast
  | .loop element index iterable body none span, lo, hi, scope, said, nodes, h, hrow => by
    obtain ⟨mid, last, hheader, hbody, hclose⟩ := hrow.loop
    have hchecked := ht.between_root (.iterable h) iterable.judged_checkIterable rfl hheader
    have hinside := between_nodes ht body (.inside h) hbody
    rw [Node.complaints_loop]
    exact hchecked.append (hinside.append (.nil hclose.row.le))
  | .loop element index iterable body (some otherwise) span, lo, hi, scope, said, nodes, h,
    hrow => by
    obtain ⟨mid, last, hheader, hbody, hotherwise⟩ := hrow.loop
    have hchecked := ht.between_root (.iterable h) iterable.judged_checkIterable rfl hheader
    have hinside := between_nodes ht body (.inside h) hbody
    have hlast := between_nodes ht otherwise (.empty h) hotherwise
    rw [Node.complaints_loop]
    exact hchecked.append (hinside.append hlast)
  | .inclusion id target args span, lo, hi, scope, said, nodes, h, hrow => by
    rw [Node.complaints_inclusion]
    refine .flatten hrow.row.le (Node.between_inclusionStep hrow fun arg harg => ?_) (ht _ _ _ h)
    obtain ⟨done, rest, rfl⟩ := List.append_of_mem harg
    exact ht.parts (.argument h)

theorem Timely.between_nodes (ht : t.Timely context) : ∀ (nodes : List Node) {lo hi : Nat}
    {scope : Scope} {said : List Complaint}, t.Reaches context scope said (.nodes nodes) →
      Item.InRow good lo hi (Node.itemsOfAll nodes) →
        Between lo hi (Node.checkAll context scope nodes).complaints
  | [], lo, hi, scope, said, h, hrow => .nil hrow.row.le
  | node :: nodes, lo, hi, scope, said, h, hrow => by
    obtain ⟨mid, hfirst, hrest⟩ := hrow.exists_of_append
    rw [Node.complaints_cons]
    exact (between_node ht node h hfirst).append (between_nodes ht nodes (.next h) hrest)

theorem Timely.between_arms (ht : t.Timely context) : ∀ (arms done : List Arm) {lo hi : Nat}
    {scope : Scope} {said : List Complaint} {opener : Expr → Item}
    {otherwise : Option (List Node)} {span : Span} {nodes : List Node},
    t.Reaches context scope said (.nodes (.conditional (done ++ arms) otherwise span :: nodes)) →
      (∀ test, (opener test).exprs = [test]) →
        Item.InRow good lo hi (Node.itemsOfArms opener arms) →
          Between lo hi (Arm.checkAll context scope arms).complaints
  | [], done, lo, hi, scope, said, opener, otherwise, span, nodes, h, hopener, hrow =>
    .nil hrow.row.le
  | .mk test body :: arms, done, lo, hi, scope, said, opener, otherwise, span, nodes, h, hopener,
    hrow => by
    obtain ⟨mid, hblock, hrest⟩ := hrow.exists_of_append
    obtain ⟨first, htest, hbody⟩ := hblock.exists_of_cons
    have hchecked := ht.between_root (.test h) test.judged_checkCondition (hopener test) htest
    have hinside := between_nodes ht body (.arm h) hbody
    rw [List.append_cons] at h
    have hlast := between_arms ht arms _ h (fun _ => rfl) hrest
    rw [Arm.complaints_cons]
    exact hchecked.append (hinside.append hlast)

end

end Template

end Bodies

section Header

variable {good : Nat → Prop} {lo hi : Nat} {oracle : Oracle}

-- The complaints about declarations come in the order of the declarations.
theorem ParamDecl.between_checkAll {schema : Schema} {scope : Scope} {decls : List ParamDecl}
    (h : Template.ParamsInRow good lo hi decls) :
    Between lo hi (ParamDecl.checkAll oracle schema scope decls).complaints := by
  induction decls generalizing lo schema scope with
  | nil => exact .nil h.row
  | cons decl decls ih =>
    obtain ⟨⟨hgood, hle, hne, hrow⟩, hdefaults⟩ := h
    obtain ⟨hdefault, hdefaults⟩ := List.forall_mem_cons.mp hdefaults
    have hfirst : Between decl.span.start decl.span.stop
        (decl.check oracle schema scope).complaints := by
      rcases decl.places_check schema scope with hplaces | ⟨e, he, hplaces⟩
      · have hspan : Row good decl.span.start decl.span.stop [decl.span] :=
          .singleton hgood (Nat.le_refl _) hne (Nat.le_refl _)
        exact .of_row hspan hplaces
      · exact .of_row (hdefault e he) hplaces
    exact (hfirst.widen hle (Nat.le_refl _)).append (ih ⟨hrow, hdefaults⟩)

end Header

namespace Template

variable {good : Nat → Prop} {lo hi : Nat} {context : CheckContext} {t : Template}

theorem between_header (oracle : Oracle) (h : ParamsInRow good lo hi t.params) :
    Between lo hi (t.checkHeader oracle).complaints := ParamDecl.between_checkAll h

theorem Timely.between_check (h : t.Timely context) (hrow : t.InRow good) :
    ∃ lo hi, Between lo hi (t.check context).complaints := by
  obtain ⟨lo, mid, hi, hparams, hbody⟩ := hrow
  have hheader := between_header context.oracle hparams
  have hnodes := h.between_nodes t.body .body hbody
  exact ⟨lo, hi, by simpa [check] using hheader.append hnodes⟩

end Template

end Stencil
