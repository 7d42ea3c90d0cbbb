import Stencil.Proofs.Meaning.Constants
import Stencil.Proofs.Meaning.Preservation
import Stencil.Proofs.Output.Entities
import Stencil.Proofs.Template.Integers

/-!
Integers from the source to the output. One that is a word is shown in its canonical form, in a body
and as a default alike, and any other is refused when the source is read.
-/

namespace Stencil

open Run

variable {ρ κ ω : Type}

-- A render that came to its end and appended a text.
structure Rendering.Appends (r : Rendering ρ ω) (sink : Sink) (text : String) : Prop where
  finished : r.outcome = .ok ()
  appended : r.sink.toBytes = sink.toBytes ++ Text.encode text

-- Whatever its template is called and could include, a source compiles, and its program appends the
-- text for each model whose root record is without the given fields.
def Prints (source : String) (absent : List String) (text : String) : Prop :=
  ∀ (name : String) (trimLines : Bool) (context : CheckContext) (mode : Mode),
    ∃ t p, NamedTemplate.parse name source trimLines = .ok t ∧ t.compile context mode = .ok p ∧
      ∀ {ρ κ ω : Type} [DecidableEq ρ] (linker : Linker κ ω) (self : κ) (model : Model ρ)
        (root : ρ) (sink : Sink) (links : ω), linker.program self = p → sink.mode = mode →
          (∀ x ∈ absent, ∀ asked, model.field asked root x = none) →
            (render linker self model root sink links).Appends sink text

-- A source that is refused for a defect in it.
def RefusedSource (source : String) (defect : Defect) : Prop :=
  ∀ (name : String) (trimLines : Bool), ∃ offset, NamedTemplate.parse name source trimLines =
    .error (.parse name (SyntaxError.ofFault source ⟨defect, offset⟩))

theorem minus_or_digit_of_mem_toString {v : Int} {c : Char} (hc : c ∈ (toString v).toList) :
    c = '-' ∨ c.isDigit := by
  have hdigit {n : Nat} (h : c ∈ n.repr.toList) : c.isDigit := by
    rw [Nat.toList_repr] at h
    exact Nat.isDigit_of_mem_toDigits (by decide) (by decide) h
  rw [Int.toString_eq_repr, Int.repr_eq_if] at hc
  split at hc
  · exact .inr (hdigit hc)
  · rw [String.toList_append, List.mem_append] at hc
    exact hc.imp List.mem_singleton.1 hdigit

theorem Text.not_replaced_of_digit {c : Char} (h : c.isDigit) : entity? c = none := by
  have hnone : replaced.any Char.isDigit = false := by decide
  refine Option.eq_none_iff_forall_ne_some.2 fun e he => ?_
  exact List.any_eq_false.1 hnone c (mem_replaced_of_entity he) h

-- Nothing in an integer is escaped.
theorem ContentType.treat_toString (contentType : ContentType) (v : Int) :
    contentType.treat (toString v) = toString v := by
  cases contentType with
  | plain => rfl
  | html =>
    refine Text.escapeMarkup_of_plain fun c hc => ?_
    rcases minus_or_digit_of_mem_toString hc with rfl | hdigit
    · rfl
    · exact Text.not_replaced_of_digit hdigit

theorem Sink.toBytes_appendAll_escaped (sink : Sink) (text : String) :
    (sink.appendAll [.escaped text]).toBytes =
      sink.toBytes ++ Text.encode (sink.contentType.treat text) := by
  cases sink with
  | text s =>
    rw [appendAll, toBytes, Text.encode_append]
    simp [String.join, Piece.text]
    rfl
  | bytes s =>
    rw [appendAll, toBytes, List.flatMap_singleton, Piece.bytes, ContentType.encode_pieces]
    rfl

namespace Program

variable [DecidableEq ρ] {model : Model ρ} {f : Formula} {values : List (Value ρ)} {w : Int64}

-- A body that is one interpolation emits one piece.
theorem exec_run_escaped {p : Program} (hbody : p.body = [.escaped f])
    (heval : f.eval model (p.frame values) = pure (.int w)) (opener : Opener ρ ω)
    (e : Effects ρ ω) :
    exec (p.run model opener values) e =
      (.ok (), { e with pieces := e.pieces.push (.escaped (toString w.toInt)) }) := by
  rw [run, hbody, Op.runAll, Op.run, heval]
  rfl

theorem appends_of_escaped {linker : Linker κ ω} {self : κ} {root : ρ} {sink : Sink} {p : Program}
    {requests : Array (Request ρ)} (hself : linker.program self = p) (hmode : sink.mode = p.mode)
    (hbody : p.body = [.escaped f])
    (hread : (readParams model root p.schema.params).run #[] = (.ok values, requests))
    (heval : f.eval model (p.frame values) = pure (.int w)) (links : ω) :
    (render linker self model root sink links).Appends sink (toString w.toInt) := by
  subst hself
  have hexec : exec (linker.run self model root) (.start links) =
      (.ok (), ⟨requests, #[.escaped (toString w.toInt)], links⟩) := by
    rw [Linker.run, exec_bind, exec_ofEval, Effects.start]
    dsimp only
    rw [hread]
    dsimp only
    rw [exec_run_escaped hbody heval]
    rfl
  have hbytes : (sink.appendAll [.escaped (toString w.toInt)]).toBytes =
      sink.toBytes ++ Text.encode (toString w.toInt) := by
    rw [sink.toBytes_appendAll_escaped, ContentType.treat_toString]
  rw [render_of_mode hmode.symm, hexec]
  exact ⟨rfl, hbytes⟩

end Program

-- Behind these declarations, the expression evaluates to the integer, if the root record is without
-- the given fields.
def ParamDecl.Gives (params : List ParamDecl) (absent : List String) (e : Expr) (w : Int64) :
    Prop :=
  ∀ oracle, ∃ schema scope term, ParamDecl.checkAll oracle .empty [] params = pure (schema, scope) ∧
    e.checkShown oracle scope = pure (some term) ∧
    ∀ {ρ : Type} [DecidableEq ρ] (model : Model ρ) (root : ρ),
      (∀ x ∈ absent, ∀ asked, model.field asked root x = none) →
        ∃ values requests, (readParams model root schema.params).run #[] = (.ok values, requests) ∧
          ∀ pad, term.formula.eval model (values ++ pad) = pure (.int w)

theorem Template.bind_of_shown {context : CheckContext} {params : List ParamDecl} {e : Expr}
    {schema : Schema} {scope : Scope} {term : Term}
    (hheader : ParamDecl.checkAll context.oracle .empty [] params = pure (schema, scope))
    (hshown : e.checkShown context.oracle scope = pure (some term)) (span : Span) (n : Nat)
    (source : String) :
    Template.bind context source ⟨params, [.interpolation false e span], n⟩ =
      .ok ⟨schema, [.interpolation false term]⟩ := by
  have hnode : Node.check context scope (.interpolation false e span) =
      pure (some (.interpolation false term)) := by
    rw [Node.check]
    exact Check.bind_eq_pure.mpr ⟨_, hshown, rfl⟩
  have hbody : Node.checkAll context scope [.interpolation false e span] =
      pure (some [.interpolation false term]) := by
    rw [Node.checkAll, Node.checkAll]
    exact Check.bind_eq_pure.mpr ⟨_, hnode, rfl⟩
  have hcheck : Template.check context ⟨params, [.interpolation false e span], n⟩ =
      pure (some ⟨schema, [.interpolation false term]⟩) := by
    unfold Template.check
    exact Check.bind_eq_pure.mpr ⟨_, hheader, Check.bind_eq_pure.mpr ⟨_, hbody, rfl⟩⟩
  rw [Template.bind, hcheck]
  rfl

theorem prints_of_gives {source : String} {absent : List String} {w : Int64}
    (h : ∀ trimLines, ∃ params e span n,
      Template.parse source trimLines = .ok ⟨params, [.interpolation false e span], n⟩ ∧
        ParamDecl.Gives params absent e w) :
    Prints source absent (toString w.toInt) := by
  intro name trimLines context mode
  obtain ⟨params, e, span, n, hparse, hgives⟩ := h trimLines
  obtain ⟨schema, scope, term, hheader, hshown, hread⟩ := hgives context.oracle
  refine ⟨⟨name, source, ⟨params, [.interpolation false e span], n⟩⟩,
    CheckedTemplate.program ⟨schema, [.interpolation false term]⟩ name mode, ?_, ?_, ?_⟩
  · rw [NamedTemplate.parse, hparse]
  · unfold NamedTemplate.compile NamedTemplate.check
    rw [Template.bind_of_shown hheader hshown]
    rfl
  · intro ρ κ ω _ linker self model root sink links hself hmode habsent
    obtain ⟨values, requests, hvalues, heval⟩ := hread model root habsent
    exact Program.appends_of_escaped hself hmode rfl hvalues (heval _) links

theorem Expr.checkShown_of_check {oracle : Oracle} {scope : Scope} {e : Expr} {t : Term}
    (h : e.check oracle scope = pure (some t)) (hshown : t.type.isRenderable = true) :
    e.checkShown oracle scope = pure (some t) := by
  refine Check.bind_eq_pure.mpr ⟨some t, h, ?_⟩
  simp only [hshown, if_true]

namespace ParamDecl

variable {e : Expr} {w : Int64}

-- The constant itself.
theorem gives_of_constant (h : e.constant? = some (.literal (.int w))) : Gives [] [] e w := by
  intro oracle
  have hagrees : e.AgreesWith oracle [] (.literal (.int w)) := Expr.agreesWith_of_constant h
  obtain ⟨t, ht, htype, -, heval⟩ := hagrees.typed .int rfl
  refine ⟨.empty, [], t, rfl, Expr.checkShown_of_check ht (by rw [htype]; rfl), ?_⟩
  intro ρ _ model root _
  exact ⟨[], #[], rfl, fun pad => heval model _⟩

-- A parameter whose default is the constant.
theorem gives_of_default (h : e.constant? = some (.literal (.int w))) (x : String) (m : Mark)
    (span : Span) : Gives [⟨x, .named "int", some e, span⟩] [x] (.name m x) w := by
  intro oracle
  let p : Parameter := ⟨x, .int, some (.literal (.int w))⟩
  have hdefault : e.checkDefault x .int = pure (some (.literal (.int w))) := by
    rw [Expr.checkDefault, h]
    rfl
  have hdecl : ParamDecl.check oracle .empty [] ⟨x, .named "int", some e, span⟩ =
      pure (⟨[p]⟩, [⟨x, some .int⟩]) := by
    unfold ParamDecl.check
    exact Check.bind_eq_pure.mpr ⟨some .int, rfl, Check.bind_eq_pure.mpr ⟨_, hdefault, rfl⟩⟩
  have hname : (Expr.name m x).check oracle [⟨x, some .int⟩] =
      pure (some (.slot ⟨m.id, .int⟩ 0)) := by
    rw [Expr.check, Scope.find?, if_pos rfl]
    rfl
  refine ⟨⟨[p]⟩, [⟨x, some .int⟩], .slot ⟨m.id, .int⟩ 0, ?_, ?_, ?_⟩
  · rw [ParamDecl.checkAll]
    exact Check.bind_eq_pure.mpr ⟨_, hdecl, rfl⟩
  · exact Expr.checkShown_of_check hname rfl
  · intro ρ _ model root habsent
    have hread : p.read model 0 root = .ok (.int w) := by
      rw [Parameter.read, habsent x List.mem_cons_self 0]
      rfl
    refine ⟨[.int w], #[.field root x], ?_, fun pad => ?_⟩
    · rw [readParams_cons]
      simp only [List.size_toArray, List.length_nil, hread]
      rfl
    · rw [Term.formula, Formula.eval]
      rfl

end ParamDecl

open Code Template

section Sources

variable {cs ds : List Char} {v : Int} {x : String}

theorem prints_integer (h : Integer cs ds v) (hv : Number.IsWord v) :
    Prints (String.ofList (interpolated cs)) [] (toString v) := by
  obtain ⟨w, rfl⟩ := Number.exists_word hv
  refine prints_of_gives fun trimLines => ?_
  obtain ⟨e, span, n, hparse, w', hw', he⟩ := parse_integer h hv trimLines
  obtain rfl := Int64.toInt_inj.1 hw'
  exact ⟨[], e, span, n, hparse, ParamDecl.gives_of_constant he⟩

theorem prints_default_integer (hx : Identifier x.toList) (hfree : x ∉ ["true", "false", "null"])
    (h : Integer cs ds v) (hv : Number.IsWord v) :
    Prints (String.ofList (defaultShown x cs)) [x] (toString v) := by
  obtain ⟨w, rfl⟩ := Number.exists_word hv
  refine prints_of_gives fun trimLines => ?_
  obtain ⟨e, m, span, span', n, hparse, w', hw', he⟩ := parse_default_integer hx hfree h hv trimLines
  obtain rfl := Int64.toInt_inj.1 hw'
  exact ⟨_, .name m x, span', n, hparse, ParamDecl.gives_of_default he x m span⟩

theorem refusedSource_of_parse {source : String} {defect : Defect}
    (h : ∀ trimLines, ∃ offset, Template.parse source trimLines =
      .error (SyntaxError.ofFault source ⟨defect, offset⟩)) : RefusedSource source defect := by
  intro name trimLines
  obtain ⟨offset, hparse⟩ := h trimLines
  exact ⟨offset, by rw [NamedTemplate.parse, hparse]⟩

end Sources

-- In these sources, the digits are shown as what they denote or are refused, and so they are with a
-- minus sign in front of them, which goes one further.
def ExactIn (source : String → String) (absent : List String) (d : String) : Prop :=
  let n : Nat := Nat.ofDigitChars 10 d.toList 0
  (if n ≤ 2 ^ 63 - 1 then Prints (source d) absent (toString n)
    else RefusedSource (source d) (.invalidNumber d)) ∧
  (if n ≤ 2 ^ 63 then Prints (source ("-" ++ d)) absent (toString (-(n : Int)))
    else RefusedSource (source ("-" ++ d)) (.invalidNumber d))

theorem exactIn_of_integers {source : String → String} {absent : List String}
    (hword : ∀ {cs ds v}, Integer cs ds v → Number.IsWord v →
      Prints (source (String.ofList cs)) absent (toString v))
    (hlarge : ∀ {cs ds v}, Integer cs ds v → ¬Number.IsWord v →
      RefusedSource (source (String.ofList cs)) (.invalidNumber (String.ofList ds)))
    {d : String} (hd : d.toList ≠ [] ∧ ∀ c ∈ d.toList, c.isDigit) : ExactIn source absent d := by
  have hplain : Integer d.toList d.toList (digitsValue d.toList) := .plain hd
  have hminus : Integer ('-' :: d.toList) d.toList (-digitsValue d.toList) := .minus hd
  have hsigned : "-" ++ d = String.ofList ('-' :: d.toList) := by
    rw [← String.toList_inj]
    simp
  have hvalue : Nat.ofDigitChars 10 d.toList 0 = digitsValue d.toList := rfl
  rw [ExactIn, hvalue, hsigned]
  constructor
  · split
    · next hfits =>
      have hv : Number.IsWord (digitsValue d.toList) := Number.isWord_iff_bounds.2 (by omega)
      have hprints := hword hplain hv
      rwa [String.ofList_toList] at hprints
    · next hfits =>
      have hv : ¬Number.IsWord (digitsValue d.toList) := by
        rw [Number.isWord_iff_bounds]
        omega
      have hrefused := hlarge hplain hv
      rwa [String.ofList_toList] at hrefused
  · split
    · next hfits => exact hword hminus (Number.isWord_iff_bounds.2 (by omega))
    · next hfits =>
      have hv : ¬Number.IsWord (-digitsValue d.toList) := by
        rw [Number.isWord_iff_bounds]
        omega
      have hrefused := hlarge hminus hv
      rwa [String.ofList_toList] at hrefused

-- Integer literals are exact from the source to the output, where they are shown themselves and
-- where they are the default of a parameter that is left out.
theorem integer_literals_exact (d : String) (hne : d ≠ "") (hdigits : ∀ c ∈ d.toList, c.isDigit) :
    ExactIn (fun literal => "$\x7b" ++ literal ++ "\x7d") [] d ∧
    ∀ x : String, Identifier x.toList → x ∉ ["true", "false", "null"] →
      ExactIn (fun literal =>
        "@param int " ++ x ++ " = " ++ literal ++ "\n$\x7b" ++ x ++ "\x7d") [x] d := by
  have hd : d.toList ≠ [] ∧ ∀ c ∈ d.toList, c.isDigit :=
    ⟨fun hnil => hne (String.toList_eq_nil_iff.1 hnil), hdigits⟩
  have hshown (cs : List Char) : "$\x7b" ++ String.ofList cs ++ "\x7d" =
      String.ofList (interpolated cs) := by
    rw [← String.toList_inj]
    simp [interpolated]
  have hdefault (x : String) (cs : List Char) :
      "@param int " ++ x ++ " = " ++ String.ofList cs ++ "\n$\x7b" ++ x ++ "\x7d" =
        String.ofList (defaultShown x cs) := by
    rw [← String.toList_inj]
    simp [defaultShown, declLine, Ty.defaulting, Ty.declaring, Ty.name, interpolated]
  refine ⟨exactIn_of_integers (fun h hv => ?_) (fun h hv => ?_) hd, fun x hx hfree =>
    exactIn_of_integers (fun h hv => ?_) (fun h hv => ?_) hd⟩
  · rw [hshown]
    exact prints_integer h hv
  · rw [hshown]
    exact refusedSource_of_parse (parse_large_integer h hv)
  · rw [hdefault]
    exact prints_default_integer hx hfree h hv
  · rw [hdefault]
    exact refusedSource_of_parse (parse_large_default hx h hv)

-- The least word can only be written with its sign.
theorem integer_literals_exact_least :
    RefusedSource "$\x7b9223372036854775808\x7d" (.invalidNumber "9223372036854775808") ∧
    Prints "$\x7b-9223372036854775808\x7d" [] "-9223372036854775808" ∧
    RefusedSource "@param int n = 9223372036854775808\n$\x7bn\x7d"
      (.invalidNumber "9223372036854775808") ∧
    ∃ p, compileInline "@param int n = -9223372036854775808\n$\x7bn\x7d" .text = .ok p ∧
      (render unlinked p (.ofFields fun _ _ => none) () (.empty .text .html) ()).Appends
        (.empty .text .html) "-9223372036854775808" := by
  have hx : Identifier "n".toList := .mk (by decide) (by simp)
  have hdigits : "9223372036854775808".toList.all Char.isDigit = true := by decide
  have hvalue : Nat.ofDigitChars 10 "9223372036854775808".toList 0 = 2 ^ 63 := by decide
  obtain ⟨hshown, hdefault⟩ :=
    integer_literals_exact "9223372036854775808" (by decide) (List.all_eq_true.1 hdigits)
  obtain ⟨hplain, hminus⟩ := hshown
  obtain ⟨hplaindefault, hminusdefault⟩ := hdefault "n" hx (by decide)
  rw [hvalue] at hplain hminus hplaindefault hminusdefault
  rw [if_neg (by decide)] at hplain hplaindefault
  rw [if_pos (by decide)] at hminus hminusdefault
  refine ⟨hplain, hminus, hplaindefault, ?_⟩
  obtain ⟨t, p, hparse, hcompile, hrender⟩ := hminusdefault "<inline>" true .bare .text
  refine ⟨p, ?_, hrender unlinked p _ () _ () rfl rfl fun _ _ _ => rfl⟩
  exact (congrArg (·.bind fun t => t.compile .bare .text) hparse).trans hcompile

end Stencil
