import Stencil.Proofs.Template.HeaderLines
import Stencil.Proofs.Type.Texts
import Stencil.Proofs.Typing.Declared

/-!
Types in the lines that declare parameters. A type that is written there by its name is read and
stands for itself, if all its records are known and its lists are not too deep.
-/

namespace Stencil

open Code

namespace Ty

-- How many lists stand one inside the other.
def levels : Ty → Nat
  | list element => element.levels + 1
  | _ => 0

-- The type as it is written.
def expr : Ty → TypeExpr
  | list element => .list element.expr
  | t => .named t.name

def words : Ty → List Word
  | list element => .ident "list" :: .symbol .less :: (element.words ++ [.symbol .greater])
  | t => [.ident t.name]

theorem exists_first_word (t : Ty) : ∃ name ws, t.words = .ident name :: ws := by
  cases t with
  | list element => exact ⟨_, _, rfl⟩
  | _ => exact ⟨_, [], rfl⟩

theorem name_ne_list {t : Ty} (ht : t.Writable) (hsimple : ∀ element, t ≠ list element) :
    t.name ≠ "list" := by
  cases t with
  | list element => exact absurd rfl (hsimple element)
  | null => exact ht.elim
  | record name =>
    rintro rfl
    exact ht.2 (by simp)
  | _ => decide

theorem exists_name_cons {t : Ty} (ht : t.Writable) :
    ∃ c cs, t.name.toList = c :: cs ∧ isIdentStart c := by
  have hword (h : Identifier t.name.toList) : ∃ c cs, t.name.toList = c :: cs ∧ isIdentStart c := by
    generalize t.name.toList = name at h
    obtain ⟨hstart, -⟩ := h
    exact ⟨_, _, rfl, hstart⟩
  cases t with
  | list element => exact ⟨'l', _, name_list element, by decide⟩
  | _ => exact hword (identifier_name ht (by simp))

end Ty

namespace Code

-- Neither a name nor a symbol in front of this goes on in it.
def Parted (rest : List Char) : Prop := ¬ rest.head?.any isIdentChar ∧ rest.head? ≠ some '='

theorem cutsOff_simple {t : Ty} (ht : t.Writable) (hsimple : ∀ element, t ≠ .list element)
    {rest : List Char} (hparted : Parted rest) : CutsOff t.name.toList [.ident t.name] rest :=
  (written_ident (Ty.identifier_name ht hsimple)).cutsOff hparted.1

-- The name of a type is cut into its words.
theorem cutsOff_name {t : Ty} (ht : t.Writable) {rest : List Char} (hparted : Parted rest) :
    CutsOff t.name.toList t.words rest := by
  induction t generalizing rest with
  | list element ih =>
    have hclose : CutsOff ['>'] [.symbol .greater] rest :=
      (Written.symbol .greater).cutsOff fun _ => hparted.2
    have helement : CutsOff element.name.toList element.words ('>' :: rest) :=
      ih ht ⟨by simp; decide, by simp⟩
    have hopen : CutsOff ['<'] [.symbol .less] (element.name.toList ++ '>' :: rest) := by
      refine (Written.symbol .less).cutsOff fun _ hequals => ?_
      obtain ⟨c, cs, hname, hstart⟩ := Ty.exists_name_cons (t := element) ht
      rw [hname] at hequals
      obtain rfl := Option.some.inj hequals
      exact absurd hstart (by decide)
    have hlist : CutsOff "list".toList [.ident "list"]
        (['<'] ++ (element.name.toList ++ '>' :: rest)) :=
      (written_ident (Ty.isIdentifier_iff.1 (by rfl))).cutsOff (by simp [Free]; decide)
    rw [Ty.name_list]
    exact ((hlist.append hopen).append helement).append hclose
  | _ => exact cutsOff_simple ht (by simp) hparted

open Reader

variable {deeper : Reader TypeExpr} {rest : List Placed}

theorem reads_typeOver_named {name : String} (hname : name ≠ "list") :
    Reads (typeOver deeper) [.ident name] rest (· = .named name) := by
  refine .bind_last reads_expectIdent fun ⟨found, place⟩ hfound => ?_
  obtain rfl : found = name := hfound
  simp only [if_neg hname]
  exact .pure rfl

theorem reads_typeOver_list {ws : List Word} {element : TypeExpr}
    (h : ∀ rest, Reads deeper ws rest (· = element)) :
    Reads (typeOver deeper) (.ident "list" :: .symbol .less :: (ws ++ [.symbol .greater])) rest
      (· = .list element) := by
  refine .bind_word (fun _ _ => reads_expectIdent) fun ⟨found, place⟩ hfound => ?_
  obtain rfl : found = "list" := hfound
  simp only [if_true]
  refine .bind_word (fun _ _ => reads_accept) fun accepted haccepted => ?_
  rw [if_pos haccepted]
  refine .bind (fun _ _ => h _) fun found hfound => ?_
  subst hfound
  exact .bind_last reads_expect fun _ _ => .pure rfl

theorem typeAt_eq (depth : Nat) : ∃ deeper, typeAt depth = typeOver deeper := by
  cases depth with
  | zero => exact ⟨_, rfl⟩
  | succ depth => exact ⟨_, rfl⟩

-- Each level of lists takes one of the levels that are left.
theorem reads_typeAt {t : Ty} (ht : t.Writable) {depth : Nat} (hdepth : t.levels ≤ depth)
    (rest : List Placed) : Reads (typeAt depth) t.words rest (· = t.expr) := by
  induction t generalizing depth rest with
  | list element ih =>
    obtain ⟨depth, rfl⟩ := Nat.exists_eq_add_of_le hdepth
    have hdeeper : element.levels ≤ element.levels + depth := Nat.le_add_right _ _
    rw [Ty.levels, Nat.add_right_comm]
    exact reads_typeOver_list fun rest => ih ht hdeeper rest
  | _ =>
    obtain ⟨deeper, hdeeper⟩ := typeAt_eq depth
    rw [hdeeper]
    exact reads_typeOver_named (Ty.name_ne_list ht (by simp))

-- What is read of a declaration behind its name.
def behindName (x : String) (type : TypeExpr) (span : Span) : Reader ParamDecl := do
  let default ←
    if ← accept .assign then
      ensureNotEmpty
      some <$> expression
    else pure none
  if (← next?).isSome then fail .invalidParam
  return ⟨x, type, default, span⟩

theorem run_nextIdent? {t : Placed} {name : String} (ht : t.token.word = .ident name)
    (ts : List Placed) (stop n : Nat) :
    nextIdent?.run ⟨t :: ts, stop, n⟩ = .ok (some name, ⟨t :: ts, stop, n⟩) := by
  obtain ⟨token, span⟩ := t
  obtain rfl := eq_ident_of_word ht
  rfl

-- The type and the name of a declaration are read first.
theorem run_paramDecl {t : Ty} (ht : t.Writable) (hlevels : t.levels ≤ maxNesting) {x : String}
    {head : List Placed} (hhead : words head = t.words ++ [.ident x]) (span : Span)
    (rest : List Placed) (stop n : Nat) :
    ∃ n', (paramDecl span).run ⟨head ++ rest, stop, n⟩ =
      (behindName x t.expr span).run ⟨rest, stop, n'⟩ := by
  obtain ⟨type, last, rfl, htype, hlast⟩ := List.map_eq_append_iff.1 hhead
  obtain ⟨place, last, rfl, hplace, hnil⟩ := List.map_eq_cons_iff.1 hlast
  obtain rfl := List.map_eq_nil_iff.1 hnil
  obtain ⟨found, n', hread, rfl⟩ := reads_typeAt ht hlevels ([place] ++ rest) type stop n htype
  obtain ⟨name, ws, hwords⟩ := t.exists_first_word
  obtain ⟨first, more, rfl, hfirst, -⟩ := List.map_eq_cons_iff.1 (htype.trans hwords)
  refine ⟨n', ?_⟩
  have htypes : typeExpression.run ⟨first :: (more ++ place :: rest), stop, n⟩ =
      .ok (t.expr, ⟨place :: rest, stop, n'⟩) := hread
  have hskip : skip.run ⟨place :: rest, stop, n'⟩ = .ok ((), ⟨rest, stop, n'⟩) := rfl
  rw [paramDecl, List.append_assoc, List.cons_append, run_bind_of_ok (run_nextIdent? hfirst _ _ _)]
  simp only [Option.isNone_some, Bool.false_eq_true, if_false, List.singleton_append]
  rw [run_bind_of_ok htypes, run_bind_of_ok (run_nextIdent? hplace _ _ _)]
  exact run_bind_of_ok hskip

-- Behind a name at the end there is no default.
theorem runOn_paramDecl {t : Ty} (ht : t.Writable) (hlevels : t.levels ≤ maxNesting) {x : String}
    {code : List Char} {start : Nat} {ts : List Placed} (hcut : tokens start code = .ok ts)
    (hts : words ts = t.words ++ [.ident x]) (span : Span) (n : Nat) :
    ∃ n', (paramDecl span).runOn ⟨start, code⟩ n = .ok (⟨x, t.expr, none, span⟩, n') := by
  obtain ⟨n', hrun⟩ := run_paramDecl ht hlevels hts span [] (Slice.stop ⟨start, code⟩) n
  rw [List.append_nil] at hrun
  refine ⟨n', ?_⟩
  rw [runOn_eq_bind, hcut]
  simp only [Except.bind]
  rw [hrun]
  rfl

-- Behind the sign of a default, an expression is read up to the end.
theorem run_behindName_assign {x : String} {type : TypeExpr} {span place : Span} {ts : List Placed}
    (hne : ts ≠ []) (stop n : Nat) :
    (behindName x type span).run ⟨⟨.symbol .assign, place⟩ :: ts, stop, n⟩ =
      (do
        let e ← expression
        if (← next?).isSome then fail .invalidParam
        return ⟨x, type, some e, span⟩ : Reader ParamDecl).run ⟨ts, stop, n⟩ := by
  have haccept : (accept .assign).run ⟨⟨.symbol .assign, place⟩ :: ts, stop, n⟩ =
      .ok (true, ⟨ts, stop, n⟩) := rfl
  rw [behindName, run_bind_of_ok haccept]
  simp only [if_true]
  rw [run_bind_of_ok (run_ensureNotEmpty hne stop n)]
  simp only [map_eq_pure_bind, bind_assoc, pure_bind]

end Code

namespace Ty

-- It stands for itself.
theorem denotes_expr {oracle : Oracle} {t : Ty} (ht : t.Writable)
    (hknown : ∀ name, t.recordName? = some name → oracle.hasType name) :
    t.expr.Denotes oracle t := by
  induction t with
  | list element ih => exact .list (ih ht hknown)
  | record name =>
    exact .record (fun hmem => ht.2 (List.mem_append_left ["list", "null"] hmem)) (hknown name rfl)
  | null => exact ht.elim
  | bool => exact .bool
  | int => exact .int
  | float => exact .float
  | text => exact .text

theorem not_isBlank_of_mem_name {t : Ty} (ht : t.Writable) {c : Char} (hc : c ∈ t.name.toList) :
    Text.isBlank c = false := by
  have hall := List.filter_eq_self.1 (filter_of_spelt ht t.spelt_name)
  simpa using hall c hc

-- The code of a declaration without a default.
def declaring (t : Ty) (x : String) : List Char := ' ' :: (t.name.toList ++ ' ' :: x.toList)

variable {t : Ty} {x : String}

theorem inLine_declaring (ht : t.Writable) (hx : Identifier x.toList) : InLine (t.declaring x) := by
  have hname : ∀ c ∈ x.toList, Text.isBlank c = false := fun c hc =>
    Text.not_isBlank_of_isIdentChar (isIdentChar_of_identifier hx c hc)
  have hbreak : Text.isBlank '\n' = true := by decide
  have hreturn : Text.isBlank '\r' = true := by decide
  constructor
  · rfl
  · simp only [declaring, List.mem_cons, List.mem_append, not_or]
    refine ⟨by decide, fun h => ?_, by decide, fun h => ?_⟩
    · simp [not_isBlank_of_mem_name ht h] at hbreak
    · simp [hname _ h] at hbreak
  · intro hlast
    have hne : x.toList ≠ [] := by
      rintro hnil
      rw [hnil] at hx
      cases hx
    have hmem : '\r' ∈ x.toList := by
      refine List.mem_of_getLast? ?_
      rw [← hlast, declaring, List.getLast?_cons_of_ne_nil (by simp),
        List.getLast?_append_of_ne_nil _ (by simp), List.getLast?_cons_of_ne_nil hne]
    simp [hname _ hmem] at hreturn

theorem cutsOff_declaring (ht : t.Writable) (hx : Identifier x.toList) {rest : List Char}
    (hrest : ¬ rest.head?.any isIdentChar) :
    CutsOff (t.declaring x) (t.words ++ [.ident x]) rest := by
  have hparted : Parted ((' ' :: x.toList) ++ rest) := ⟨by simp; decide, by simp⟩
  have htype : CutsOff (' ' :: t.name.toList) t.words ((' ' :: x.toList) ++ rest) :=
    (cutsOff_space _).append (cutsOff_name ht hparted)
  have hname : CutsOff (' ' :: x.toList) [.ident x] rest :=
    (cutsOff_space _).append ((written_ident hx).cutsOff hrest)
  exact htype.append hname

-- The declaration is read, wherever it stands.
theorem runOn_declaring (ht : t.Writable) (hlevels : t.levels ≤ maxNesting)
    (hx : Identifier x.toList) (start : Nat) (span : Span) (n : Nat) :
    ∃ n', (paramDecl span).runOn ⟨start, t.declaring x⟩ n =
      .ok (⟨x, t.expr, none, span⟩, n') := by
  have hoff : CutsOff (t.declaring x) (t.words ++ [.ident x]) [] :=
    cutsOff_declaring ht hx (by simp)
  obtain ⟨ts, hcut, hts⟩ := hoff.cutInto start
  exact runOn_paramDecl ht hlevels hcut hts span n

-- The code of a declaration with a default.
def defaulting (t : Ty) (x : String) (cs : List Char) : List Char :=
  t.declaring x ++ [' ', '=', ' '] ++ cs

theorem tokens_defaulting (ht : t.Writable) (hx : Identifier x.toList) (cs : List Char)
    (start : Nat) : ∃ head place stop, Code.words head = t.words ++ [.ident x] ∧
      tokens start (t.defaulting x cs) =
        (tokens stop cs).map (head ++ ⟨.symbol .assign, place⟩ :: ·) := by
  have hfree : Free (.symbol .assign) (' ' :: cs) := fun _ => by simp
  have hsign : CutsOff [' ', '=', ' '] [.symbol .assign] cs :=
    ((cutsOff_space _).append ((Written.symbol .assign).cutsOff hfree)).append
      (cutsOff_space cs)
  obtain ⟨head, stop, hwords, hcut⟩ :=
    ((cutsOff_declaring ht hx (by simp; decide)).append hsign) start
  obtain ⟨head, sign, rfl, hhead, hsign⟩ := List.map_eq_append_iff.1 hwords
  obtain ⟨place, rfl⟩ := eq_symbol_of_words hsign
  refine ⟨head, place, stop, hhead, ?_⟩
  simpa [defaulting] using hcut

-- The default is what is read behind the sign.
theorem runOn_of_readAs (ht : t.Writable) (hlevels : t.levels ≤ maxNesting)
    (hx : Identifier x.toList) {cs : List Char} {post : Expr → Prop} (h : ReadAs cs post)
    (start : Nat) (span : Span) (n : Nat) :
    ∃ e n', (paramDecl span).runOn ⟨start, t.defaulting x cs⟩ n =
      .ok (⟨x, t.expr, some e, span⟩, n') ∧ post e := by
  obtain ⟨head, place, stop, hwords, hcut⟩ := tokens_defaulting ht hx cs start
  obtain ⟨ts, hne, hdefault, hread⟩ := h stop
  let last : Nat := Slice.stop ⟨start, t.defaulting x cs⟩
  obtain ⟨m, hrun⟩ := run_paramDecl ht hlevels hwords span (⟨.symbol .assign, place⟩ :: ts) last n
  obtain ⟨e, n', hexpression, hpost⟩ := hread last m
  refine ⟨e, n', ?_, hpost⟩
  rw [runOn_eq_bind, hcut, hdefault]
  simp only [Except.map, Except.bind]
  rw [hrun, run_behindName_assign hne, run_bind_of_ok hexpression]
  rfl

theorem runOn_of_refusedFor (ht : t.Writable) (hlevels : t.levels ≤ maxNesting)
    (hx : Identifier x.toList) {cs : List Char} {defect : Defect} (h : RefusedFor cs defect)
    (start : Nat) (span : Span) (n : Nat) :
    ∃ offset, (paramDecl span).runOn ⟨start, t.defaulting x cs⟩ n = .error ⟨defect, offset⟩ := by
  obtain ⟨head, place, stop, hwords, hcut⟩ := tokens_defaulting ht hx cs start
  obtain ⟨offset, hdefault | ⟨ts, hne, hdefault, hread⟩⟩ := h stop
  · exact ⟨offset, by rw [runOn_eq_bind, hcut, hdefault]; rfl⟩
  · let last : Nat := Slice.stop ⟨start, t.defaulting x cs⟩
    obtain ⟨m, hrun⟩ := run_paramDecl ht hlevels hwords span (⟨.symbol .assign, place⟩ :: ts) last n
    refine ⟨offset, ?_⟩
    rw [runOn_eq_bind, hcut, hdefault]
    simp only [Except.map, Except.bind]
    rw [hrun, run_behindName_assign hne, run_bind_of_error (hread _ _)]

-- What follows a line on it keeps it a line.
theorem inLine_defaulting (ht : t.Writable) (hx : Identifier x.toList) {cs : List Char}
    (hne : cs ≠ []) (hblank : ∀ c ∈ cs, Text.isBlank c = false) : InLine (t.defaulting x cs) := by
  have hbreak : Text.isBlank '\n' = true := by decide
  have hreturn : Text.isBlank '\r' = true := by decide
  constructor
  · rfl
  · simp only [defaulting, List.mem_append, not_or]
    refine ⟨⟨(inLine_declaring ht hx).unbroken, by decide⟩, fun h => ?_⟩
    simp [hblank _ h] at hbreak
  · intro hlast
    rw [defaulting, List.getLast?_append_of_ne_nil _ hne] at hlast
    simp [hblank _ (List.mem_of_getLast? hlast)] at hreturn

variable {oracle : Oracle}

theorem check_expr (ht : t.Writable)
    (hknown : ∀ name, t.recordName? = some name → oracle.hasType name) (span : Span) :
    t.expr.check oracle span = pure (some t) := TypeExpr.denotes_iff.mp (denotes_expr ht hknown)

theorem schema_declaring (ht : t.Writable)
    (hknown : ∀ name, t.recordName? = some name → oracle.hasType name) (span : Span) (n : Nat)
    (source : String) :
    Template.schema oracle source ⟨[⟨x, t.expr, none, span⟩], [], n⟩ = .ok ⟨[⟨x, t, none⟩]⟩ := by
  have hdecl : ParamDecl.check oracle .empty [] ⟨x, t.expr, none, span⟩ =
      pure (⟨[⟨x, t, none⟩]⟩, [⟨x, some t⟩]) := by
    unfold ParamDecl.check
    exact Check.bind_eq_pure.mpr ⟨_, check_expr ht hknown span, rfl⟩
  have hheader : Template.checkHeader oracle ⟨[⟨x, t.expr, none, span⟩], [], n⟩ =
      pure (⟨[⟨x, t, none⟩]⟩, [⟨x, some t⟩]) := Check.bind_eq_pure.mpr ⟨_, hdecl, rfl⟩
  unfold Template.schema
  rw [hheader]
  rfl

-- A source that is nothing but the declaration.
theorem exists_schema_of_line (ht : t.Writable) (hlevels : t.levels ≤ maxNesting)
    (hx : Identifier x.toList)
    (hknown : ∀ name, t.recordName? = some name → oracle.hasType name) (trimLines : Bool) :
    ∃ template,
      Template.parse ("@param " ++ t.name ++ " " ++ x) trimLines = .ok template ∧
      template.schema oracle ("@param " ++ t.name ++ " " ++ x) = .ok ⟨[⟨x, t, none⟩]⟩ := by
  have hsource : "@param " ++ t.name ++ " " ++ x = String.ofList (declLine (t.declaring x)) := by
    refine String.ext ?_
    simp [declLine, declaring]
  let span : Span := ⟨0, byteLength (declLine (t.declaring x))⟩
  obtain ⟨n, hread⟩ := runOn_declaring ht hlevels hx 6 span 0
  refine ⟨⟨[⟨x, t.expr, none, span⟩], [], n⟩, ?_, schema_declaring ht hknown span n _⟩
  rw [hsource, Template.parse_declaration (inLine_declaring ht hx), hread]
  rfl

-- The texts that are read as a type are its spellings, and a type that can be written has its name
-- for one. In the line of a declaration, the name is read as the type too.
theorem texts_of_types :
    (∀ t : Ty, t.Writable →
      (∀ s : String, t.Spelt s.toList → parse s = .ok t) ∧ parse t.name = .ok t ∧
      ∀ x : String, t.levels ≤ 64 → Identifier x.toList →
        (∀ start span n, ∃ n', (paramDecl span).runOn ⟨start, t.declaring x⟩ n =
          .ok (⟨x, t.expr, none, span⟩, n')) ∧
        ∀ oracle : Oracle, (∀ name, t.recordName? = some name → oracle.hasType name) →
          (∀ span, t.expr.check oracle span = pure (some t)) ∧
          ∀ trimLines, ∃ template,
            Template.parse ("@param " ++ t.name ++ " " ++ x) trimLines = .ok template ∧
            template.schema oracle ("@param " ++ t.name ++ " " ++ x) = .ok ⟨[⟨x, t, none⟩]⟩) ∧
    (∀ (s : String) (t : Ty), parse s = .ok t → t.Writable ∧ t.Spelt s.toList ∧
      t.name = String.ofList (s.toList.filter fun c => !Text.isBlank c)) := by
  refine ⟨fun t ht => ⟨fun s hs => ofChars_eq_ok_iff.2 ⟨ht, hs⟩,
    ofChars_eq_ok_iff.2 ⟨ht, t.spelt_name⟩, fun x hlevels hx => ?_⟩, fun s t h => ?_⟩
  · exact ⟨runOn_declaring ht hlevels hx, fun oracle hknown =>
      ⟨check_expr ht hknown, exists_schema_of_line ht hlevels hx hknown⟩⟩
  · obtain ⟨ht, hspelt⟩ := ofChars_eq_ok_iff.1 h
    refine ⟨ht, hspelt, ?_⟩
    rw [filter_of_spelt ht hspelt, String.ofList_toList]

-- A list of lists of a record.
def table : Ty := list (list (record "User"))

theorem spelt_table : table.Spelt " list< list<User>\t> ".toList := by
  have hno : ∀ c ∈ ([] : List Char), Text.isBlank c := by simp
  have hspace : ∀ c ∈ [' '], Text.isBlank c := List.forall_mem_singleton.2 (by decide)
  have htab : ∀ c ∈ ['\t'], Text.isBlank c := List.forall_mem_singleton.2 (by decide)
  have huser : (record "User").Spelt "User".toList := spelt_name _
  exact (huser.list hspace htab).list hspace hspace

theorem texts_of_types_table :
    parse " list< list<User>\t> " = .ok table ∧ parse "list<list<User>>" = .ok table ∧
    ∃ template, Template.parse "@param list<list<User>> x" true = .ok template ∧
      template.schema (Declarations.empty.register (.empty "User")).oracle
        "@param list<list<User>> x" = .ok ⟨[⟨"x", table, none⟩]⟩ := by
  have hwritable : table.Writable := ⟨isIdentifier_iff.1 (by decide), by decide⟩
  have hx : Identifier "x".toList := isIdentifier_iff.1 (by decide)
  have hknown : ∀ name, table.recordName? = some name →
      (Declarations.empty.register (.empty "User")).oracle.hasType name := by
    intro name hname
    obtain rfl : "User" = name := Option.some.inj hname
    rfl
  obtain ⟨hspelt, hname, hline⟩ := texts_of_types.1 table hwritable
  exact ⟨hspelt _ spelt_table, hname, ((hline "x" (by decide) hx).2 _ hknown).2 true⟩

end Ty

end Stencil
