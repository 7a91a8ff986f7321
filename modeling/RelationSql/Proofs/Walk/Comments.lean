import RelationSql.Proofs.Fragment.Comment
import RelationSql.Proofs.Grammar.Swallowed
import RelationSql.Proofs.Query.Binds
import RelationSql.Proofs.Walk.Columns

/-!
# Comments that a source opens

Names, numbers and literals open no comment, and most operators stand between blanks. A minus in front of
an operand does not: in front of an operand that starts with a minus itself, the two open a comment, and
all that the statement holds behind them is lost. These are the only comments, so a statement is free of
them exactly if no such minus stands in its conditions (`compile_opensComment_iff`).
-/

namespace RelationSql

open Grammar WalkM RelationSql.Fragment RelationSql.Query

namespace Fragment

/-! ## Texts that open comments -/

/-- The text opens a comment just if the number is not zero. It closes its quotes, and no comment starts
with its last character. -/
structure Tells (n : ℕ) (cs : List Char) : Prop where
  opens : opensComment false cs = true ↔ n ≠ 0
  closed : quotedAfter false cs = false
  apart : EndsApart cs

namespace Tells

variable {m n : ℕ} {cs ds : List Char}

theorem append (h : Tells m cs) (h' : Tells n ds) : Tells (m + n) (cs ++ ds) where
  opens := by
    rw [opensComment_append h.apart, h.closed, Bool.or_eq_true, h.opens, h'.opens]
    omega
  closed := by rw [quotedAfter_append, h.closed, h'.closed]
  apart := h.apart.append h'.apart

/-- A text of names. -/
theorem of_lacks (h : ∀ c ∈ ['\'', '-', '/'], c ∉ cs) : Tells 0 cs where
  opens := by
    have hcs : ∀ c ∈ cs, c ≠ '-' ∧ c ≠ '/' := by
      refine fun c hc => ⟨?_, ?_⟩
      · rintro rfl
        exact h '-' (by decide) hc
      · rintro rfl
        exact h '/' (by decide) hc
    rw [opensComment_of_lacks hcs]
    decide
  closed := quotedAfter_of_lacks (h '\'' (by decide)) false
  apart := by
    intro c hc
    have hmem := List.mem_of_getLast? hc
    refine ⟨?_, ?_⟩
    · rintro rfl
      exact h '-' (by decide) hmem
    · rintro rfl
      exact h '/' (by decide) hmem

theorem of_quoteText (content : String) : Tells 0 (Value.quoteText content).toList where
  opens := by
    rw [(quoted_quoteText content).1]
    decide
  closed := (quoted_quoteText content).2
  apart := by
    intro c hc
    rw [Value.quoteText, String.toList_ofList, Value.wrapDoubled, List.getLast?_concat] at hc
    cases hc
    decide

theorem question : Tells 0 "?".toList :=
  .of_lacks (show Lacks ['\'', '-', '/'] "?" by decide)

/-- A minus opens a comment in front of another one. -/
theorem minus (h : Tells n cs) (hne : cs ≠ []) :
    Tells (n + if cs.head? = some '-' then 1 else 0) ('-' :: cs) where
  opens := by
    rw [opensComment, startsComment_minus]
    show (cs.head? == some '-' || opensComment false cs) = true ↔ _
    rw [Bool.or_eq_true, h.opens, beq_iff_eq]
    split <;> simp_all
  closed := h.closed
  apart := by
    obtain ⟨c, cs, rfl⟩ := List.exists_cons_of_ne_nil hne
    intro d hd
    rw [List.getLast?_cons_cons] at hd
    exact h.apart d hd

end Tells

/-- The text consists of sound segments with plain binds. With a question mark for each bind, it opens a
comment just if the number is not zero. -/
def Opens (n : ℕ) (text : String) : Prop :=
  ∃ segments : List Segment, (∀ segment ∈ segments, segment.Sound) ∧
    (∀ expression ∈ segments.filterMap Segment.bind?, Plain expression) ∧
    text.toList = segments.flatMap Segment.fragment ∧ Tells n (segments.flatMap (Segment.sql "?".toList))

/-- Hiding the opening brackets of a literal hides no minus at its start. -/
theorem startsMinus_protect (cs : List Char) :
    (protect cs).head?.map (· == '-') = cs.head?.map (· == '-') := by
  cases cs with
  | nil => rfl
  | cons c cs =>
    rw [protect]
    split
    · next hc => simp [hc]
    · split
      · next hc =>
        rw [hc]
        rfl
      · rfl

/-- Segments and their text with question marks start with the same, as far as a minus goes. -/
theorem startsMinus_sql (segments : List Segment) :
    (segments.flatMap (Segment.sql "?".toList)).head?.map (· == '-') =
      (segments.flatMap Segment.fragment).head?.map (· == '-') := by
  induction segments with
  | nil => rfl
  | cons segment segments ih =>
    have hsegment : (segment.sql "?".toList).head?.map (· == '-') =
        segment.fragment.head?.map (· == '-') := by
      cases segment with
      | text written => rfl
      | bind expression => simp [Segment.sql, Segment.fragment, insertBind]
      | literal quoted => exact (startsMinus_protect quoted.toList).symm
    rw [List.flatMap_cons, List.flatMap_cons, List.head?_append, List.head?_append, Option.map_or,
      Option.map_or, hsegment, ih]

namespace Opens

variable {m n : ℕ} {text rest : String}

theorem append (h : Opens m text) (h' : Opens n rest) : Opens (m + n) (text ++ rest) := by
  obtain ⟨segments, hsound, hbinds, htext, htells⟩ := h
  obtain ⟨segments', hsound', hbinds', htext', htells'⟩ := h'
  refine ⟨segments ++ segments', List.forall_mem_append.2 ⟨hsound, hsound'⟩, ?_, ?_, ?_⟩
  · rw [List.filterMap_append]
    exact List.forall_mem_append.2 ⟨hbinds, hbinds'⟩
  · rw [String.toList_append, htext, htext', List.flatMap_append]
  · rw [List.flatMap_append]
    exact htells.append htells'

theorem of_plain (h : Plain text) (htells : Tells n text.toList) : Opens n text :=
  ⟨[.text text], by simpa [Segment.Sound] using h, by simp [Segment.bind?],
    by simp [Segment.fragment, Segment.filled], by simpa [Segment.sql] using htells⟩

/-- A bind of a plain expression. -/
theorem of_plain_bind (h : Plain text) : Opens 0 (insertBind text) :=
  ⟨[.bind text], by simp [Segment.Sound], by simpa [Segment.bind?] using h, by simp [Segment.fragment],
    by simpa [Segment.sql] using Tells.question⟩

theorem of_quoteText (content : String) : Opens 0 (protectText (Value.quoteText content)) :=
  ⟨[.literal (Value.quoteText content)], by simpa [Segment.Sound] using head?_quoteText_ne content,
    by simp [Segment.bind?], by simp [Segment.fragment, Segment.filled, protectText],
    by simpa [Segment.sql] using Tells.of_quoteText content⟩

theorem minus (h : Opens n text) (hne : text ≠ "") :
    Opens (n + if text.toList.head? = some '-' then 1 else 0) ("-" ++ text) := by
  obtain ⟨segments, hsound, hbinds, htext, htells⟩ := h
  have hstart := startsMinus_sql segments
  rw [← htext] at hstart
  have hsql : segments.flatMap (Segment.sql "?".toList) ≠ [] := by
    intro hnil
    rw [hnil] at hstart
    have hempty : text.toList.head? = none := by simpa using hstart.symm
    exact hne (String.toList_eq_nil_iff.1 (List.head?_eq_none_iff.1 hempty))
  have hhead : (segments.flatMap (Segment.sql "?".toList)).head? = some '-' ↔
      text.toList.head? = some '-' := by
    have hminus (start : Option Char) : start = some '-' ↔ start.map (· == '-') = some true := by
      cases start <;> simp
    rw [hminus, hminus, hstart]
  refine ⟨.text "-" :: segments, List.forall_mem_cons.2 ⟨show Plain "-" by decide, hsound⟩, hbinds, ?_, ?_⟩
  · rw [String.toList_append, htext]
    rfl
  · have hminus := htells.minus hsql
    rw [if_congr hhead rfl rfl] at hminus
    exact hminus

end Opens

end Fragment

/-! ## The gauge of minus signs -/

/-- A minus in front of another one counts. -/
def Scale.clashes : Scale ℕ where
  template := fun _ => 0
  clash := 1

/-- The number of minus signs directly in front of another one, in the conditions of a statement. -/
def Tree.clashes (tree : Tree) : StatementKind → ℕ
  | .find => (Scale.clashes.after tree 0).filters + (Scale.clashes.after tree 0).having_
  | .count => (Scale.clashes.after tree 0).filters

/-- The dialects of the engines. -/
def Dialect.builtIn : List Dialect :=
  [.generic, .postgres, .sqlite]

namespace Gauge

/-- A text weighs the comments that it opens. -/
def comments (options : Options) (customs : CustomQueries) : Gauge ℕ where
  toScale := Scale.clashes
  options := options
  dialects := fun dialect => dialect ∈ Dialect.builtIn
  customs := customs
  swallows := options.SeesNoCustom customs
  excluded := specials ++ ['\'', '-', '/']
  weighs := Opens
  signed := True
  faults := fun _ => True

variable {options : Options} {customs : CustomQueries}

/-- A literal starts with its quote. -/
theorem speaks_quoteText (content : String) :
    (comments options customs).Speaks 0 false (protectText (Value.quoteText content)) := by
  have hhead : (protectText (Value.quoteText content)).toList.head? = some '\'' := by
    rw [protectText, String.toList_ofList, Value.quoteText, String.toList_ofList, Value.wrapDoubled,
      List.cons_append, protect, if_neg (by decide), if_neg (by decide), List.head?_cons]
  refine ⟨.of_quoteText content, ?_, fun _ => ?_⟩
  · rintro - hempty
    rw [hempty] at hhead
    cases hhead
  · rw [hhead]
    decide

theorem lawful_comments (htranslator : options.translator = none)
    (hconnection : ∀ quote ∈ options.connection, ∀ content, ∃ written,
      quote (.text content) = Value.quoteText written)
    (hcustoms : ∀ custom, (comments options customs).Offers custom →
      (comments options customs).Light custom) :
    (comments options customs).Lawful where
  isClass := show IsClass (specials ++ ['\'', '-', '/']) by decide
  name text htext :=
    .of_plain (htext.mono (List.subset_append_left _ _))
      (.of_lacks (htext.mono (List.subset_append_right _ _)))
  append _ _ _ _ := .append
  operator operator := .of_plain (by cases operator <;> decide)
    (by cases operator <;> exact ⟨by decide, by decide, by decide⟩)
  minus x leads text h := by
    have hminus := Opens.minus h.weighs (h.nonempty trivial)
    rw [if_congr (h.head trivial) rfl rfl] at hminus
    exact hminus
  minusExcluded _ := show '-' ∈ specials ++ ['\'', '-', '/'] by decide
  bound name expression hname htranslates := by
    rw [Options.Translates, show (comments options customs).options = options from rfl,
      htranslator] at htranslates
    obtain rfl : expression = name := htranslates
    exact .of_plain_bind (hname.mono (List.subset_append_left _ _))
  page key size hkey := .of_plain_bind (hkey.plain_pageOffset size)
  template content expression hsome := by
    rw [show (comments options customs).options = options from rfl, htranslator] at hsome
    cases hsome
  literal dialect content _ := by
    have hquote : ∃ written, (options.connection.getD dialect.quoteValue) (.text content) =
        Value.quoteText written := by
      cases hquote : options.connection with
      | none => exact ⟨content, rfl⟩
      | some quote => exact hconnection quote hquote content
    obtain ⟨written, hwritten⟩ := hquote
    show (comments options customs).Speaks 0 false
      (protectText ((options.connection.getD dialect.quoteValue) (.text content)))
    rw [hwritten]
    exact speaks_quoteText written
  customs := hcustoms
  replaced hnone hoffers := absurd hoffers (not_offers hnone)
  faults _ _ := trivial

end Gauge

/-! ## Sources -/

/-- A compile with the dialect of an engine and without a translator. Texts are written as quoted literals,
and custom queries and hooks write no quotes, minus signs or slashes of their own. -/
structure Catalog.WritesNoComments (catalog : Catalog) (options : Options) : Prop where
  translator : options.translator = none
  connection : ∀ quote ∈ options.connection, ∀ content, ∃ written,
    quote (.text content) = Value.quoteText written
  customs : ∀ custom, (Gauge.comments options catalog.customQueries).Offers custom →
    (Gauge.comments options catalog.customQueries).Light custom
  weighed : catalog.Weighed (Gauge.comments options catalog.customQueries)

theorem Dialect.placeholder_of_builtIn {dialect : Dialect} (h : dialect ∈ Dialect.builtIn) :
    dialect.placeholder = "?" := by
  revert dialect
  decide

/-- **A statement opens a comment exactly if a minus stands in front of another one in its conditions.** -/
theorem compile_opensComment_iff {catalog : Catalog} {options : Options}
    (h : catalog.WritesNoComments options) {name source : String} {tree : Tree} {q : Query}
    (hparse : parse source = .ok tree)
    (hswallows : tree.swallows = false ∨ options.SeesNoCustom catalog.customQueries)
    (hcompile : catalog.compile options name source = .ok q) (kind : StatementKind) :
    opensComment false (q.build kind).sql.toList = true ↔ tree.clashes kind ≠ 0 := by
  have hlawful := Gauge.lawful_comments h.translator h.connection h.customs
  have htree := (formed_of_parse hparse).of_swallows hswallows
  have hwritten := h.weighed.compile hlawful hparse htree name
  rw [show (Gauge.comments options catalog.customQueries).options = options from rfl, hcompile] at hwritten
  have hwritten : (Gauge.comments options catalog.customQueries).Written _ q := hwritten
  have hplaceholder := Dialect.placeholder_of_builtIn hwritten.dialect
  have hopens : Opens (tree.clashes kind) (q.statement kind) := by
    cases kind with
    | find => exact hwritten.find hlawful
    | count => exact hwritten.count hlawful
  obtain ⟨segments, hsound, hbinds, hstatement, htells⟩ := hopens
  have hbuild := (build_segments_iff hsound (hplaceholder ▸ show escape ∉ "?".toList by decide) hstatement).2
    fun expression hexpression => (hbinds expression hexpression).kept
  rw [hbuild, String.toList_ofList, hplaceholder, htells.opens]

/-! ## Signs -/

theorem writesNoComments_objectCatalog : objectCatalog.WritesNoComments {} := by
  have hnone : Options.SeesNoCustom {} .empty := by
    rintro _ _ _ ⟨⟩
  have hcustoms (custom : CustomQuery) (hoffers : (Gauge.comments {} .empty).Offers custom) :
      (Gauge.comments {} .empty).Light custom :=
    absurd ⟨custom, hoffers⟩ (Gauge.not_offers hnone)
  have hlawful := Gauge.lawful_comments rfl (by rintro _ ⟨⟩) hcustoms
  exact ⟨rfl, by rintro _ ⟨⟩, hcustoms, weighed_objectCatalog hlawful (List.mem_cons_self) rfl⟩

/-- A minus in a literal opens no comment, and neither does one behind the sign of a difference. -/
theorem difference_opens_none :
    ∃ q, objectCatalog.compile {} "objects" "children where name = '--' and age = 3 - -5" = .ok q ∧
      (q.build .find).sql =
        "SELECT objects.* FROM objects WHERE objects.name = '--' AND objects.age = 3 - -5" ∧
      opensComment false (q.build .find).sql.toList = false := by
  have hsql : (objectCatalog.compile {} "objects" "children where name = '--' and age = 3 - -5").map
      (fun q => (q.build .find).sql) =
        .ok "SELECT objects.* FROM objects WHERE objects.name = '--' AND objects.age = 3 - -5" := by
    decide +kernel
  cases hcompile : objectCatalog.compile {} "objects" "children where name = '--' and age = 3 - -5" with
  | error fault =>
    rw [hcompile] at hsql
    cases hsql
  | ok q =>
    rw [hcompile] at hsql
    have hparse : parse "children where name = '--' and age = 3 - -5" = .ok (.node .query
        [.node .filter [.leaf .relation "children", .node (.op .and)
          [.node (.op .equal) [.leaf .field "name", .leaf .string "--"],
            .node (.op .equal) [.leaf .field "age",
              .node (.op .minus) [.leaf .integer "3", .leaf .integer "-5"]]]]]) := by
      decide +kernel
    have hopens := compile_opensComment_iff writesNoComments_objectCatalog hparse (.inl rfl) hcompile .find
    refine ⟨q, rfl, Except.ok.inj hsql, Bool.eq_false_iff.2 fun htrue => hopens.1 htrue rfl⟩

/-- **Two signs in front of a number open a comment**, and the blank between them in the source is gone. -/
theorem double_sign_opens :
    parse "children where age = - -5" = .ok (.node .query [.node .filter [.leaf .relation "children",
      .node (.op .equal) [.leaf .field "age", .node (.op .changeSign) [.leaf .integer "-5"]]]]) ∧
    (objectCatalog.compile {} "objects" "children where age = - -5").map (fun q => (q.build .find).sql) =
      .ok "SELECT objects.* FROM objects WHERE objects.age = --5" ∧
    opensComment false "SELECT objects.* FROM objects WHERE objects.age = --5".toList = true := by
  refine ⟨?_, ?_, ?_⟩
  · decide +kernel
  · decide +kernel
  · decide +kernel

end RelationSql
