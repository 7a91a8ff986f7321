import Mathlib.Algebra.Order.Group.Multiset
import RelationSql.Proofs.Fragment.Template
import RelationSql.Proofs.Grammar.Swallowed
import RelationSql.Proofs.Query.Binds
import RelationSql.Proofs.Walk.Columns

/-!
# Interpolated strings are binds

With a translator that returns its source, an interpolated string of a condition becomes a bind of the
finding statement: its whole text is listed, and only a placeholder stands in the statement. This holds
for all of them together exactly if each can stand in a marker and holds no escape
(`compile_interpolated_iff`). A marker ends at the first two closing brackets and at the end of its line,
so an index in an index is torn apart (`nested_index_torn`).
-/

namespace RelationSql

open Grammar WalkM RelationSql.Fragment

namespace Fragment

/-! ## Texts with binds -/

/-- The text consists of sound segments. Its binds are the expressions, and others that are plain. -/
def Interpolates (expressions : Multiset String) (text : String) : Prop :=
  ∃ (segments : List Segment) (others : Multiset String), (∀ segment ∈ segments, segment.Sound) ∧
    (∀ other ∈ others, Plain other) ∧ text.toList = segments.flatMap Segment.fragment ∧
    (segments.filterMap Segment.bind? : Multiset String) = expressions + others

namespace Interpolates

variable {expressions expressions' : Multiset String} {text rest : String}

theorem of_plain (h : Plain text) : Interpolates 0 text :=
  ⟨[.text text], 0, by simpa [Segment.Sound] using h, by simp, by simp [Segment.fragment, Segment.filled],
    by simp [Segment.bind?]⟩

theorem of_literal {quoted : String} (h : quoted.toList.head? ≠ some ']') :
    Interpolates 0 (protectText quoted) :=
  ⟨[.literal quoted], 0, by simpa [Segment.Sound] using h, by simp,
    by simp [Segment.fragment, Segment.filled, protectText], by simp [Segment.bind?]⟩

/-- A bind of a plain expression. -/
theorem of_plain_bind (h : Plain text) : Interpolates 0 (insertBind text) :=
  ⟨[.bind text], {text}, by simp [Segment.Sound], by simpa using h, by simp [Segment.fragment],
    by simp [Segment.bind?]⟩

/-- A bind of any expression. -/
theorem of_bind (expression : String) : Interpolates {expression} (insertBind expression) :=
  ⟨[.bind expression], 0, by simp [Segment.Sound], by simp, by simp [Segment.fragment],
    by simp [Segment.bind?]⟩

theorem append (h : Interpolates expressions text) (h' : Interpolates expressions' rest) :
    Interpolates (expressions + expressions') (text ++ rest) := by
  obtain ⟨segments, others, hsound, hothers, htext, hbinds⟩ := h
  obtain ⟨segments', others', hsound', hothers', htext', hbinds'⟩ := h'
  refine ⟨segments ++ segments', others + others', ?_, ?_, ?_, ?_⟩
  · exact List.forall_mem_append.2 ⟨hsound, hsound'⟩
  · simpa only [Multiset.mem_add, or_imp, forall_and] using ⟨hothers, hothers'⟩
  · rw [String.toList_append, htext, htext', List.flatMap_append]
  · rw [List.filterMap_append, ← Multiset.coe_add, hbinds, hbinds', add_add_add_comm]

end Interpolates

end Fragment

/-! ## The gauge of interpolated strings -/

/-- An interpolated string weighs itself. -/
def Scale.interpolations : Scale (Multiset String) where
  template := fun content => {templateSource content}
  clash := 0

/-- The interpolated strings in the conditions that a source leaves behind: those of its filters and of
its condition on groups. Conditions in front of an alternative stand in each of its branches. -/
def Tree.interpolated (tree : Tree) : Multiset String :=
  (Scale.interpolations.after tree 0).filters + (Scale.interpolations.after tree 0).having_

namespace Gauge

/-- A text weighs the interpolated strings in it. -/
def interpolations (options : Options) (customs : CustomQueries) : Gauge (Multiset String) where
  toScale := Scale.interpolations
  options := options
  dialects := fun dialect => escape ∉ dialect.placeholder.toList
  customs := customs
  swallows := options.SeesNoCustom customs
  excluded := specials
  weighs := Interpolates
  signed := False
  faults := fun _ => True

variable {options : Options} {customs : CustomQueries}

theorem lawful_interpolations (htranslator : options.translator = some .ok)
    (hconnection : ∀ quote ∈ options.connection, ∀ content, (quote (.text content)).toList.head? ≠ some ']')
    (hcustoms : ∀ custom, (interpolations options customs).Offers custom →
      (interpolations options customs).Light custom) :
    (interpolations options customs).Lawful where
  isClass := isClass_specials
  name _ := .of_plain
  append _ _ _ _ := .append
  operator operator := .of_plain (by cases operator <;> decide)
  minus x leads text h := by
    have hminus := (Interpolates.of_plain (show Plain "-" by decide)).append h.weighs
    rw [zero_add] at hminus
    have hclash : (if leads = true then (interpolations options customs).clash else 0) = 0 := ite_self 0
    rw [hclash, add_zero]
    exact hminus
  minusExcluded := False.elim
  bound name expression hname htranslates := by
    obtain rfl : name = expression := by
      rw [Options.Translates, show (interpolations options customs).options = options from rfl,
        htranslator] at htranslates
      exact Except.ok.inj htranslates
    exact .of_plain_bind hname
  page key size hkey := .of_plain_bind (hkey.plain_pageOffset size)
  template content expression _ htranslates := by
    obtain rfl : templateSource content = expression := by
      rw [Options.Translates, show (interpolations options customs).options = options from rfl,
        htranslator] at htranslates
      exact Except.ok.inj htranslates
    exact .of_bind _
  literal dialect content _ := by
    refine ⟨.of_literal ?_, False.elim, False.elim⟩
    show (options.connection.getD dialect.quoteValue (.text content)).toList.head? ≠ some ']'
    cases hquote : options.connection with
    | none => exact head?_quoteText_ne content
    | some quote => exact hconnection quote hquote content
  customs := hcustoms
  replaced hnone hoffers := absurd hoffers (not_offers hnone)
  faults _ _ := trivial

end Gauge

/-! ## Sources -/

/-- A compile with a translator that returns its source. Literals close no marker, and custom queries and
hooks write no interpolated strings of their own and those of their arguments once. -/
structure Catalog.Interpolates (catalog : Catalog) (options : Options) : Prop where
  translator : options.translator = some .ok
  connection : ∀ quote ∈ options.connection, ∀ content, (quote (.text content)).toList.head? ≠ some ']'
  customs : ∀ custom, (Gauge.interpolations options catalog.customQueries).Offers custom →
    (Gauge.interpolations options catalog.customQueries).Light custom
  weighed : catalog.Weighed (Gauge.interpolations options catalog.customQueries)

/-- **The interpolated strings of a source become binds exactly if each of them is kept.** The finding
statement consists of segments: plain texts, literals, and markers, of which there is one for each
interpolated string that stands in a condition, while the others are plain. If each of these strings can
stand in a marker and holds no escape, the statement is built with a placeholder in the place of each
marker, and its complete text is the bind of the place. Otherwise it is built differently. -/
theorem compile_interpolated_iff {catalog : Catalog} {options : Options} (h : catalog.Interpolates options)
    {name source : String} {tree : Tree} {q : Query} (hparse : parse source = .ok tree)
    (hswallows : tree.swallows = false ∨ options.SeesNoCustom catalog.customQueries)
    (hcompile : catalog.compile options name source = .ok q) :
    ∃ (segments : List Segment) (others : Multiset String),
      (∀ segment ∈ segments, segment.Sound) ∧ (∀ other ∈ others, Plain other) ∧
      (q.statement .find).toList = segments.flatMap Segment.fragment ∧
      (segments.filterMap Segment.bind? : Multiset String) = tree.interpolated + others ∧
      (q.build .find = ⟨String.ofList (segments.flatMap (Segment.sql q.dialect.placeholder.toList)),
          segments.filterMap Segment.bind?⟩ ↔
        ∀ expression ∈ tree.interpolated, Kept expression) := by
  have hlawful := Gauge.lawful_interpolations h.translator h.connection h.customs
  have htree := (formed_of_parse hparse).of_swallows hswallows
  have hwritten := h.weighed.compile hlawful hparse htree name
  rw [show (Gauge.interpolations options catalog.customQueries).options = options from rfl,
    hcompile] at hwritten
  have hwritten : (Gauge.interpolations options catalog.customQueries).Written _ q := hwritten
  obtain ⟨segments, others, hsound, hothers, hstatement, hbinds⟩ := hwritten.find hlawful
  refine ⟨segments, others, hsound, hothers, hstatement, hbinds, ?_⟩
  rw [Query.build_segments_iff hsound hwritten.dialect hstatement]
  have hmem (expression : String) : expression ∈ segments.filterMap Segment.bind? ↔
      expression ∈ tree.interpolated ∨ expression ∈ others := by
    rw [← Multiset.mem_add, ← Multiset.mem_coe, hbinds]
    rfl
  constructor
  · exact fun hkept expression hexpression => hkept _ ((hmem expression).2 (.inl hexpression))
  · intro hkept expression hexpression
    exact ((hmem expression).1 hexpression).elim (hkept expression) fun hother => (hothers _ hother).kept

/-! ## Indexes -/

/-- A compile with a translator that returns its source. -/
def sourced : Options where
  translator := some .ok

theorem seesNoCustom_sourced : sourced.SeesNoCustom .empty := by
  rintro _ _ _ ⟨⟩

theorem interpolates_objectCatalog : objectCatalog.Interpolates sourced := by
  have hcustoms (custom : CustomQuery) (hoffers : (Gauge.interpolations sourced .empty).Offers custom) :
      (Gauge.interpolations sourced .empty).Light custom := by
    exact absurd ⟨custom, hoffers⟩ (Gauge.not_offers seesNoCustom_sourced)
  have hlawful := Gauge.lawful_interpolations rfl (by rintro _ ⟨⟩) hcustoms
  have hplaceholder : escape ∉ "?".toList := by decide
  exact ⟨rfl, by rintro _ ⟨⟩, hcustoms, weighed_objectCatalog hlawful hplaceholder rfl⟩

/-- The children whose name is an interpolated string. -/
def interpolatedChildren (content : String) : Tree :=
  .node .query [.node .filter [.leaf .relation "children",
    .node (.op .equal) [.leaf .field "name", .leaf .dstring content]]]

/-- An index is kept. -/
theorem index_bound :
    ∃ q, objectCatalog.compile sourced "objects" "children where name = \"#{ids[0]}\"" = .ok q ∧
      (interpolatedChildren "#{ids[0]}").interpolated = {"\"#{ids[0]}\""} ∧ Kept "\"#{ids[0]}\"" ∧
      ∃ (segments : List Segment) (others : Multiset String),
        (∀ segment ∈ segments, segment.Sound) ∧ (∀ other ∈ others, Plain other) ∧
        (q.statement .find).toList = segments.flatMap Segment.fragment ∧
        (segments.filterMap Segment.bind? : Multiset String) = {"\"#{ids[0]}\""} + others ∧
        q.build .find = ⟨String.ofList (segments.flatMap (Segment.sql q.dialect.placeholder.toList)),
          segments.filterMap Segment.bind?⟩ := by
  have hparse : parse "children where name = \"#{ids[0]}\"" = .ok (interpolatedChildren "#{ids[0]}") := by decide +kernel
  have hkept : Kept "\"#{ids[0]}\"" := by decide +kernel
  have hinterpolated : (interpolatedChildren "#{ids[0]}").interpolated = {"\"#{ids[0]}\""} := by decide +kernel
  have hok : (objectCatalog.compile sourced "objects" "children where name = \"#{ids[0]}\"").isOk = true := by
    decide +kernel
  cases hcompile : objectCatalog.compile sourced "objects" "children where name = \"#{ids[0]}\"" with
  | error fault =>
    rw [hcompile] at hok
    cases hok
  | ok q =>
    obtain ⟨segments, others, hsound, hothers, hstatement, hbinds, hbuild⟩ :=
      compile_interpolated_iff interpolates_objectCatalog hparse (.inr seesNoCustom_sourced) hcompile
    rw [hinterpolated] at hbinds hbuild
    refine ⟨q, rfl, hinterpolated, hkept, segments, others, hsound, hothers, hstatement, hbinds, hbuild.2 ?_⟩
    intro expression hexpression
    rwa [Multiset.mem_singleton.1 hexpression]

/-- **An index in an index is torn apart.** The marker ends within the string, so the bind is not the whole
text, and what is left of it stands in the statement. -/
theorem nested_index_torn :
    parse "children where name = \"#{a[b[0]]}\"" = .ok (interpolatedChildren "#{a[b[0]]}") ∧
      (objectCatalog.compile sourced "objects" "children where name = \"#{a[b[0]]}\"").map
          (fun q => q.build .find) =
        .ok ⟨"SELECT objects.* FROM objects WHERE objects.name = ?\x7d\"]]", ["\"#\x7ba[b[0"]⟩ := by
  constructor
  · decide +kernel
  · decide +kernel

end RelationSql
