import RelationSql.Proofs.Fragment.Segments
import RelationSql.Query.Statement

/-!
# Placeholders and their binds

A statement is written as texts with something between them (`interleave`): markers before it is
built, placeholders after. Building takes out the expressions that were put in, each in the place of
its placeholder (`build_interleave`). The literals are brought back last, over the whole text, so a
placeholder that brings in an escape of its own does not stay as it is.
-/

namespace RelationSql.Query

open RelationSql.Fragment

/-! ## Texts with something between them -/

/-- Texts with a filling behind each of them, and the last text. -/
def interleave (pieces : List (String × String)) (last : String) : String :=
  pieces.foldr (fun piece rest => piece.1 ++ piece.2 ++ rest) last

@[simp]
theorem interleave_nil (last : String) : interleave [] last = last :=
  rfl

@[simp]
theorem interleave_cons (piece : String × String) (pieces : List (String × String))
    (last : String) :
    interleave (piece :: pieces) last = piece.1 ++ piece.2 ++ interleave pieces last :=
  rfl

/-- The texts between the fillings, from the first to the last. -/
def textsOf (pieces : List (String × String)) (last : String) : List String :=
  pieces.map Prod.fst ++ [last]

/-- The pieces, cut: the expressions stand in the places of markers. -/
def cutOf (pieces : List (String × String)) (last : String) : Cut :=
  ⟨pieces.map fun piece => (piece.1.toList, piece.2.toList), last.toList⟩

theorem texts_cutOf (pieces : List (String × String)) (last : String) :
    (cutOf pieces last).texts = (textsOf pieces last).map String.toList := by
  simp [Cut.texts, cutOf, textsOf, Function.comp_def]

theorem expressions_cutOf (pieces : List (String × String)) (last : String) :
    (cutOf pieces last).expressions = (pieces.map Prod.snd).map String.toList := by
  simp [Cut.expressions, cutOf, Function.comp_def]

/-- The text with markers between its pieces. -/
theorem toList_interleave_insertBind (pieces : List (String × String)) (last : String) :
    (interleave (pieces.map fun piece => (piece.1, insertBind piece.2)) last).toList =
      (cutOf pieces last).marked := by
  induction pieces with
  | nil => rfl
  | cons piece pieces ih =>
    rw [List.map_cons, interleave_cons, String.toList_append, ih]
    simp [cutOf, Cut.marked, insertBind]

/-- The text with one filling between its pieces. -/
theorem toList_interleave_const (filling : String) (pieces : List (String × String))
    (last : String) :
    (interleave (pieces.map fun piece => (piece.1, filling)) last).toList =
      (cutOf pieces last).fill filling.toList := by
  induction pieces with
  | nil => rfl
  | cons piece pieces ih =>
    rw [List.map_cons, interleave_cons, String.toList_append, ih]
    simp [cutOf, Cut.fill]

/-! ## Building -/

/-- Texts around markers: none holds an opening bracket or the escape character, and none behind a
marker starts with a closing bracket. -/
structure PlainTexts (texts : List String) : Prop where
  bracket : ∀ text ∈ texts, '[' ∉ text.toList
  unescaped : ∀ text ∈ texts, escape ∉ text.toList
  behind : ∀ text ∈ texts.tail, text.toList.head? ≠ some ']'

/-- Can the expression stand in a marker and come out of it unchanged? -/
structure BindText (expression : String) : Prop where
  bindable : Bindable expression.toList
  unescaped : escape ∉ expression.toList

variable {pieces : List (String × String)} {last : String}

/-- Plain texts with expressions between them are cut at the markers. -/
theorem clean_cutOf (htexts : PlainTexts (textsOf pieces last))
    (hbinds : ∀ piece ∈ pieces, BindText piece.2) : (cutOf pieces last).Clean where
  plain := by
    rw [texts_cutOf]
    exact List.forall_mem_map.2 htexts.bracket
  bindable := by
    rw [expressions_cutOf, List.map_map]
    exact List.forall_mem_map.2 fun piece hpiece => (hbinds piece hpiece).bindable
  behind := by
    rw [texts_cutOf, ← List.map_tail]
    exact List.forall_mem_map.2 htexts.behind

/-- A placeholder without the escape character leaves no escape in the text. -/
theorem not_holdsEscape_fill {parts : Cut} {filling : List Char}
    (htexts : ∀ text ∈ parts.texts, escape ∉ text) (hfilling : escape ∉ filling) :
    ¬ HoldsEscape (parts.fill filling) := by
  rw [← restore_eq_self_iff]
  apply restore_of_not_mem
  simp only [Cut.fill, List.mem_append, List.mem_flatMap, not_or, not_exists, not_and]
  simp only [Cut.texts, List.mem_append, List.mem_map, List.mem_singleton] at htexts
  refine ⟨fun marker hmarker => ⟨?_, hfilling⟩, htexts parts.tail (.inr rfl)⟩
  exact htexts marker.1 (.inl ⟨marker, hmarker, rfl⟩)

/-- A statement with markers in it is built with their expressions as binds, in the order of the text,
and with a placeholder for each of them, restored. -/
theorem build_of_cut {q : Query} {kind : StatementKind} {parts : Cut}
    (h : cut (q.statement kind).toList = parts) :
    q.build kind = ⟨String.ofList (restore (parts.fill q.dialect.placeholder.toList)),
      parts.expressions.map fun expression => String.ofList (restore expression)⟩ := by
  subst h
  rfl

/-- **A statement is built as its segments say exactly if all of its expressions are kept.** Then each of
them is a bind, and nothing but its placeholder is left of it in the text. -/
theorem build_segments_iff {q : Query} {kind : StatementKind} {segments : List Segment}
    (hsound : ∀ segment ∈ segments, segment.Sound)
    (hplaceholder : escape ∉ q.dialect.placeholder.toList)
    (hstatement : (q.statement kind).toList = segments.flatMap Segment.fragment) :
    q.build kind = ⟨String.ofList (segments.flatMap (Segment.sql q.dialect.placeholder.toList)),
        segments.filterMap Segment.bind?⟩ ↔
      ∀ expression ∈ segments.filterMap Segment.bind?, Kept expression := by
  have hbinds : (q.build kind).binds = segments.filterMap Segment.bind? ↔
      ∀ expression ∈ segments.filterMap Segment.bind?, Kept expression := by
    rw [← restore_expressions_iff hsound, build_of_cut rfl, hstatement]
    constructor
    · intro hbinds
      have htexts := congrArg (List.map String.toList) hbinds
      simpa only [List.map_map, Function.comp_def, String.toList_ofList] using htexts
    · intro htexts
      have hbinds := congrArg (List.map String.ofList) htexts
      simpa only [List.map_map, Function.comp_def, String.ofList_toList, List.map_id'] using hbinds
  refine ⟨fun hbuilt => hbinds.1 (congrArg Built.binds hbuilt), fun hkept => ?_⟩
  have hfill := fill_cut_segments hsound (fun e he => (hkept e he).1) q.dialect.placeholder.toList
  rw [← hbinds.2 hkept, build_of_cut rfl, hstatement, hfill, restore_filled hsound hplaceholder]

/-- **Building takes the expressions out of their markers.** They are listed in the order of the text,
each in the place of its placeholder. The text is the one with placeholders exactly if the placeholder
brings in no escape; one without the escape character never does. -/
theorem build_interleave {q : Query} {kind : StatementKind}
    (hstatement : q.statement kind =
      interleave (pieces.map fun piece => (piece.1, insertBind piece.2)) last)
    (htexts : PlainTexts (textsOf pieces last)) (hbinds : ∀ piece ∈ pieces, BindText piece.2) :
    let text := interleave (pieces.map fun piece => (piece.1, q.dialect.placeholder)) last
    (q.build kind).binds = pieces.map Prod.snd ∧
      ((q.build kind).sql = text ↔ ¬ HoldsEscape text.toList) ∧
      (escape ∉ q.dialect.placeholder.toList → (q.build kind).sql = text) := by
  intro text
  have hcut : cut (q.statement kind).toList = cutOf pieces last := by
    rw [hstatement, toList_interleave_insertBind, cut_marked (clean_cutOf htexts hbinds)]
  have htext : (cutOf pieces last).fill q.dialect.placeholder.toList = text.toList :=
    (toList_interleave_const _ _ _).symm
  have hkept : (q.build kind).sql = text ↔ ¬ HoldsEscape text.toList := by
    rw [build_of_cut hcut, htext, ← restore_eq_self_iff, ← String.toList_inj, String.toList_ofList]
  refine ⟨?_, hkept, fun hplaceholder => hkept.2 ?_⟩
  · rw [build_of_cut hcut, expressions_cutOf, List.map_map]
    refine (List.map_congr_left fun expression hmem => ?_).trans (List.map_id _)
    obtain ⟨piece, hpiece, rfl⟩ := List.mem_map.1 hmem
    simp [restore_of_not_mem (hbinds piece hpiece).unescaped]
  · rw [← htext]
    refine not_holdsEscape_fill ?_ hplaceholder
    rw [texts_cutOf]
    exact List.forall_mem_map.2 htexts.unescaped

/-- A query for one of two records, with brackets in the bind expressions. -/
def oneOfTwo : Query :=
  { (Query.new .generic "objects" "Node") with
    tables := ["objects"], filters := ["objects.id IN ([[ids[0]]],[[a[b]]]])"] }

/-- Both expressions come back with their brackets, in the order of their placeholders. -/
theorem oneOfTwo_built :
    let text := "SELECT objects.* FROM objects WHERE objects.id IN (?,?)"
    (oneOfTwo.build .find).binds = ["ids[0]", "a[b]]"] ∧
      ((oneOfTwo.build .find).sql = text ↔ ¬ HoldsEscape text.toList) ∧
      (escape ∉ "?".toList → (oneOfTwo.build .find).sql = text) :=
  @build_interleave
    [("SELECT objects.* FROM objects WHERE objects.id IN (", "ids[0]"), (",", "a[b]]")] ")"
    oneOfTwo .find (by decide +kernel)
    ⟨by decide +kernel, by decide +kernel, by decide +kernel⟩
    (List.forall_mem_cons.2 ⟨⟨by decide +kernel, by decide +kernel⟩,
      List.forall_mem_singleton.2 ⟨by decide +kernel, by decide +kernel⟩⟩)

/-- A query for the record of an identifier in a dialect whose placeholder is an escape. -/
def byIdentifier : Query :=
  { (Query.new { name := "escaping", placeholder := "\x011" } "objects" "Node") with
    tables := ["objects"], filters := ["objects.id = [[id]]"] }

/-- **A placeholder that is an escape is restored with the literals.** The statement is plain text
around one marker, but it is built with an opening bracket where the placeholder belongs. -/
theorem escaping_placeholder_restored :
    let pieces := [("SELECT objects.* FROM objects WHERE objects.id = ", "id")]
    byIdentifier.statement .find =
        interleave (pieces.map fun piece => (piece.1, insertBind piece.2)) "" ∧
      PlainTexts (textsOf pieces "") ∧ (∀ piece ∈ pieces, BindText piece.2) ∧
      (byIdentifier.build .find).sql = "SELECT objects.* FROM objects WHERE objects.id = [" ∧
      (byIdentifier.build .find).sql ≠
        interleave (pieces.map fun piece => (piece.1, byIdentifier.dialect.placeholder)) "" := by
  intro pieces
  have hbuilt : (byIdentifier.build .find).sql =
      "SELECT objects.* FROM objects WHERE objects.id = [" := by
    decide +kernel
  refine ⟨by decide +kernel, ⟨by decide +kernel, by decide +kernel, by decide +kernel⟩, ?_, hbuilt, ?_⟩
  · exact List.forall_mem_singleton.2 ⟨by decide +kernel, by decide +kernel⟩
  · rw [hbuilt]
    decide +kernel

end RelationSql.Query
