import Mathlib.Algebra.GroupWithZero.Action.Defs
import Mathlib.Algebra.GroupWithZero.Nat
import Mathlib.Algebra.Order.BigOperators.Group.List
import Mathlib.Algebra.Order.Group.Nat
import RelationSql.Proofs.Query.Binds

/-!
# Placeholders and values

A statement is rendered with placeholders and a list of binds (`Query.build`), or with the values of
the binds in their places (`Query.sqlWith`). The two agree (`ConsumersAgree`) if the second is the
first with values put in the places of its placeholders (`withValues`).

Both take the same markers out of the statement, but they do not restore the same texts. The list of
binds is restored and the expression that is looked up is not, so they differ on every expression with
a protected literal in it. The text with placeholders is restored as a whole and the text with values
in pieces, so they differ, too, if a placeholder takes part in an escape. These are the only two cases
(`consumersAgree_iff`).
-/

namespace RelationSql.Query

open RelationSql.Fragment

/-! ## What the two consumers should agree on -/

/-- Puts the literal of each bind's value behind its text. Binds are looked up in their order, and the
first one without a value is reported. -/
def withValues (quote : Quoting) (bindings : Bindings) :
    List (String × String) → String → Except CompileError String
  | [], last => .ok last
  | (text, bind) :: pieces, last =>
    match bindings bind with
    | none => .error (.unboundValue bind)
    | some value =>
      (withValues quote bindings pieces last).map fun rest => text ++ quoteBound quote value ++ rest

/-- Is the statement with values the one with placeholders, with the literal of the `i`-th listed bind
in the place of the `i`-th placeholder, whatever the values are and however they are quoted? -/
def ConsumersAgree (q : Query) (kind : StatementKind) : Prop :=
  ∃ (pieces : List (String × String)) (last : String),
    (q.build kind).binds = pieces.map Prod.snd ∧
    (q.build kind).sql = interleave (pieces.map fun piece => (piece.1, q.dialect.placeholder)) last ∧
    ∀ quote bindings, q.sqlWith quote bindings kind = withValues quote bindings pieces last

/-- If every bind has a value, its literal stands in its place. -/
theorem withValues_of_bound (quote : Quoting) (value : String → Value)
    (pieces : List (String × String)) (last : String) :
    withValues quote (fun bind => some (value bind)) pieces last =
      .ok (interleave (pieces.map fun piece => (piece.1, quoteBound quote (value piece.2))) last) := by
  induction pieces with
  | nil => rfl
  | cons piece pieces ih =>
    rw [withValues, ih]
    rfl

/-! ## What each consumer does -/

/-- The texts of a cut restored one by one, each with the expression behind it. -/
def restoredPieces (parts : Cut) : List (String × String) :=
  parts.markers.map fun marker => (String.ofList (restore marker.1), String.ofList marker.2)

/-- The last text of a cut, restored. -/
def restoredLast (parts : Cut) : String :=
  String.ofList (restore parts.tail)

/-- Filling markers one after the other puts values behind their restored texts. -/
theorem mapM_fillMarker (quote : Quoting) (bindings : Bindings)
    (markers : List (List Char × List Char)) (tail : List Char) :
    ((markers.mapM (fillMarker bindings quote)).map fun filled =>
        String.ofList (filled.flatten ++ restore tail)) =
      withValues quote bindings (restoredPieces ⟨markers, tail⟩) (restoredLast ⟨markers, tail⟩) := by
  induction markers with
  | nil => rfl
  | cons marker markers ih =>
    have hpieces : restoredPieces ⟨marker :: markers, tail⟩ =
        (String.ofList (restore marker.1), String.ofList marker.2) ::
          restoredPieces ⟨markers, tail⟩ := rfl
    rw [List.mapM_cons, hpieces, withValues, fillMarker]
    cases bindings (String.ofList marker.2) with
    | none => rfl
    | some value =>
      change _ = Except.map _ (withValues quote bindings (restoredPieces ⟨markers, tail⟩)
        (restoredLast ⟨markers, tail⟩))
      rw [← ih]
      cases markers.mapM (fillMarker bindings quote) with
      | error fault => rfl
      | ok filled =>
        apply congrArg Except.ok
        rw [← String.toList_inj]
        simp

/-- **The statement with values looks up the expressions as they stand in their markers.** -/
theorem sqlWith_eq_withValues (q : Query) (quote : Quoting) (bindings : Bindings)
    (kind : StatementKind) :
    let parts := cut (q.statement kind).toList
    q.sqlWith quote bindings kind =
      withValues quote bindings (restoredPieces parts) (restoredLast parts) := by
  intro parts
  rw [← mapM_fillMarker]
  rfl

/-- The listed binds are the expressions of the markers, restored. -/
theorem binds_build (q : Query) (kind : StatementKind) :
    (q.build kind).binds =
      (cut (q.statement kind).toList).expressions.map fun expression =>
        String.ofList (restore expression) :=
  rfl

/-- **The statement with placeholders is restored as a whole.** -/
theorem toList_sql_build (q : Query) (kind : StatementKind) :
    (q.build kind).sql.toList =
      restore ((cut (q.statement kind).toList).fill q.dialect.placeholder.toList) :=
  String.toList_ofList

/-! ## Where they agree -/

/-- The length of a text with fillings. -/
theorem length_interleave (pieces : List (String × String)) (last : String) :
    (interleave pieces last).length =
      (pieces.map fun piece => piece.1.length).sum + (pieces.map fun piece => piece.2.length).sum +
        last.length := by
  induction pieces with
  | nil => simp
  | cons piece pieces ih =>
    simp only [interleave_cons, String.length_append, ih, List.map_cons, List.sum_cons]
    omega

/-- Restoring expressions keeps their total length only if it keeps each of them. -/
theorem forall_of_sum_restore {expressions : List (List Char)}
    (h : (expressions.map fun expression => (restore expression).length).sum =
      (expressions.map List.length).sum) :
    ∀ expression ∈ expressions, ¬ HoldsEscape expression := by
  induction expressions with
  | nil => simp
  | cons expression expressions ih =>
    have hle : (expressions.map fun expression => (restore expression).length).sum ≤
        (expressions.map List.length).sum :=
      List.sum_le_sum fun expression _ => length_restore_le expression
    have hfirst := length_restore_le expression
    simp only [List.map_cons, List.sum_cons] at h
    rw [List.forall_mem_cons, ← length_restore_eq_iff]
    exact ⟨by omega, ih (by omega)⟩

/-- The value that stands for its own bind. -/
def echo (bind : String) : Value :=
  .text bind

/-- Quotes a text as it stands. -/
def verbatim : Quoting
  | .text content => content
  | _ => ""

/-- The cut with its texts restored one by one. -/
def restoredTexts (parts : Cut) : Cut :=
  ⟨parts.markers.map fun marker => (restore marker.1, marker.2), restore parts.tail⟩

/-- The restored pieces with one filling between them. -/
theorem toList_restoredPieces (filling : String) (parts : Cut) :
    (interleave ((restoredPieces parts).map fun piece => (piece.1, filling))
        (restoredLast parts)).toList = (restoredTexts parts).fill filling.toList := by
  rw [toList_interleave_const]
  simp [cutOf, restoredPieces, restoredLast, restoredTexts, Cut.fill, List.flatMap_map]

/-- If the consumers agree, no bind holds an escape: with every value its own bind, the statement
with values would be longer than the one with the listed binds. -/
theorem not_holdsEscape_of_agree {q : Query} {kind : StatementKind} (h : q.ConsumersAgree kind) :
    ∀ expression ∈ (cut (q.statement kind).toList).expressions, ¬ HoldsEscape expression := by
  obtain ⟨pieces, last, hbinds, -, hvalues⟩ := h
  have hlength (quote : Quoting) := congrArg (Except.map String.length)
    (hvalues quote fun bind => some (echo bind))
  simp only [sqlWith_eq_withValues, withValues_of_bound, Except.map, Except.ok.injEq,
    length_interleave, List.map_map, Function.comp_def] at hlength
  -- with empty values the texts have one length, with the binds themselves the binds have
  have htexts := hlength fun _ => ""
  have hechoed := hlength verbatim
  have hlisted := congrArg (fun binds => (binds.map String.length).sum) hbinds
  simp only [binds_build, List.map_map, Function.comp_def, String.length_ofList] at hlisted
  have hraw : ((restoredPieces (cut (q.statement kind).toList)).map fun piece =>
      piece.2.length) = (cut (q.statement kind).toList).expressions.map List.length := by
    simp [restoredPieces, Cut.expressions]
  apply forall_of_sum_restore
  simp only [quoteBound, echo, verbatim, String.length_empty, hraw, List.map_const',
    List.sum_replicate, smul_zero] at htexts hechoed
  omega

/-- If the consumers agree, restoring the whole text is restoring its pieces: with every value its own
placeholder, the two texts are one. -/
theorem restore_fill_of_agree {q : Query} {kind : StatementKind} (h : q.ConsumersAgree kind) :
    let parts := cut (q.statement kind).toList
    restore (parts.fill q.dialect.placeholder.toList) =
      (restoredTexts parts).fill q.dialect.placeholder.toList := by
  obtain ⟨pieces, last, -, hsql, hvalues⟩ := h
  intro parts
  have hplaces := hvalues (fun _ => q.dialect.placeholder) (fun bind => some (echo bind))
  rw [sqlWith_eq_withValues, withValues_of_bound, withValues_of_bound, Except.ok.injEq] at hplaces
  rw [← toList_sql_build, ← toList_restoredPieces, hsql]
  exact congrArg String.toList hplaces.symm

/-- The consumers agree if no marker holds an escape and no placeholder takes part in one. -/
theorem consumersAgree_of_kept {q : Query} {kind : StatementKind}
    (hbinds : ∀ expression ∈ (cut (q.statement kind).toList).expressions,
      ¬ HoldsEscape expression)
    (htext : restore ((cut (q.statement kind).toList).fill q.dialect.placeholder.toList) =
      (restoredTexts (cut (q.statement kind).toList)).fill q.dialect.placeholder.toList) :
    q.ConsumersAgree kind := by
  refine ⟨restoredPieces (cut (q.statement kind).toList),
    restoredLast (cut (q.statement kind).toList), ?_, ?_, ?_⟩
  · rw [binds_build, restoredPieces, List.map_map, Cut.expressions, List.map_map]
    apply List.map_congr_left
    intro marker hmarker
    have hkept := hbinds marker.2 (List.mem_map_of_mem hmarker)
    simp [(restore_eq_self_iff marker.2).2 hkept]
  · rw [← String.toList_inj, toList_sql_build, toList_restoredPieces]
    exact htext
  · intro quote bindings
    exact sqlWith_eq_withValues q quote bindings kind

/-- A placeholder that takes part in no escape: it starts with a character that ends none and does not
hold the escape character. -/
structure PlainPlaceholder (placeholder : String) : Prop where
  starts : ∃ c rest, placeholder.toList = c :: rest ∧ c ≠ '0' ∧ c ≠ '1'
  unescaped : escape ∉ placeholder.toList

/-- The placeholder of every dialect that names none of its own is plain. -/
theorem plainPlaceholder_default : PlainPlaceholder "?" :=
  ⟨⟨'?', [], by decide⟩, by decide⟩

/-- A text with plain placeholders is restored piece by piece. -/
theorem restore_fill {placeholder : String} (h : PlainPlaceholder placeholder) (parts : Cut) :
    restore (parts.fill placeholder.toList) = (restoredTexts parts).fill placeholder.toList := by
  obtain ⟨c, rest, hstarts, hzero, hone⟩ := h.starts
  have hfront (text behind : List Char) :
      restore (text ++ (placeholder.toList ++ behind)) =
        restore text ++ (placeholder.toList ++ restore behind) := by
    rw [← restore_append_of_not_mem h.unescaped, hstarts, List.cons_append,
      restore_append_cons hzero hone]
  obtain ⟨markers, tail⟩ := parts
  induction markers with
  | nil => rfl
  | cons marker markers ih =>
    simp only [Cut.fill, restoredTexts, List.flatMap_cons, List.map_cons,
      List.append_assoc] at ih ⊢
    rw [hfront, ih]

/-- **When the two consumers agree.** The expressions that are looked up are the listed binds exactly if
no marker holds an escape, and the texts around them are the same exactly if no placeholder takes part
in one. For a plain placeholder only the markers matter. -/
theorem consumersAgree_iff (q : Query) (kind : StatementKind) :
    let parts := cut (q.statement kind).toList
    (q.ConsumersAgree kind ↔
      (∀ expression ∈ parts.expressions, ¬ HoldsEscape expression) ∧
        restore (parts.fill q.dialect.placeholder.toList) =
          (restoredTexts parts).fill q.dialect.placeholder.toList) ∧
      (PlainPlaceholder q.dialect.placeholder →
        (q.ConsumersAgree kind ↔ ∀ expression ∈ parts.expressions, ¬ HoldsEscape expression)) := by
  intro parts
  refine ⟨⟨fun h => ⟨not_holdsEscape_of_agree h, restore_fill_of_agree h⟩,
    fun h => consumersAgree_of_kept h.1 h.2⟩, ?_⟩
  intro hplaceholder
  exact ⟨not_holdsEscape_of_agree,
    fun h => consumersAgree_of_kept h (restore_fill hplaceholder parts)⟩

/-- The consumers agree on binds that hold brackets but no escape. -/
theorem oneOfTwo_agree : oneOfTwo.ConsumersAgree .find :=
  ((consumersAgree_iff oneOfTwo .find).2 plainPlaceholder_default).2 (by decide +kernel)

/-- A query with a literal in the expression of its bind, as it is left by a domain that makes a bind
of the argument of a call: the bracket of the literal is protected. -/
def boundLiteral : Query :=
  { (Query.new .generic "objects" "Node") with
    tables := ["objects"], filters := ["objects.name = [['\x011x]']]"] }

/-- **A listed bind is not found.** The only bind is listed as `'[x]'`. With a value for just this bind,
the statement with values fails, and the error does not name the listed bind. -/
theorem listed_bind_not_found :
    (boundLiteral.build .find).binds = ["'[x]'"] ∧
      boundLiteral.sql (fun bind => if bind = "'[x]'" then some (.text "v") else none) .find =
        .error (.unboundValue "'\x011x]'") ∧
      ¬ boundLiteral.ConsumersAgree .find := by
  have hcut : cut (boundLiteral.statement .find).toList =
      ⟨[("SELECT objects.* FROM objects WHERE objects.name = ".toList, "'\x011x]'".toList)], []⟩ := by
    decide +kernel
  refine ⟨by decide +kernel, ?_, fun hagree => ?_⟩
  · rw [sql, sqlWith_eq_withValues, hcut]
    rfl
  · have hmarker := not_holdsEscape_of_agree hagree "'\x011x]'".toList
    rw [hcut] at hmarker
    exact hmarker (List.mem_singleton_self _) (by decide +kernel)

end RelationSql.Query
