import Mathlib.Tactic.Common
import RelationSql.Catalog
import RelationSql.Proofs.Walk.Written

/-!
# Rendered conditions read back

A source that consists of a relation and a plain condition adds one filter. The filter, with its
literals brought back, is the condition of a source again, and that source is read into the wrapped
condition, regrouped (`filter_reads_back`). It is read into the wrapped condition itself exactly if no
upper bound of a `between` is a negated `between`: such a bound is written without a parenthesis, and
its `NOT` ends the outer `between`.
-/

namespace RelationSql

open Grammar Source WalkM

/-- A domain whose fields render as their names and that has no form of its own for equalities. -/
structure Domain.IsBare (domain : Domain) : Prop where
  field : ∀ host name, domain.field host name = pure (some name)
  equal : ∀ host left right, domain.equal host left right = pure none

/-- A host in the hands of a bare domain. -/
theorem bareFields_host {catalog : Catalog} {options : Options} (depth : Nat) {domain : Domain}
    (hbare : domain.IsBare) (hconnection : options.connection = none) {w : Walk}
    (hactive : catalog.domains.find? w.domain = some domain) :
    BareFields (catalog.host options (depth + 1)) w := by
  have hdomain := yields_activeDomain hactive
  refine ⟨?_, ?_, hconnection⟩
  · intro name
    refine hdomain.bind ?_
    rw [hbare.field]
    exact Yields.pure _ w
  · intro left right
    refine hdomain.bind ?_
    rw [hbare.equal]
    exact Yields.pure _ w

/-- The walk after a condition was added. -/
def Walk.withFilter (text : String) (w : Walk) : Walk :=
  { w with context := { w.context with phase := .filter }, query := w.query.addFilter text }

/-- A relation with a condition resolves the relation, then adds the condition as a filter. -/
theorem runFrom_filtered {host : Host} {name : String} {e : Tree} {w w₁ : Walk}
    (hrelation : (Clause.relation host name).runFrom w = (.ok (), w₁)) {text : String}
    (hcondition : Yields (renderWith host (pure ()) e)
      { w₁ with context := { w₁.context with phase := .filter } } text) :
    (renderWith host (pure ()) (filtered name e)).runFrom w = (.ok "", w₁.withFilter text) := by
  have hrelation' := runFrom_relationLeaf (pure ()) hrelation
  have hfilter : (Clause.filter [partOf host (pure ()) (.leaf .relation name),
      partOf host (pure ()) e]).runFrom w = (.ok (), w₁.withFilter text) := by
    have hfirst : (Part.renderChild .filter [partOf host (pure ()) (.leaf .relation name),
        partOf host (pure ()) e] 0).runFrom w = (.ok "", w₁) := hrelation'
    have hphase : (enterPhase .filter).runFrom w₁ =
        (.ok (), { w₁ with context := { w₁.context with phase := .filter } }) := rfl
    have hsecond : Yields (Part.renderChild .filter [partOf host (pure ()) (.leaf .relation name),
        partOf host (pure ()) e] 1) { w₁ with context := { w₁.context with phase := .filter } } text :=
      hcondition
    rw [Clause.filter, runFrom_bind_of_ok hfirst, runFrom_bind_of_ok hphase,
      runFrom_bind_of_ok hsecond]
    rfl
  have hnode : (partOf host (pure ()) (.node .filter [.leaf .relation name, e])).render.runFrom w =
      (.ok "", w₁.withFilter text) := by
    show (silently (Clause.filter [partOf host (pure ()) (.leaf .relation name),
      partOf host (pure ()) e])).runFrom w = _
    rw [silently, runFrom_bind_of_ok hfilter]
    rfl
  have hall : (Part.renderAll [partOf host (pure ()) (.node .filter [.leaf .relation name, e])]).runFrom
      w = (.ok [""], w₁.withFilter text) := by
    rw [Part.renderAll, runFrom_bind_of_ok hnode]
    rfl
  show (silently (renderRoot (pure ()) [partOf host (pure ())
    (.node .filter [.leaf .relation name, e])])).runFrom w = _
  rw [silently, renderRoot, bind_assoc, runFrom_bind_of_ok hall]
  rfl

/-- **A plain condition is added as a filter that reads back as the wrapped condition, regrouped; it
reads back as the wrapped condition itself exactly if the condition is regular.** -/
theorem filter_reads_back {catalog : Catalog} {options : Options} (depth : Nat) {domain : Domain}
    (hbare : domain.IsBare) (hconnection : options.connection = none) {source : String} {tree : Tree}
    (hplain : isPlain "a" (lex source) = true) (hparse : parse source = .ok tree) {w w₁ : Walk}
    (hrelation :
      (Clause.relation (catalog.host options (depth + 1)) "a").runFrom w = (.ok (), w₁))
    (hactive : catalog.domains.find? w₁.domain = some domain) :
    ∃ e text, tree = filtered "a" e ∧
      (renderWith (catalog.host options (depth + 1)) (pure ()) tree).runFrom w =
        (.ok "", w₁.withFilter text) ∧
      parse ("a where " ++ Fragment.restoreText text) = .ok (filtered "a" (regroup (wrapOr e))) ∧
      (parse ("a where " ++ Fragment.restoreText text) = .ok (filtered "a" (wrapOr e)) ↔
        isRegular e = true) := by
  have htokens : parseTokens (lex source) = .ok tree := by
    unfold parse at hparse
    split at hparse
    · next heq =>
      cases hparse
      exact heq
    · cases hparse
  obtain ⟨e, rfl, hcondition⟩ := condition_of_isPlain hplain standsFor_legible htokens
  have hkept := hcondition.belowKept fun t ht => wrapBelow_of_legible ht
  have hhost : BareFields (catalog.host options (depth + 1))
      { w₁ with context := { w₁.context with phase := .filter } } :=
    bareFields_host depth hbare hconnection hactive
  obtain ⟨text, hyields, plain, hrestores, hlays⟩ := (written_condition hhost hcondition).writes
  have hsource : "a where " ++ Fragment.restoreText text =
      String.ofList ("a where ".toList ++ plain) := by
    have hplain : Fragment.restore text.toList = plain := by
      have hrestored := hrestores []
      simpa [Fragment.restore] using hrestored
    rw [Fragment.restoreText, hplain, String.ofList_append, String.ofList_toList]
  have hback := parse_condition hkept.wrapped hlays
  rw [← hsource] at hback
  refine ⟨e, text, rfl, runFrom_filtered hrelation hyields, hback, ?_⟩
  rw [hback, ← hkept.regular_wrapOr, ← regroup_eq_self_iff]
  simp [filtered]

/-! ## A bare domain -/

/-- A domain that knows every relation and every field by its name. -/
def bareDomain : Domain where
  profile := { name := "a", mainTable := "letters", mainClass := "Letter" }
  relation := fun _ _ _ => pure true
  field := fun _ name => pure (some name)

/-- The catalog with the bare domain only. -/
def bareCatalog : Catalog :=
  Catalog.addDomain bareDomain {}

/-- The walk before a source is looked at. -/
def bareStart : Walk :=
  bareCatalog.start {} bareDomain

theorem isBare_bareDomain : bareDomain.IsBare where
  field := fun _ _ => rfl
  equal := fun _ _ _ => rfl

/-- An alternative with a negated list in it reads back. -/
theorem filter_reads_back_negated_list :
    ∃ e text, parse "a where x = 1 or b not in (2, 'c')" = .ok (filtered "a" e) ∧
      (renderWith (bareCatalog.host {} 1) (pure ()) (filtered "a" e)).runFrom bareStart =
        (.ok "", bareStart.withFilter text) ∧
      parse ("a where " ++ Fragment.restoreText text) = .ok (filtered "a" (regroup (wrapOr e))) ∧
      (parse ("a where " ++ Fragment.restoreText text) = .ok (filtered "a" (wrapOr e)) ↔
        isRegular e = true) := by
  have hplain : isPlain "a" (lex "a where x = 1 or b not in (2, 'c')") = true := by decide +kernel
  have hparse : parse "a where x = 1 or b not in (2, 'c')" = .ok (filtered "a"
      (.node (.op .or) [.node (.op .equal) [.leaf .field "x", .leaf .integer "1"],
        .node (.op .not) [.node (.op .in_) [.leaf .field "b",
          .node .par [.leaf .integer "2", .leaf .string "c"]]]])) := by decide +kernel
  have hrelation : (Clause.relation (bareCatalog.host {} 1) "a").runFrom bareStart =
      (.ok (), bareStart) := rfl
  obtain ⟨e, text, htree, hback⟩ :=
    filter_reads_back 0 isBare_bareDomain rfl hplain hparse hrelation rfl
  rw [htree] at hparse hback
  exact ⟨e, text, hparse, hback⟩

/-- **A negated `between` as an upper bound does not read back.** -/
theorem negated_bound_not_read_back :
    ∃ e text, parse "a where x between 1 and b not like c between 2 and 3" = .ok (filtered "a" e) ∧
      isPlain "a" (lex "a where x between 1 and b not like c between 2 and 3") = true ∧
      (renderWith (bareCatalog.host {} 1) (pure ()) (filtered "a" e)).runFrom bareStart =
        (.ok "", bareStart.withFilter text) ∧
      parse ("a where " ++ Fragment.restoreText text) ≠ .ok (filtered "a" (wrapOr e)) := by
  refine ⟨.node (.op .between) [.leaf .field "x", .leaf .integer "1", .node (.op .not)
    [.node (.op .between) [.node (.op .like) [.leaf .field "b", .leaf .field "c"],
      .leaf .integer "2", .leaf .integer "3"]]],
    "x BETWEEN 1 AND b LIKE c NOT BETWEEN 2 AND 3", by decide +kernel, by decide +kernel, rfl, ?_⟩
  have hback : parse "a where x BETWEEN 1 AND b LIKE c NOT BETWEEN 2 AND 3" = .ok (filtered "a"
      (.node (.op .not) [.node (.op .between) [.node (.op .between) [.leaf .field "x",
        .leaf .integer "1", .node (.op .like) [.leaf .field "b", .leaf .field "c"]],
        .leaf .integer "2", .leaf .integer "3"]])) := by decide +kernel
  have htext : "a where " ++ Fragment.restoreText "x BETWEEN 1 AND b LIKE c NOT BETWEEN 2 AND 3" =
      "a where x BETWEEN 1 AND b LIKE c NOT BETWEEN 2 AND 3" := by decide +kernel
  rw [htext, hback]
  simp [filtered, wrapOr, wrapBelow, wrapAll, parenthesised]

end RelationSql
