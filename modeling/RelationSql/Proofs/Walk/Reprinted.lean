import Mathlib.Tactic.Common
import RelationSql.Proofs.Walk.Printed
import RelationSql.Proofs.Walk.ReadBack

/-!
# Operators in front of their operands read back

A source that consists of a relation and a phrase adds one filter, which shows the shape of the phrase: `!` is
written as `not` and goes into `like`, `regexp`, `in` and `between`, and no parentheses are added but those
around alternatives. So the filter is read back as the shape of the phrase exactly if all operators of the
shape are in their seats (`prefixes_read_back`). An operator in front of its operand may be moved out of its
seat by the rendering: `!x = 1` negates `x`, while `NOT x = 1` negates the equality.
-/

namespace RelationSql

open Grammar Source WalkM

/-- Are the tokens those of a relation with a phrase? -/
def isPhrase (name : String) : List Token → Bool
  | relation :: where_ :: rest =>
    relation.kind == .name name && where_.kind == .keyword .where_ && phraseOperand rest &&
      rest.all fun token => isProse token.kind
  | _ => false

/-- A source that parses has tokens that do. -/
theorem parseTokens_of_parse {source : String} {tree : Tree} (h : parse source = .ok tree) :
    parseTokens (lex source) = .ok tree := by
  unfold parse at h
  split at h
  · next heq =>
    cases h
    exact heq
  · cases h

/-- What a phrase is parsed into was derived for words of the source. -/
theorem derives_of_isPhrase {name source : String} {tree : Tree} (h : isPhrase name (lex source) = true)
    (hparse : parse source = .ok tree) :
    ∃ e words, tree = filtered name e ∧ Derives (tier .filter) 0 (.tree e) words ∧
      ∀ token ∈ words, token ∈ lex source ∧ isProse token.kind = true := by
  have htokens := parseTokens_of_parse hparse
  unfold isPhrase at h
  split at h
  · next relation where_ rest hlex =>
    simp only [Bool.and_eq_true, beq_iff_eq, List.all_eq_true] at h
    obtain ⟨⟨⟨hrelation, hwhere⟩, hphrase⟩, hprose⟩ := h
    rw [hlex] at htokens
    obtain ⟨e, words, last, hwords, htree, hderives⟩ :=
      understood_of_parseTokens hrelation hwhere hphrase htokens
    refine ⟨e, words, htree, hderives, fun token htoken => ?_⟩
    have hrest : token ∈ rest := by
      rw [← hwords]
      exact List.mem_append_left _ htoken
    rw [hlex]
    exact ⟨List.mem_cons_of_mem _ (List.mem_cons_of_mem _ hrest), hprose token hrest⟩
  · cases h

/-- A restored text behind another one. -/
theorem append_restoreText {text : String} {plain : List Char} (h : Restores text.toList plain) (front : String) :
    front ++ Fragment.restoreText text = String.ofList (front.toList ++ plain) := by
  have hplain : Fragment.restore text.toList = plain := by
    have hrestored := h []
    simpa [Fragment.restore] using hrestored
  rw [Fragment.restoreText, hplain, String.ofList_append, String.ofList_toList]

/-- **A phrase is added as a filter that reads back as the shape of the phrase exactly if all operators of the
shape are in their seats.** -/
theorem prefixes_read_back {catalog : Catalog} {options : Options} (depth : Nat) {domain : Domain}
    (hbare : domain.IsBare) (hconnection : options.connection = none) {source : String} {tree : Tree}
    (hphrase : isPhrase "a" (lex source) = true) (hparse : parse source = .ok tree) {w w₁ : Walk}
    (hrelation :
      (Clause.relation (catalog.host options (depth + 1)) "a").runFrom w = (.ok (), w₁))
    (hactive : catalog.domains.find? w₁.domain = some domain) :
    ∃ e text, tree = filtered "a" e ∧
      (renderWith (catalog.host options (depth + 1)) (pure ()) tree).runFrom w =
        (.ok "", w₁.withFilter text) ∧
      (parse ("a where " ++ Fragment.restoreText text) = .ok (filtered "a" (wrapOr (settled e))) ↔
        sits (tier .filter) (wrapOr (settled e)) = true) := by
  obtain ⟨e, words, rfl, hderives, hwords⟩ := derives_of_isPhrase hphrase hparse
  have hhost : BareFields (catalog.host options (depth + 1))
      { w₁ with context := { w₁.context with phase := .filter } } :=
    bareFields_host depth hbare hconnection hactive
  have hprinted : Printed (catalog.host options (depth + 1)) (pure ()) _ _ e := hderives.printed hhost hwords
  obtain ⟨text, hyields, plain, hrestores, hlaid⟩ := hprinted.shown
  -- the text is read into tokens that show the shape of the phrase, whatever they are parsed into
  obtain ⟨relation, where_, shown, last, hname, hwhere, hshown, hlast, hback⟩ :=
    parse_laidOut hlaid fun _ hshown => hshown.1.isLast_eq_false
  refine ⟨e, text, rfl, runFrom_filtered hrelation hyields, ?_⟩
  rw [append_restoreText hrestores, hback]
  exact hshown.1.parseTokens_iff hname hwhere hlast

/-- Negations in front of a parenthesis and of a `like`, and signs, read back. -/
theorem prefixes_read_back_signs :
    ∃ e text, parse "a where !(x = 1) and not y like 'b' or z < - 2 * -v" = .ok (filtered "a" e) ∧
      (renderWith (bareCatalog.host {} 1) (pure ()) (filtered "a" e)).runFrom bareStart =
        (.ok "", bareStart.withFilter text) ∧
      parse ("a where " ++ Fragment.restoreText text) = .ok (filtered "a" (wrapOr (settled e))) := by
  have hphrase : isPhrase "a" (lex "a where !(x = 1) and not y like 'b' or z < - 2 * -v") = true := by decide +kernel
  have hparse : parse "a where !(x = 1) and not y like 'b' or z < - 2 * -v" = .ok (filtered "a"
      (.node (.op .or) [.node (.op .and) [.node (.op .bang) [.node .par [.node (.op .equal)
        [.leaf .field "x", .leaf .integer "1"]]], .node (.op .not) [.node (.op .like)
          [.leaf .field "y", .leaf .string "b"]]], .node (.op .less) [.leaf .field "z",
            .node (.op .times) [.node (.op .changeSign) [.leaf .integer "2"],
              .node (.op .changeSign) [.leaf .field "v"]]]])) := by decide +kernel
  have hrelation : (Clause.relation (bareCatalog.host {} 1) "a").runFrom bareStart =
      (.ok (), bareStart) := rfl
  obtain ⟨e, text, htree, hrender, hback⟩ :=
    prefixes_read_back 0 isBare_bareDomain rfl hphrase hparse hrelation rfl
  rw [htree] at hparse hrender
  simp only [filtered, Tree.node.injEq, List.cons.injEq, and_true, true_and] at htree
  refine ⟨e, text, hparse, hrender, hback.2 ?_⟩
  rw [← htree]
  decide +kernel

/-- **A `!` in front of an operand of an equality does not read back.** -/
theorem negated_operand_not_read_back :
    ∃ e text, parse "a where !x = 1" = .ok (filtered "a" e) ∧ isPhrase "a" (lex "a where !x = 1") = true ∧
      (renderWith (bareCatalog.host {} 1) (pure ()) (filtered "a" e)).runFrom bareStart =
        (.ok "", bareStart.withFilter text) ∧
      parse ("a where " ++ Fragment.restoreText text) ≠ .ok (filtered "a" (wrapOr (settled e))) := by
  refine ⟨.node (.op .equal) [.node (.op .bang) [.leaf .field "x"], .leaf .integer "1"], "NOT x = 1", by decide +kernel,
    by decide +kernel, rfl, ?_⟩
  have hback : parse "a where NOT x = 1" = .ok (filtered "a" (.node (.op .not) [.node (.op .equal)
      [.leaf .field "x", .leaf .integer "1"]])) := by decide +kernel
  have htext : "a where " ++ Fragment.restoreText "NOT x = 1" = "a where NOT x = 1" := by decide +kernel
  have hwanted : wrapOr (settled (.node (.op .equal) [.node (.op .bang) [.leaf .field "x"],
      .leaf .integer "1"])) = .node (.op .equal) [.node (.op .not) [.leaf .field "x"],
        .leaf .integer "1"] := by decide +kernel
  rw [htext, hback, hwanted]
  simp [filtered]

end RelationSql
