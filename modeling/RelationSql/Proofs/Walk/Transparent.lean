import RelationSql.Proofs.Grammar.Enclosed
import RelationSql.Proofs.Walk.Associative

/-!
# Sources and the same in parentheses

Parentheses around a source leave one node more in its tree, at whatever place they stand, and a node
that does nothing. So a source in parentheses compiles to the same query, or fails for the same reason
(`parentheses_transparent`).
-/

namespace RelationSql

open Grammar

/-- **Parentheses around a source are transparent.** Whatever the source is, it is parsed in parentheses
as it is on its own: alone, beside a relation, and at every place among other relations, however deep. And
every catalog compiles it to the same query, or fails for the same reason. -/
theorem parentheses_transparent {source : String} {t : Tree} (h : parse source = .ok (.node .query [t])) :
    parse ("(" ++ source ++ ")") = .ok (.node .query [.node .clausePar [t]]) ∧
      (∀ (name : String) (joint : Joint), IsName name →
        parse (name ++ joint.spelling ++ ("(" ++ source ++ ")")) =
            .ok (.node .query [.node joint.tag [.leaf .relation name, .node .clausePar [t]]]) ∧
          parse ("(" ++ source ++ ")" ++ joint.spelling ++ name) =
            .ok (.node .query [.node joint.tag [.node .clausePar [t], .leaf .relation name]])) ∧
      (∀ (least : Int) (place : Position), place.Fits least →
        parse (place.text source) = .ok (.node .query [place.tree t])) ∧
      ∀ (catalog : Catalog) (options : Options) (domain : String),
        SameCompile (catalog.compile options domain source)
          (catalog.compile options domain ("(" ++ source ++ ")")) := by
  have hplaces (least : Int) (place : Position) (hplace : place.Fits least) :
      parse (place.text source) = .ok (.node .query [place.tree t]) :=
    parse_of_isSeries (hplace.isSeries h)
  have halone := hplaces _ .here (.here (Int.le_refl _))
  refine ⟨halone, fun name joint hname => ?_, hplaces, fun catalog options domain => ?_⟩
  · have htight : tier joint.tag + 1 ≤ tier .scope := joint.tier_lt_scope
    have hloose : tier joint.tag ≤ tier .scope := Int.le_of_lt joint.tier_lt_scope
    exact ⟨hplaces _ (.behind name _ joint .here)
        (.behind (Int.le_refl _) (hname.isScoped.isSeries hloose) (.here htight)),
      hplaces _ (.before .here joint name _)
        (.before (Int.le_refl _) (.here hloose) (hname.isScoped.isSeries htight))⟩
  · exact sameCompile_of_parse h halone (renderWith_clausePar _ t).symm domain

/-- A source with a condition and an order, alone and two parentheses deep. -/
theorem parentheses_transparent_friends :
    parse "(friends where age > 3 order by age)" = .ok (.node .query [.node .clausePar
        [.node .order [.node .filter [.leaf .relation "friends",
          .node (.op .greater) [.leaf .field "age", .leaf .integer "3"]], .leaf .field "age"]]]) ∧
      parse "parents or (children from (friends where age > 3 order by age))" =
        .ok (.node .query [.node .clauseOr [.leaf .relation "parents", .node .clausePar
          [.node .from_ [.leaf .relation "children", .node .clausePar
            [.node .order [.node .filter [.leaf .relation "friends",
              .node (.op .greater) [.leaf .field "age", .leaf .integer "3"]], .leaf .field "age"]]]]]]) ∧
      SameCompile
        ((Catalog.addDomain people.domain {}).compile {} "people" "friends where age > 3 order by age")
        ((Catalog.addDomain people.domain {}).compile {} "people"
          "(friends where age > 3 order by age)") := by
  have hparse : parse "friends where age > 3 order by age" =
      .ok (.node .query [.node .order [.node .filter [.leaf .relation "friends",
        .node (.op .greater) [.leaf .field "age", .leaf .integer "3"]], .leaf .field "age"]]) := by
    decide +kernel
  have hparents : IsName "parents" := ⟨'p', "arents".toList, rfl, rfl⟩
  have hchildren : IsName "children" := ⟨'c', "hildren".toList, rfl, rfl⟩
  let place : Position := .behind "parents" (.leaf .relation "parents") .or
    (.enclosed (.behind "children" (.leaf .relation "children") .from_ .here))
  have hplace : place.Fits 0 :=
    .behind (by decide) (hparents.isScoped.isSeries (by decide))
      (.enclosed (by decide) (.behind (Int.le_refl _) (hchildren.isScoped.isSeries (by decide))
        (.here (by decide))))
  have htext : place.text "friends where age > 3 order by age" =
      "parents or (children from (friends where age > 3 order by age))" := by
    decide
  obtain ⟨halone, -, hplaces, hcompile⟩ := parentheses_transparent hparse
  have hnested := hplaces 0 place hplace
  rw [htext] at hnested
  exact ⟨halone, hnested, hcompile _ {} "people"⟩

end RelationSql
