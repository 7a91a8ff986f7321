import Mathlib.Data.List.Perm.Subperm
import RelationSql.Proofs.Query.Caches

/-!
# What a join adds

A join gives its table a name that no use of the table has (`joinAlias_not_mem`): the bare name, or the
first number that is free. It attaches one clause to one name, that of the occurrence that the table is
joined onto (`addJoin_of_new`). This is the newest use of the other table; a table that is joined onto
itself is joined onto the use that the join has just added (`joinOnto_self`).
-/

namespace RelationSql.Query

open RelationSql.Fragment (TableReference)

variable {q : Query} {table table1 table2 kind clause : String} {name : Option String}

/-! ## The first free number -/

/-- Among one number more than there are names taken, one is free. -/
theorem exists_free (table : String) (start : Nat) (taken : List String) :
    ∃ n, start ≤ n ∧ n < start + (taken.length + 1) ∧ numbered table n ∉ taken := by
  by_contra hnone
  have htaken : (List.range' start (taken.length + 1)).map (numbered table) ⊆ taken := by
    intro candidate hcandidate
    obtain ⟨n, hn, rfl⟩ := List.mem_map.1 hcandidate
    rw [List.mem_range'_1] at hn
    by_contra hfree
    exact hnone ⟨n, hn.1, hn.2, hfree⟩
  have hnodup : ((List.range' start (taken.length + 1)).map (numbered table)).Nodup :=
    (List.nodup_range' 1).map fun _ _ heq => numbered_inj heq
  have hlength := (hnodup.subperm htaken).length_le
  rw [List.length_map, List.length_range'] at hlength
  omega

/-- **The first free number is free, and those before it are taken.** -/
theorem firstFree_spec (table : String) (start : Nat) (taken : List String) :
    ∃ n, start ≤ n ∧ firstFree table start taken = numbered table n ∧ numbered table n ∉ taken ∧
      ∀ m, start ≤ m → m < n → numbered table m ∈ taken := by
  unfold firstFree
  dsimp only
  rw [List.find?_map]
  cases hfound : (List.range' start (taken.length + 1)).find?
      ((fun candidate => !taken.contains candidate) ∘ numbered table) with
  | none =>
    obtain ⟨n, hstart, hend, hfree⟩ := exists_free table start taken
    have htaken := List.find?_range'_eq_none.1 hfound n hstart (by omega)
    simp [hfree] at htaken
  | some n =>
    obtain ⟨hfree, hmem, hbefore⟩ := List.find?_range'_eq_some.1 hfound
    refine ⟨n, (List.mem_range'_1.1 hmem).1, rfl, by simpa using hfree, fun m hm hlt => ?_⟩
    simpa using hbefore m hm hlt

/-! ## The name of a joined table -/

/-- A joined table has its bare name on its first use, and else the first free number. -/
theorem joinAlias_cases (q : Query) (table : String) :
    (q.aliases table = [] ∧ table ∉ q.tables ∧ q.joinAlias table = table) ∨
      ∃ n, (q.aliases table).length ≤ n ∧ q.joinAlias table = numbered table n ∧
        numbered table n ∉ q.aliases table ∧
        ∀ m, max (q.aliases table).length 1 ≤ m → m < n → numbered table m ∈ q.aliases table := by
  unfold joinAlias
  dsimp only
  split
  · next hfirst =>
    rw [Bool.and_eq_true, List.isEmpty_iff] at hfirst
    exact .inl ⟨hfirst.1, by simpa using hfirst.2, rfl⟩
  · obtain ⟨n, hstart, heq, hfree, hbefore⟩ :=
      firstFree_spec table (max (q.aliases table).length 1) (q.aliases table)
    exact .inr ⟨n, by omega, heq, hfree, hbefore⟩

/-- **A joined table gets a name that none of its uses has.** -/
theorem joinAlias_not_mem (q : Query) (table : String) : q.joinAlias table ∉ q.aliases table := by
  rcases joinAlias_cases q table with ⟨hempty, -, -⟩ | ⟨n, -, heq, hfree, -⟩
  · simp [hempty]
  · rwa [heq]

theorem isNameOf_joinAlias (q : Query) (table : String) : IsNameOf table (q.joinAlias table) := by
  rcases joinAlias_cases q table with ⟨-, -, heq⟩ | ⟨n, -, heq, -, -⟩
  · exact .inl heq
  · exact .inr ⟨n, heq⟩

/-! ## Recording a name -/

/-- The newest name of a table is one of its names. -/
theorem alias?_zero_ne {name : String} (h : name ∉ q.aliases table) : q.alias? table 0 ≠ some name := by
  rw [alias?_zero]
  exact fun hlast => h (List.mem_of_getLast? hlast)

theorem aliases_recordAlias (table given : String) (q : Query) :
    (q.recordAlias table given).aliases table = q.aliases table ++ [given] := by
  simp [recordAlias, aliases, Dictionary.findD, Dictionary.find?_insert_self]

theorem aliases_recordAlias_of_ne {other : String} (h : table ≠ other) (given : String) (q : Query) :
    (q.recordAlias table given).aliases other = q.aliases other := by
  simp [recordAlias, aliases, Dictionary.findD, Dictionary.find?_insert_ne _ _ h]

/-! ## The clause of a join -/

/-- The name of the occurrence that a table is joined onto, once the name of the joined table is
recorded. -/
def joinOnto (q : Query) (table1 table2 : String) : String :=
  ((q.recordAlias table2 (q.joinAlias table2)).alias? table1 0).getD table1

/-- The clause that joins a table under its alias. -/
def joinClause (kind table2 clause first second : String) : String :=
  kind ++ " JOIN " ++ TableReference.write ⟨table2, second⟩ ++ " ON " ++ joinCondition clause first second

/-- A table that is joined onto itself is joined onto the use that the join adds. -/
theorem joinOnto_self (q : Query) (table : String) : q.joinOnto table table = q.joinAlias table := by
  rw [joinOnto, alias?_zero, aliases_recordAlias, List.getLast?_concat, Option.getD_some]

/-- A table is joined onto the newest use of another one. -/
theorem joinOnto_of_ne (h : table1 ≠ table2) (q : Query) :
    q.joinOnto table1 table2 = (q.alias? table1 0).getD table1 := by
  rw [joinOnto, alias?_zero, alias?_zero, aliases_recordAlias_of_ne (Ne.symm h)]

/-- A join that was made before is answered with its name. -/
theorem addJoin_of_needed {second : String}
    (h : q.neededJoin? (name.getD (joinName table1 kind table2)) = some second) :
    q.addJoin table1 kind table2 clause name = (second, q) := by
  unfold addJoin
  dsimp only
  rw [h]

/-- **What a new join adds to a query**: the name of its table, a clause, and the record of the join. -/
theorem addJoin_of_new (h : q.neededJoin? (name.getD (joinName table1 kind table2)) = none) :
    q.addJoin table1 kind table2 clause name =
      (q.joinAlias table2,
        ((q.recordAlias table2 (q.joinAlias table2)).addClause (q.joinOnto table1 table2)
          (joinClause kind table2 clause (q.joinOnto table1 table2) (q.joinAlias table2))).recordJoin
            (name.getD (joinName table1 kind table2)) q.currentTable (q.joinAlias table2)) := by
  unfold addJoin
  dsimp only
  rw [h]
  rfl

end RelationSql.Query
