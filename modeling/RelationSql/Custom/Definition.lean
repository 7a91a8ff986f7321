import RelationSql.Dictionary

/-!
# Custom queries

A custom query replaces parts of the query that a relation would otherwise build. Every part is
optional. The clauses are given without the words they start with.
-/

namespace RelationSql

/-- The parts of a query that a custom query replaces. -/
structure CustomQuery where
  select : Option (List String) := none
  tables : Option (List String) := none
  /-- Join clauses by the table they are attached to. -/
  joinTables : Option (Dictionary (List String)) := none
  filters : Option (List String) := none
  order : Option String := none
  group : Option String := none
  having : Option String := none
  /-- Declared types of selected keys. -/
  types : Option (Dictionary String) := none
  mainClass : Option String := none
  mainTable : Option String := none
  deriving DecidableEq, Inhabited

end RelationSql
