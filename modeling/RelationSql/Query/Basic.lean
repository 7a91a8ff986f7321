import RelationSql.Dictionary
import RelationSql.Fragment.Literal
import RelationSql.Sql.Dialect
import RelationSql.Text.Scan

/-!
# Queries under construction

A query collects the tables, filters and clauses that the relations of a source contribute. It is
plain data: two queries are equal exactly if all their parts are.

Filters are kept in the order in which they were added and joined in the reverse order. The literals
in them stay protected until the query is rendered.
-/

namespace RelationSql

/-- A query under construction. -/
structure Query where
  dialect : Dialect
  /-- The table of the returned records. -/
  mainTable : String
  /-- The class of the returned records. -/
  mainClass : String
  /-- Table references in the order they were added. -/
  tables : List String := []
  /-- All aliases handed out for a table, in the order of use. -/
  tableAlias : Dictionary (List String) := .empty
  /-- Join clauses by the alias they are attached to. -/
  joinTables : Dictionary (List String) := .empty
  /-- The alias of a join by its name and the main alias it was made for. -/
  neededJoins : Dictionary (Dictionary String) := .empty
  /-- The alias of an index table by main alias, table and key. -/
  keyValueTables : Dictionary (Dictionary (Dictionary String)) := .empty
  /-- Conditions in the order they were added. -/
  filters : List String := []
  select : Option (List String) := none
  order : Option String := none
  group : Option String := none
  having : Option String := none
  limit : Option String := none
  offset : Option String := none
  /-- Must duplicates be removed? -/
  distinct : Bool := false
  /-- The expression of each selected key. -/
  attributes : Dictionary String := .empty
  /-- The declared type of selected keys. -/
  declaredTypes : Dictionary String := .empty
  /-- The parameter that numbers the pages. -/
  pageKey : Option String := none
  pageSize : Option Nat := none
  deriving DecidableEq, Inhabited

namespace Query

/-- The empty query over a table. -/
def new (dialect : Dialect) (mainTable mainClass : String) : Query :=
  { dialect, mainTable, mainClass }

/-- Adds a condition. -/
def addFilter (filter : String) (q : Query) : Query :=
  { q with filters := q.filters ++ [filter] }

/-- The conditions joined, the newest first, with literals still protected. -/
def joinedFilters (q : Query) : String :=
  Text.joinWith " AND " q.filters.reverse

/-- The body of the `WHERE` clause. -/
def condition (q : Query) : String :=
  Fragment.restoreText q.joinedFilters

/-- The selected keys in ascending order. -/
def selectedKeys (q : Query) : List String :=
  q.attributes.keys

/-- The type of a key that declares none. -/
def defaultType : String := "string"

/-- The type of a selected key. -/
def typeOf (q : Query) (key : String) : String :=
  q.declaredTypes.findD key defaultType

/-- The declared types, and the default type for every other selected key. -/
def types (q : Query) : Dictionary String :=
  q.selectedKeys.foldl (fun types key => types.insertNew key defaultType) q.declaredTypes

end Query

end RelationSql
