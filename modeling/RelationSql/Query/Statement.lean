import RelationSql.Error
import RelationSql.Fragment.Clause
import RelationSql.Fragment.Marker
import RelationSql.Fragment.TableReference
import RelationSql.Query.Alias
import RelationSql.Query.Select
import RelationSql.Text.Ascending

/-!
# Statements

A query is rendered as a statement that finds its records or counts them. The table references stand
in ascending order, each with the joins attached to it, so the order in which tables were added does
not show.

The rendered text still holds markers and protected literals. `build` takes the markers out and lists
their expressions; `sqlWith` puts values in their place.
-/

namespace RelationSql.Query

open RelationSql.Fragment RelationSql.Text

/-- The kind of a statement. -/
inductive StatementKind where
  /-- A statement that yields the records. -/
  | find
  /-- A statement that counts them. -/
  | count
  deriving DecidableEq, Repr, Inhabited

/-! ## Parts of a statement -/

/-- A table reference with the joins attached to the alias it declares. -/
def withJoins (q : Query) (reference : String) : String :=
  match q.joinTables.findD (declaredName reference) [] with
  | [] => reference
  | joins => reference ++ " " ++ joinWith " " joins

/-- The table references with their joins, in ascending order. -/
def tableList (q : Query) : String :=
  joinWith "," (ascending (q.tables.map q.withJoins))

/-- The `WHERE` clause. -/
def whereClause (q : Query) : String :=
  if q.filters.isEmpty then "" else " WHERE " ++ q.joinedFilters

/-- The column by which duplicates of the returned records are recognised. -/
def distinctKey (q : Query) : String :=
  if 1 < q.tables.length then q.mainTable ++ ".id" else "id"

/-- The columns of `DISTINCT ON`: the key and, as the engine demands, the columns of the order. -/
def distinctOnKeys (q : Query) : String :=
  joinWith "," (q.distinctKey :: (orderKeys (q.order.getD "").toList).map String.ofList)

/-- Must the statement remove duplicates by itself? -/
def deduplicates (q : Query) : Bool :=
  q.group.isNone && q.distinct

/-- The word after `SELECT` that removes duplicates. -/
def distinctClause (q : Query) : String :=
  if q.deduplicates && q.dialect.distinctOn then " DISTINCT ON (" ++ q.distinctOnKeys ++ ")" else ""

/-- The `GROUP BY` clause: the query's own, or one that removes duplicates. -/
def groupClause (q : Query) : String :=
  if q.deduplicates && !q.dialect.distinctOn then " GROUP BY " ++ q.distinctKey
  else q.group.getD ""

/-- The statement that yields the records. -/
def findStatement (q : Query) : String :=
  "SELECT" ++ q.distinctClause ++ " " ++ joinWith "," q.selectItems ++ " FROM " ++ q.tableList ++
    q.whereClause ++ q.groupClause ++ q.having.getD "" ++ q.order.getD "" ++ q.limit.getD "" ++
    q.offset.getD ""

/-- The fields of the group, each with a value for its missing values, which would not be counted. -/
def countedFields (body : List Char) : String :=
  joinWith ","
    ((listItems body).map fun field =>
      "COALESCE(" ++ String.ofList (trimBy isBlank field) ++ ",0)")

/-- What the counting statement counts. -/
def counted (q : Query) : String :=
  match q.group.bind fun group => groupBody? group.toList with
  | some body => "COUNT(DISTINCT " ++ countedFields body ++ ")"
  | none =>
    if q.distinct then "COUNT(DISTINCT " ++ q.currentTable ++ ".id)" else "COUNT(*)"

/-- The statement that counts the records. -/
def countStatement (q : Query) : String :=
  "SELECT " ++ q.counted ++ " FROM " ++ q.tableList ++ q.whereClause

/-- The text of a statement with its markers and protected literals. -/
def statement (q : Query) : StatementKind → String
  | .find => q.findStatement
  | .count => q.countStatement

/-! ## Placeholders -/

/-- A statement with placeholders, and the expressions they stand for in the order of the text. -/
structure Built where
  sql : String
  binds : List String
  deriving DecidableEq, Repr, Inhabited

/-- Renders a statement with placeholders. -/
def build (q : Query) (kind : StatementKind) : Built :=
  let parts := cut (q.statement kind).toList
  ⟨String.ofList (restore (parts.fill q.dialect.placeholder.toList)),
    parts.expressions.map fun expression => String.ofList (restore expression)⟩

/-- A text in double quotes. -/
def quoteSql (text : String) : String :=
  let escaped := text.toList.flatMap fun c => if c = '\\' ∨ c = '"' then ['\\', c] else [c]
  String.ofList ('"' :: escaped ++ ['"'])

/-- The statement in quotes; with binds, a list of it and the binds. -/
def Built.text (built : Built) : String :=
  match built.binds with
  | [] => quoteSql built.sql
  | binds => "[" ++ joinWith ", " (quoteSql built.sql :: binds) ++ "]"

/-! ## Values -/

/-- The literal of a bound value. A list is expanded into the literals of its elements. -/
def quoteBound (quote : Quoting) : Value → String
  | .list [] => quote .null
  | .list items => joinWith "," (items.map quote)
  | value => quote value

/-- The text of a marker's place: what stands before it, and the literal of its value. -/
def fillMarker (bindings : Bindings) (quote : Quoting) (marker : List Char × List Char) :
    Except CompileError (List Char) :=
  match bindings (String.ofList marker.2) with
  | some value => .ok (restore marker.1 ++ (quoteBound quote value).toList)
  | none => .error (.unboundValue (String.ofList marker.2))

/-- Renders a statement with values in the place of its binds. Inserted values are not looked at
again. -/
def sqlWith (q : Query) (quote : Quoting) (bindings : Bindings) (kind : StatementKind) :
    Except CompileError String := do
  -- the markers are found once, before any value stands in the text
  let parts := cut (q.statement kind).toList
  let filled ← parts.markers.mapM (fillMarker bindings quote)
  return String.ofList (filled.flatten ++ restore parts.tail)

/-- Renders a statement with values written as the dialect does. -/
def sql (q : Query) (bindings : Bindings) (kind : StatementKind) : Except CompileError String :=
  q.sqlWith q.dialect.quoteValue bindings kind

end RelationSql.Query
