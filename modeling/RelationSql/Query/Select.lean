import RelationSql.Custom.Definition
import RelationSql.Fragment.SelectItem
import RelationSql.Query.Alias

/-!
# Selected keys and custom queries

`addSelect` selects an expression under a key. A custom query replaces whole parts of a query; what
the query knows about its tables and keys is then read back from the new parts (`rebuildAliases`,
`rebuildAttributes`).
-/

namespace RelationSql.Query

open RelationSql.Fragment

/-- The key and the type of a declaration `key:type`. -/
def keyAndType (declaration : String) : String × Option String :=
  match Text.splitLast? ':' declaration.toList with
  | some (key, type) => (String.ofList key, some (String.ofList type))
  | none => (declaration, none)

/-- Declares the type of a key. -/
def declareType (key : String) (type : Option String) (q : Query) : Query :=
  match type with
  | some type => { q with declaredTypes := q.declaredTypes.insert key type }
  | none => q

/-- The select list, or else all columns of the main table. -/
def selectItems (q : Query) : List String :=
  q.select.getD [q.mainTable ++ ".*"]

/-- Selects an expression under a key, which may declare its type. -/
def addSelect (field declaration : String) (q : Query) : Query :=
  let (key, type) := keyAndType declaration
  let q := q.declareType key type
  { q with
    select := some (q.selectItems ++ [field ++ " AS " ++ q.dialect.quoteIdentifier key])
    attributes := q.attributes.insert key field }

/-! ## Reading back -/

/-- Reads the aliases back from the table references. -/
def rebuildAliases (q : Query) : Query :=
  let record (known : Dictionary (List String)) (text : String) :=
    let reference := TableReference.read text
    known.insert reference.table (known.findD reference.table [] ++ [reference.name])
  { q with tableAlias := q.tables.foldl record .empty }

/-- Reads the selected keys back from the select list. -/
def rebuildAttributes (q : Query) : Query :=
  { q with attributes := .ofList ((q.select.getD []).filterMap selectedKey?) }

/-- Replaces the parts of a query that a custom query defines. -/
def applyCustom (custom : CustomQuery) (q : Query) : Query :=
  let clause (word : String) (body : Option String) (old : Option String) :=
    match body with
    | some body => some (word ++ body)
    | none => old
  -- aliases and keys are read back last, from the replaced tables and items
  rebuildAttributes <| rebuildAliases
    { q with
      select := custom.select <|> q.select
      tables := custom.tables.getD q.tables
      joinTables := custom.joinTables.getD q.joinTables
      filters := custom.filters.getD q.filters
      order := clause " ORDER BY " custom.order q.order
      group := clause " GROUP BY " custom.group q.group
      having := clause " HAVING " custom.having q.having
      declaredTypes := custom.types.getD q.declaredTypes
      mainClass := custom.mainClass.getD q.mainClass
      mainTable := custom.mainTable.getD q.mainTable }

end RelationSql.Query
