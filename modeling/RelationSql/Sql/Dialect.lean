import RelationSql.Sql.Value

/-!
# SQL dialects

Compiled queries are mostly the same for every engine. A dialect fixes how identifiers and truth
values are written, which placeholder stands for a bind, and whether duplicates are removed by
`DISTINCT ON` or by a group.
-/

namespace RelationSql

/-- What differs between SQL engines. -/
structure Dialect where
  name : String
  /-- The character around an identifier. -/
  quote : Char := '"'
  /-- What stands for a bind in a statement. -/
  placeholder : String := "?"
  /-- Is `SELECT DISTINCT ON (…)` available? -/
  distinctOn : Bool := false
  /-- How truth values are written. -/
  truth : Value.Spelling := Value.words
  deriving DecidableEq, Repr

namespace Dialect

/-- The plain dialect of the SQL standard. -/
def generic : Dialect := { name := "generic" }

/-- PostgreSQL, where duplicates are removed by `DISTINCT ON`. -/
def postgres : Dialect := { name := "postgresql", distinctOn := true }

/-- SQLite, where truth values are numbers. -/
def sqlite : Dialect := { name := "sqlite", truth := Value.numbers }

instance : Inhabited Dialect := ⟨generic⟩

/-- An identifier between quote characters, with every quote character in it doubled. -/
def quoteIdentifier (dialect : Dialect) (name : String) : String :=
  String.ofList (Value.wrapDoubled dialect.quote name.toList)

/-- The literal of a value. -/
def quoteValue (dialect : Dialect) : Quoting :=
  Value.literal dialect.truth

end Dialect

end RelationSql
