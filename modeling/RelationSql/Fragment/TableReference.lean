import RelationSql.Fragment.Keyword

/-!
# Table references

A table stands in `FROM` as its bare name or as `table AS name`. The text is written by
`TableReference.write` and read in three ways: `TableReference.read` takes the last `AS` between
blanks, `TableReference.split` the first ` AS `, and `declaredName` the last word.
-/

namespace RelationSql.Fragment

open RelationSql.Text

/-- A table and the name it is known by. -/
structure TableReference where
  table : String
  name : String
  deriving DecidableEq, Repr, Inhabited

namespace TableReference

/-- A table known by its own name. -/
def bare (table : String) : TableReference := ⟨table, table⟩

/-- The text of the reference; a table known by its own name stands alone. -/
def write (reference : TableReference) : String :=
  if reference.name = reference.table then reference.table
  else reference.table ++ " AS " ++ reference.name

/-- Reads a reference at its last `AS` between blanks. A text without one is a bare table. -/
def read (text : String) : TableReference :=
  match cutAtWord? (exactly ['A', 'S']) text.toList with
  | some (c :: cs, name) => ⟨String.ofList (c :: cs), String.ofList name⟩
  | _ => bare text

/-- Splits a reference at its first ` AS `. A text without one is a bare table. -/
def split (text : String) : TableReference :=
  match splitOnce? [' ', 'A', 'S', ' '] text.toList with
  | some (table, name) => ⟨String.ofList table, String.ofList name⟩
  | none => bare text

end TableReference

/-- The last word of a text between blanks; a text without words is taken whole. -/
def declaredName (reference : String) : String :=
  let fromLast := reference.toList.reverse.dropWhile isBlank
  match fromLast.takeWhile (fun c => !isBlank c) with
  | [] => reference
  | word => String.ofList word.reverse

end RelationSql.Fragment
