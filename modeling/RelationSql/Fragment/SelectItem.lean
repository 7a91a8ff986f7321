import RelationSql.Fragment.Keyword
import RelationSql.Text.Word

/-!
# Items of a select list

A select list names its columns in two ways: `expression AS key`, with or without quotes around the
key, and a plain column, whose key is its name without the table.
-/

namespace RelationSql.Fragment

open RelationSql.Text

/-- What stands between two quote characters. -/
def between? (quote : Char) : List Char → Option (List Char)
  | [] => none
  | c :: cs =>
    if c = quote then
      match cs.reverse with
      | [] => none
      | last :: inner => if last = quote then some inner.reverse else none
    else none

/-- A key without the matching quotes around it. -/
def unquote (key : List Char) : List Char :=
  match between? '\'' key with
  | some inner => inner
  | none =>
    match between? '"' key with
    | some inner => inner
    | none => (between? '\x60' key).getD key

/-- May the text be the name of a column? -/
def isColumn (text : List Char) : Bool :=
  !text.isEmpty && !text.contains '*'

/-- The name of a column without the table in front of it. -/
def columnName? (text : List Char) : Option (List Char) :=
  let qualified :=
    match text.takeWhile isWord, text.dropWhile isWord with
    | _ :: _, '.' :: column => if isColumn column then some column else none
    | _, _ => none
  match qualified with
  | some column => some column
  | none => if isColumn text then some text else none

/-- The key of an item and the expression it stands for. -/
def selectedKey? (item : String) : Option (String × String) :=
  match cutAtWord? (anyCase ['A', 'S']) item.toList with
  | some (expression, key) => some (String.ofList (unquote key), String.ofList expression)
  | none => (columnName? item.toList).map fun name => (String.ofList name, item)

end RelationSql.Fragment
