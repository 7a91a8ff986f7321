import RelationSql.Dictionary

/-!
# JSON values

A whole number that fits into 64 bits is kept as it is; every other number is a double precision
number. The members of an object are kept in ascending order of their keys, each key once.
-/

namespace RelationSql

/-- A JSON value. -/
inductive Json where
  | null
  | bool (value : Bool)
  | integer (value : Int)
  /-- A double precision number by its bits. -/
  | float (bits : UInt64)
  | string (content : String)
  | array (items : List Json)
  | object (members : List (String × Json))
  deriving Repr, Inhabited

namespace Json

/-- An object of members in the order of a text; of two with one key the later counts. -/
def ofMembers (members : List (String × Json)) : Json :=
  .object (Dictionary.ofList members).entries

/-- The content of a string. -/
def string? : Json → Option String
  | .string content => some content
  | _ => none

/-- The items of an array. -/
def array? : Json → Option (List Json)
  | .array items => some items
  | _ => none

/-- The members of an object. -/
def object? : Json → Option (List (String × Json))
  | .object members => some members
  | _ => none

/-- An array of strings. -/
def strings? (value : Json) : Option (List String) := do
  let items ← value.array?
  items.mapM string?

/-- An object whose members can all be read. -/
def dictionary? {α : Type} (read : Json → Option α) (value : Json) : Option (Dictionary α) := do
  let members ← value.object?
  let entries ← members.mapM fun member => (read member.2).map fun value => (member.1, value)
  return .ofList entries

/-- A value that may be absent: `null` stands for its absence. -/
def optional? {α : Type} (read : Json → Option α) : Json → Option (Option α)
  | .null => some none
  | value => (read value).map some

end Json

end RelationSql
