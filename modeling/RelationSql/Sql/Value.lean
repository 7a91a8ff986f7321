import RelationSql.Number.Shortest
import RelationSql.Text.Scan

/-!
# Values of binds

A compiled query carries bind expressions; values for them are supplied when executable SQL is
wanted. `Value.inline` is the literal of a value in SQL: quotes inside a text are doubled, a list is
the literals of its elements between commas, and an empty list is `NULL`.
-/

namespace RelationSql

/-- A value substituted for a bind. -/
inductive Value where
  | null
  | bool (value : Bool)
  | int (value : Int)
  /-- A double precision number by its bits. -/
  | float (bits : UInt64)
  | text (content : String)
  | list (items : List Value)
  deriving Repr, Inhabited

namespace Value

/-- A text between quote characters, with every quote character in it doubled. -/
def wrapDoubled (quote : Char) (content : List Char) : List Char :=
  quote :: content.flatMap (fun c => if c = quote then [quote, quote] else [c]) ++ [quote]

/-- A text as an SQL literal. -/
def quoteText (content : String) : String :=
  String.ofList (wrapDoubled '\'' content.toList)

/-- The text of a double precision number: its shortest decimal without an exponent, of two equally
near ones the upper. -/
def floatText (bits : UInt64) : String :=
  match Number.ofBits bits with
  | .nan => "NaN"
  | .infinite negative => String.ofList (Number.sign negative ++ ['i', 'n', 'f'])
  | .zero negative => String.ofList (Number.sign negative ++ ['0'])
  | .finite negative m =>
    String.ofList (Number.sign negative ++ (Number.shortest .up m).positional)

/-- The spelling of the truth values in a literal. -/
structure Spelling where
  true_ : String
  false_ : String
  deriving DecidableEq, Repr

/-- Truth values as words. -/
def words : Spelling := ⟨"TRUE", "FALSE"⟩

/-- Truth values as numbers. -/
def numbers : Spelling := ⟨"1", "0"⟩

mutual

/-- The SQL literal of a value. -/
def literal (spelling : Spelling) : Value → String
  | .null => "NULL"
  | .bool true => spelling.true_
  | .bool false => spelling.false_
  | .int value => toString value
  | .float bits => floatText bits
  | .text content => quoteText content
  | .list [] => "NULL"
  | .list (item :: items) => Text.joinWith "," (literals spelling (item :: items))

/-- The SQL literals of the elements of a list. -/
def literals (spelling : Spelling) : List Value → List String
  | [] => []
  | item :: items => literal spelling item :: literals spelling items

end

/-- The SQL literal of a value with truth values as words. -/
def inline (value : Value) : String :=
  value.literal words

/-- The literals of a list are those of its elements. -/
theorem literals_eq_map (spelling : Spelling) (items : List Value) :
    literals spelling items = items.map (literal spelling) := by
  induction items with
  | nil => rfl
  | cons item items ih => rw [literals, ih, List.map_cons]

end Value

/-- The values of bind expressions; an expression without one is unbound. -/
abbrev Bindings := String → Option Value

/-- How a connection writes a value as an SQL literal. -/
abbrev Quoting := Value → String

end RelationSql
