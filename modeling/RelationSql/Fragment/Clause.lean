import RelationSql.Fragment.Keyword

/-!
# Reading clauses back

A few rendered clauses are read again: the fields of a group for a count, the fields of an order for
`DISTINCT ON`, and the number of a limit for pagination.
-/

namespace RelationSql.Fragment

open RelationSql.Text

/-- The body of the first `GROUP BY` of a text, up to the end of its line. -/
def groupBody? : List Char → Option (List Char)
  | [] => none
  | c :: cs =>
    let here :=
      (after? "GROUP".toList (c :: cs)).bind
        (afterBlankWord? (exactly ['B', 'Y']) startsLine)
    match here with
    | some body => some (body.takeWhile fun c => c != '\n')
    | none => groupBody? cs

/-- The parts of a list between its commas. -/
def listItems (text : List Char) : List (List Char) :=
  splitAt ',' text

/-- Is the text blanks and a direction? -/
def isDirection : List Char → Bool
  | [] => false
  | c :: cs =>
    isBlank c &&
      (afterWord? (anyCase ['A', 'S', 'C']) (cs.dropWhile isBlank) == some [] ||
        afterWord? (anyCase ['D', 'E', 'S', 'C']) (cs.dropWhile isBlank) == some [])

/-- An item of an order without the direction at its end. -/
def withoutDirection : List Char → List Char
  | [] => []
  | c :: cs => if isDirection (c :: cs) then [] else c :: withoutDirection cs

/-- The fields of an `ORDER BY` clause without their directions. -/
def orderKeys (clause : List Char) : List (List Char) :=
  match splitOnce? "ORDER BY ".toList clause with
  | none => []
  | some (_, body) => (listItems body).map fun item => withoutDirection (trimBy isBlank item)

/-- The digits after the first ` LIMIT ` that digits follow. -/
def limitDigits? : List Char → Option (List Char)
  | [] => none
  | c :: cs =>
    let digits := ((after? " LIMIT ".toList (c :: cs)).getD []).takeWhile isDecimal
    if digits.isEmpty then limitDigits? cs else some digits

/-- The value of decimal digits. -/
def digitsValue (digits : List Char) : Nat :=
  digits.foldl (fun value c => 10 * value + (c.toNat - '0'.toNat)) 0

/-- The number of a limit clause. It fits into 64 bits and is written in ASCII digits. -/
def limitValue? (clause : String) : Option Nat :=
  (limitDigits? clause.toList).bind fun digits =>
    if digits.all Char.isDigit && decide (digitsValue digits < Nat.pow 2 64) then
      some (digitsValue digits)
    else none

end RelationSql.Fragment
