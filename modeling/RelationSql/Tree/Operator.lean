import RelationSql.Text.Scan

/-!
# Expression operators

The closed set of operators of conditions and computed values, with the sign each has in the tree
notation. The sign in capitals is the operator's spelling in SQL.
-/

namespace RelationSql

/-- An operator of an expression. -/
inductive Operator where
  /-- The word `not`, which binds loosely. -/
  | not
  /-- The sign `!`, which binds tightly. -/
  | bang
  /-- A minus in front of its operand. -/
  | changeSign
  /-- A tilde in front of its operand. -/
  | invertBits
  | bitXor
  | times | division | integerDivision | modulo
  | minus | plus
  | leftShift | rightShift
  | bitAnd
  | bitOr
  | equal | nullSafeEqual | greaterOrEqual | greater | lessOrEqual | less | notEqual
  | is | like | regexp | in_
  | between
  | and | xor | or
  | assign
  deriving DecidableEq, Repr, Inhabited

namespace Operator

/-- The sign of the operator in the tree notation. -/
def symbol : Operator → String
  | not => "not"
  | bang => "!"
  | changeSign => "@-"
  | invertBits => "@~"
  | bitXor => "^"
  | times => "*"
  | division => "/"
  | integerDivision => "div"
  | modulo => "%"
  | minus => "-"
  | plus => "+"
  | leftShift => "<<"
  | rightShift => ">>"
  | bitAnd => "&"
  | bitOr => "|"
  | equal => "="
  | nullSafeEqual => "<=>"
  | greaterOrEqual => ">="
  | greater => ">"
  | lessOrEqual => "<="
  | less => "<"
  | notEqual => "<>"
  | is => "is"
  | like => "like"
  | regexp => "regexp"
  | in_ => "in"
  | between => "between"
  | and => "and"
  | xor => "xor"
  | or => "or"
  | assign => ":="

/-- The spelling of the operator in SQL. -/
def sql (operator : Operator) : String :=
  Text.upper operator.symbol

/-- Every operator. -/
def all : List Operator :=
  [not, bang, changeSign, invertBits, bitXor, times, division, integerDivision, modulo, minus, plus,
   leftShift, rightShift, bitAnd, bitOr, equal, nullSafeEqual, greaterOrEqual, greater,
   lessOrEqual, less, notEqual, is, like, regexp, in_, between, and, xor, or, assign]

/-- **The list of operators is complete.** -/
theorem mem_all (operator : Operator) : operator ∈ all := by
  cases operator <;> decide

end Operator

end RelationSql
