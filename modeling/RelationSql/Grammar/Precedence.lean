import RelationSql.Tree.Basic
import RelationSql.Source.Token

/-!
# Tiers of precedence

Clause words and expression operators share one table of tiers, so that one stack of open nodes
builds both. A higher tier binds tighter.
-/

namespace RelationSql.Grammar

open RelationSql.Source (TokenKind)

/-- The tier of an expression operator. -/
def operatorTier : Operator → Int
  | .bang => 38
  | .changeSign | .invertBits => 37
  | .bitXor => 36
  | .times | .division | .integerDivision | .modulo => 35
  | .minus | .plus => 34
  | .leftShift | .rightShift => 33
  | .bitAnd => 32
  | .bitOr => 31
  | .equal | .nullSafeEqual | .greaterOrEqual | .greater | .lessOrEqual | .less | .notEqual
  | .is | .like | .regexp | .in_ => 30
  | .between => 29
  | .not => 28
  | .and => 27
  | .xor => 26
  | .or => 25
  | .assign => 24

/-- The tier of a tag. Leaves are never open; their tier is above all others. -/
def tier : Tag → Int
  | .function => 50
  | .interval => 40
  | .op operator => operatorTier operator
  | .relation | .filter => 13
  | .scope => 12
  | .from_ => 11
  | .asc | .desc => 10
  | .clauseAnd => 4
  | .clauseOr => 3
  | .limit | .offset | .paginate | .order | .group | .having => 2
  | .query => 1
  | .par | .clausePar => -1
  | .field | .param | .string | .dstring | .integer | .real | .null | .method | .void => 60

/-- A closing parenthesis closes every node above this tier: all but the open parentheses. -/
def parenTier : Int := 0

/-- The operator that a token stands for between two operands. The words `in`, `not`, `between` and
`is` depend on their surroundings and are not among them. -/
def infixOperator? : TokenKind → Option Operator
  | .symbol .plus => some .plus
  | .symbol .minus => some .minus
  | .symbol .star => some .times
  | .symbol .slash => some .division
  | .symbol .percent => some .modulo
  | .symbol .caret => some .bitXor
  | .symbol .leftShift => some .leftShift
  | .symbol .rightShift => some .rightShift
  | .symbol .ampersand => some .bitAnd
  | .symbol .pipe => some .bitOr
  | .symbol .equal => some .equal
  | .symbol .nullSafeEqual => some .nullSafeEqual
  | .symbol .notEqual => some .notEqual
  | .symbol .less => some .less
  | .symbol .lessOrEqual => some .lessOrEqual
  | .symbol .greater => some .greater
  | .symbol .greaterOrEqual => some .greaterOrEqual
  | .symbol .doubleAmpersand => some .and
  | .symbol .doublePipe => some .or
  | .symbol .assign => some .assign
  | .keyword .mod => some .modulo
  | .keyword .div => some .integerDivision
  | .keyword .eq => some .equal
  | .keyword .ne => some .notEqual
  | .keyword .lt => some .less
  | .keyword .le => some .lessOrEqual
  | .keyword .gt => some .greater
  | .keyword .ge => some .greaterOrEqual
  | .keyword .like => some .like
  | .keyword .regexp => some .regexp
  | .keyword .and => some .and
  | .keyword .or => some .or
  | .keyword .xor => some .xor
  | _ => none

/-- The operator that a token stands for in front of its operand. -/
def prefixOperator? : TokenKind → Option Operator
  | .keyword .not => some .not
  | .symbol .bang => some .bang
  | .symbol .minus => some .changeSign
  | .symbol .tilde => some .invertBits
  | _ => none

end RelationSql.Grammar
