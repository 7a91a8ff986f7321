import RelationSql.Walk.Part
import RelationSql.Walk.Table

/-!
# Rendering expressions

Conditions and computed values. An operator renders as its operands with its SQL spelling between
them; no parentheses are added but those around an `OR`.
-/

namespace RelationSql.Expression

open RelationSql.Part

/-! ## Leaves -/

/-- The reason for which an interpolated text fails to compile without a translator. -/
def noTranslator : String := "no expression translator configured"

/-- An interpolated text, evaluated when the statement is executed. -/
def template (host : Host) (content : String) : WalkM String :=
  let source := "\"" ++ content ++ "\""
  match host.options.translator with
  | none => throw (.expression source noTranslator)
  | some _ => host.attr source

/-! ## Operators -/

/-- Two operands with an operator between them. -/
def infixText (left operator right : String) : String :=
  left ++ " " ++ operator ++ " " ++ right

/-- Renders two operands and puts an operator between them. -/
def binary (operator : Operator) (left right : Part) : WalkM String := do
  let left ← left.render
  let right ← right.render
  return infixText left operator.sql right

/-- An operator without a rendering of its own needs exactly two operands. -/
def operation (operator : Operator) (parts : List Part) : WalkM String :=
  match parts with
  | [left, right] => binary operator left right
  | _ => throw (.unsupportedOperator operator.symbol)

/-- May the operator be negated in its place? -/
def negatesInPlace (operator : Operator) : Bool :=
  operator == .like || operator == .regexp || operator == .in_

/-- A negation. `LIKE`, `REGEXP`, `IN` and `BETWEEN` are negated in their place. -/
def negation (tag : Tag) (parts : List Part) : WalkM String := do
  let operand ← child tag parts 0
  match operand.tree.tag?, operand.parts with
  | some (.op .between), [value, low, high] => do
    -- the operands are rendered here, since the node would render itself without the `NOT`
    let value ← value.render
    let low ← low.render
    let high ← high.render
    return value ++ " NOT BETWEEN " ++ low ++ " AND " ++ high
  | some (.op operator), [left, right] =>
    if negatesInPlace operator then do
      let left ← left.render
      let right ← right.render
      return infixText left ("NOT " ++ operator.sql) right
    else return "NOT " ++ (← operand.render)
  | _, _ => return "NOT " ++ (← operand.render)

/-- An alternative of two conditions, in parentheses of its own. -/
def disjunction (parts : List Part) : WalkM String := do
  let left ← renderChild (.op .or) parts 0
  let right ← renderChild (.op .or) parts 1
  return "(" ++ left ++ " OR " ++ right ++ ")"

/-- An equality, for which the domain may have a form of its own. -/
def equality (host : Host) (parts : List Part) : WalkM String := do
  let left ← child (.op .equal) parts 0
  let right ← child (.op .equal) parts 1
  match ← host.equal left.tree right.tree with
  | some text => return text
  | none => binary .equal left right

/-- A value between two bounds. -/
def betweenBounds (parts : List Part) : WalkM String := do
  let value ← renderChild (.op .between) parts 0
  let low ← renderChild (.op .between) parts 1
  let high ← renderChild (.op .between) parts 2
  return value ++ " BETWEEN " ++ low ++ " AND " ++ high

/-- A minus in front of its operand. -/
def changedSign (parts : List Part) : WalkM String := do
  return "-" ++ (← renderChild (.op .changeSign) parts 0)

/-! ## Calls, intervals and parentheses -/

/-- A method call, which the domain translates. -/
def call (host : Host) (parts : List Part) : WalkM String := do
  let argument ← renderChild .function parts 0
  let method ← renderChild .function parts 1
  match ← host.function argument method with
  | some text => return text
  | none => throw (.functionNotAllowed method)

/-- A number of units of time. -/
def interval (parts : List Part) : WalkM String := do
  let value ← renderChild .interval parts 0
  let unit ← atomChild .interval parts 1
  return "INTERVAL " ++ value ++ " " ++ Text.upper unit

/-- Is the part an alternative, which brings its own parentheses? -/
def isDisjunction (part : Part) : Bool :=
  part.tree.tag? == some (.op .or)

/-- Rendered items in parentheses. -/
def parenthesised (parts : List Part) : WalkM String := do
  return "(" ++ Text.joinWith "," (← renderAll parts) ++ ")"

/-- A parenthesis around an expression or a list. -/
def parenthesis (parts : List Part) : WalkM String :=
  match parts with
  | [inner] => if isDisjunction inner then inner.render else parenthesised parts
  | _ => parenthesised parts

end RelationSql.Expression
