import RelationSql.Grammar.Machine

/-!
# One token

`Machine.step` moves the machine over one token. Some words belong together with the token after
them (`order by`, `not like`, a minus with the number it touches, a point with its method); then the
step uses up that token as well. Every move is a function of the kinds of the tokens, and of whether
a minus touches the token after it; the spans are otherwise only passed on into faults.
-/

namespace RelationSql.Grammar

open RelationSql.Source (Span Token TokenKind)

/-- The machine after a step, and whether the step used up the following token too. -/
abbrev StepResult := Except Fault (Machine × Bool)

/-- A step that used up its own token only. -/
def one (m : Machine) : StepResult := .ok (m, false)

/-- A step that used up the following token as well. -/
def two (m : Machine) : StepResult := .ok (m, true)

/-- The step over a token that does not fit. -/
def reject (token : Token) : StepResult := .error (.near token.span)

/-- The token after `token`. The last token of a source is followed by itself. -/
def following (token : Token) : List Token → Token
  | [] => token
  | next :: _ => next

/-- The units of an interval. -/
def intervalUnits : List String :=
  ["second", "minute", "hour", "day", "week", "month", "year"]

/-- The unit that a word names, in the singular or the plural. -/
def intervalUnit? (word : String) : Option String :=
  intervalUnits.find? fun unit => Text.lower word == unit || Text.lower word == unit ++ "s"

/-- The numeric literal that a minus makes of the number it touches. -/
def signedLiteral? (minus next : Token) : Option Tree :=
  if minus.span.touches next.span then
    match next.kind with
    | .integer digits => some (.leaf .integer ("-" ++ digits))
    | .real digits => some (.leaf .real ("-" ++ digits))
    | _ => none
  else none

/-- What is expected after the closing of a parenthesis. -/
def afterParen (tag : Tag) : Expect :=
  if tag = .clausePar then .afterRelation else .afterOperand

namespace Machine

/-! ## Parentheses and clauses -/

/-- A closing parenthesis. The parenthesis it closes is not empty. -/
def closeParen (m : Machine) (token : Token) : StepResult := do
  let m ← m.closeTier parenTier token.span
  match m.frames with
  | frame :: frames =>
    if frame.tag.isParen && !frame.done.isEmpty then
      one (({ m with frames := frames }.expecting (afterParen frame.tag)).append frame.tree)
    else reject token
  | [] => reject token

/-- The clause that a keyword starts and what it expects; `order` and `group` need their `by`. -/
def clauseOf? (token next : Token) : Except Token (Tag × Expect × Bool) :=
  match token.kind with
  | .keyword .limit => .ok (.limit, .limitValue, false)
  | .keyword .offset => .ok (.offset, .offsetValue, false)
  | .keyword .paginate => .ok (.paginate, .pageName, false)
  | .keyword .having => .ok (.having, .operand, false)
  | .keyword .order =>
    if next.kind = .keyword .by_ then .ok (.order, .orderItem, true) else .error next
  | .keyword .group =>
    if next.kind = .keyword .by_ then .ok (.group, .groupItem, true) else .error next
  | _ => .error token

/-- A closing parenthesis or a clause that may follow wherever a relation may end. -/
def clause (m : Machine) (token : Token) (rest : List Token) : StepResult :=
  if token.kind = .symbol .rightParen then m.closeParen token
  else if m.insideExpression then reject token
  else
    match clauseOf? token (following token rest) with
    | .error culprit => reject culprit
    | .ok (tag, next, usesNext) => do
      let m ← m.openOver tag next token.span
      return (m, usesNext)

/-! ## Relations -/

/-- A relation or the parenthesis in front of one. -/
def relation (m : Machine) (token : Token) : StepResult :=
  match token.kind with
  | .name name => do
    let m ← m.closeTier (tier .relation) token.span
    one ((m.push ⟨.relation, token.span, [.atom name]⟩).expecting .afterRelation)
  | .symbol .leftParen => one (m.push ⟨.clausePar, token.span, []⟩)
  | _ => reject token

/-- The scope after `in`, which closes over whatever relation precedes it. -/
def scope (m : Machine) (token next : Token) : StepResult :=
  match next.kind with
  | .name name => do
    let m ← m.wrapLast .scope [.atom name] token.span
    two (m.expecting .afterRelation)
  | _ => reject next

/-- What may follow a relation. -/
def afterRelation (m : Machine) (token : Token) (rest : List Token) : StepResult :=
  match token.kind with
  | .keyword .in_ => m.scope token (following token rest)
  | .keyword .where_ => m.openOver .filter .operand token.span >>= one
  | .keyword .from_ => m.openOver .from_ .relation token.span >>= one
  | .keyword .or => m.openOver .clauseOr .relation token.span >>= one
  | .keyword .and => m.openOver .clauseAnd .relation token.span >>= one
  | _ => m.clause token rest

/-! ## Expressions -/

/-- Adds a finished operand. -/
def addOperand (m : Machine) (tree : Tree) : Machine :=
  (m.append tree).expecting .afterOperand

/-- A parenthesis or an operator in front of its operand. -/
def openOperand (m : Machine) (token : Token) : StepResult :=
  match token.kind with
  | .symbol .leftParen => one (m.push ⟨.par, token.span, []⟩)
  | kind =>
    match prefixOperator? kind with
    | some operator => one (m.push ⟨.op operator, token.span, []⟩)
    | none => reject token

/-- An operand or what may stand in front of one. -/
def operand (m : Machine) (token : Token) (rest : List Token) : StepResult :=
  match token.kind with
  | .integer digits => one (m.addOperand (.leaf .integer digits))
  | .real digits => one (m.addOperand (.leaf .real digits))
  | .text content => one (m.addOperand (.leaf .string content))
  | .template content => one (m.addOperand (.leaf .dstring content))
  | .name name => one (m.addOperand (.leaf .field name))
  | .keyword .null => one (m.addOperand (.node .null []))
  | .symbol .minus =>
    match signedLiteral? token (following token rest) with
    | some literal => two (m.addOperand literal)
    | none => m.openOperand token
  | _ => m.openOperand token

/-- The operators that `not` may stand in front of after an operand. -/
def negatable? : TokenKind → Option Operator
  | .keyword .like => some .like
  | .keyword .regexp => some .regexp
  | .keyword .in_ => some .in_
  | .keyword .between => some .between
  | _ => none

/-- Opens a negated operator over the newest tree. -/
def openNegated (m : Machine) (operator : Operator) (token next : Token) : StepResult := do
  let m ← m.closeTier (operatorTier operator) token.span
  let (tree, m) ← orNear token.span m.takeLast?
  let m := (m.push ⟨.op .not, token.span, []⟩).push ⟨.op operator, next.span, [tree]⟩
  two (m.expecting .operand)

/-- `not like`, `not regexp`, `not in (…)` or `not between` after an operand. -/
def negated (m : Machine) (token : Token) (rest : List Token) : StepResult :=
  let next := following token rest
  match negatable? next.kind with
  | none => reject next
  | some operator =>
    -- a list has to follow `in`; without one the fault lies at the `in`
    if operator = .in_ ∧ (following next (rest.drop 1)).kind ≠ .symbol .leftParen then reject next
    else m.openNegated operator token next

/-- A comma between the operands of a parenthesis. -/
def comma (m : Machine) (token : Token) : StepResult :=
  if m.insideExpression then do
    let m ← orNear token.span (m.closeWhile? fun tag => tag != .par)
    one (m.expecting .operand)
  else reject token

/-- A point and the method after it. -/
def method (m : Machine) (token next : Token) : StepResult :=
  match next.kind with
  | .name name => do
    let m ← m.wrapLast .function [.leaf .method name] token.span
    two m
  | _ => reject next

/-- A unit after a number. -/
def interval (m : Machine) (word : String) (token : Token) : StepResult :=
  match intervalUnit? word with
  | some unit =>
    if m.lastIsNumber then m.wrapLast .interval [.atom unit] token.span >>= one
    else reject token
  | none => reject token

/-- An operator between two operands, or else a clause. -/
def infixOrClause (m : Machine) (token : Token) (rest : List Token) : StepResult :=
  match infixOperator? token.kind with
  | some operator => m.openOver (.op operator) .operand token.span >>= one
  | none => m.clause token rest

/-- The `and` that the innermost `between` waits for. -/
def betweenAnd (m : Machine) (token : Token) : StepResult := do
  let m ← orNear token.span (m.closeWhile? fun tag => tag != .op .between)
  one (m.expecting .operand)

/-- What may follow an operand. -/
def afterOperand (m : Machine) (token : Token) (rest : List Token) : StepResult :=
  match token.kind with
  | .keyword .and => if m.pendingBetween then m.betweenAnd token else m.infixOrClause token rest
  | .keyword .not => m.negated token rest
  | .keyword .is => m.openOver (.op .is) .operand token.span >>= one
  | .keyword .between => m.openOver (.op .between) .operand token.span >>= one
  | .keyword .in_ =>
    -- inside a condition `in` stands in front of a list and never of a scope
    if (following token rest).kind = .symbol .leftParen then
      m.openOver (.op .in_) .operand token.span >>= one
    else reject token
  | .keyword .from_ =>
    if m.insideExpression then reject token
    else m.openOver .from_ .relation token.span >>= one
  | .symbol .dot => m.method token (following token rest)
  | .symbol .comma => m.comma token
  | .name word => m.interval word token
  | _ => m.infixOrClause token rest

/-! ## Values and items of clauses -/

/-- The whole number of a limit or an offset. -/
def clauseValue (m : Machine) (next : Expect) (token : Token) : StepResult :=
  match token.kind with
  | .integer digits => one ((m.append (.leaf .integer digits)).expecting next)
  | _ => reject token

/-- The name in a clause: a page parameter, or a field to order or group by. -/
def clauseName (m : Machine) (tag : Tag) (next : Expect) (token : Token) : StepResult :=
  match token.kind with
  | .name name => one ((m.append (.leaf tag name)).expecting next)
  | _ => reject token

/-- A direction, the next field, or a clause. -/
def afterOrderItem (m : Machine) (token : Token) (rest : List Token) : StepResult :=
  match token.kind with
  | .keyword .asc => do
    let m ← m.wrapLast .asc [] token.span
    one (m.expecting .orderSeparator)
  | .keyword .desc => do
    let m ← m.wrapLast .desc [] token.span
    one (m.expecting .orderSeparator)
  | .symbol .comma => one (m.expecting .orderItem)
  | _ => m.clause token rest

/-- A comma where one is allowed, or a clause. -/
def separatorOrClause (m : Machine) (allowed : Bool) (next : Expect) (token : Token)
    (rest : List Token) : StepResult :=
  if token.kind = .symbol .comma ∧ allowed then one (m.expecting next) else m.clause token rest

/-- Moves over one token. -/
def step (m : Machine) (token : Token) (rest : List Token) : StepResult :=
  match m.expects with
  | .relation => m.relation token
  | .afterRelation => m.afterRelation token rest
  | .operand => m.operand token rest
  | .afterOperand => m.afterOperand token rest
  | .limitValue => m.clauseValue .afterLimit token
  | .afterLimit => m.separatorOrClause m.hasFirstLimit .limitValue token rest
  | .offsetValue => m.clauseValue .clauseEnd token
  | .pageName => m.clauseName .param .clauseEnd token
  | .orderItem => m.clauseName .field .afterOrderItem token
  | .afterOrderItem => m.afterOrderItem token rest
  | .orderSeparator => m.separatorOrClause true .orderItem token rest
  | .groupItem => m.clauseName .field .afterGroupItem token
  | .afterGroupItem => m.separatorOrClause true .groupItem token rest
  | .clauseEnd => m.clause token rest

end Machine

end RelationSql.Grammar
