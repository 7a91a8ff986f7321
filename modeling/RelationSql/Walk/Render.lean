import RelationSql.Grammar.Parse
import RelationSql.Walk.Clause
import RelationSql.Walk.Expression

/-!
# Rendering a tree

`renderNode` says for each tag how a node renders from its parts, and `render` folds it over a tree.
Under the root of a source, the default order is rendered after everything else, just as if it had
been written at the end of the source.
-/

namespace RelationSql

open RelationSql.Part

/-- A step that renders as nothing. -/
def silently (steps : WalkM Unit) : WalkM String := do
  steps
  return ""

/-- The root of a source: all of its clauses, and what follows them. -/
def renderRoot (atEnd : WalkM Unit) (parts : List Part) : WalkM Unit := do
  let _ ← renderAll parts
  atEnd

/-- Renders an operator. -/
def renderOperator (host : Host) (operator : Operator) (parts : List Part) : WalkM String :=
  match operator with
  | .not => Expression.negation (.op .not) parts
  | .bang => Expression.negation (.op .bang) parts
  | .or => Expression.disjunction parts
  | .equal => Expression.equality host parts
  | .between => Expression.betweenBounds parts
  | .changeSign => Expression.changedSign parts
  | operator => Expression.operation operator parts

/-- Renders a node from its parts. -/
def renderNode (host : Host) (atEnd : WalkM Unit) (tag : Tag) (parts : List Part) :
    WalkM String :=
  match tag with
  | .query => silently (renderRoot atEnd parts)
  -- relations and clauses change the query and render as nothing
  | .relation => do
    let name ← atomChild .relation parts 0
    silently (Clause.relation host name)
  | .scope => Clause.scope parts
  | .from_ => silently (Clause.from_ parts)
  | .filter => silently (Clause.filter parts)
  | .clauseOr => silently (Alternative.clause host parts)
  | .clauseAnd => throw (.unsupportedOperator Tag.clauseAnd.name)
  | .clausePar => renderChild .clausePar parts 0
  | .par => Expression.parenthesis parts
  -- a clause renders its own operands
  | .order => silently (Clause.order parts)
  | .group => silently (Clause.group parts)
  | .having => silently (Clause.having parts)
  | .limit => silently (Clause.limit parts)
  | .offset => silently (Clause.offset parts)
  | .paginate => silently (Clause.paginate parts)
  | .asc => Clause.direction .asc "ASC" parts
  | .desc => Clause.direction .desc "DESC" parts
  | .field => do
    let name ← atomChild .field parts 0
    host.resolveField name
  | .param => atomChild .param parts 0
  | .integer => atomChild .integer parts 0
  | .real => atomChild .real parts 0
  | .method => atomChild .method parts 0
  | .string => do
    let content ← atomChild .string parts 0
    host.quoteLiteral content
  | .dstring => do
    let content ← atomChild .dstring parts 0
    Expression.template host content
  | .null => return "NULL"
  | .function => Expression.call host parts
  | .interval => Expression.interval parts
  | .void => return ""
  | .op operator => renderOperator host operator parts

/-- Renders a tree, with steps to be taken at the end of a root. -/
def renderWith (host : Host) (atEnd : WalkM Unit) (tree : Tree) : WalkM String :=
  (Part.ofTree (renderNode host atEnd) tree).render

/-! ## The default order -/

/-- The order clause of a source that consists of an order behind a relation, with nothing in the
place of the relation. -/
def orderOnly? : Tree → Option Tree
  | .node .query children =>
    match children.getLast? with
    | some (.node .order (_ :: items)) => some (.node .order (.node .void [] :: items))
    | _ => none
  | _ => none

/-- Renders an order as if it were written at the end of the source. -/
def renderOrder (host : Host) (order : String) : WalkM Unit :=
  match Grammar.parse ("foo order by " ++ order) with
  | .error fault => throw (.malformed fault)
  | .ok tree =>
    match orderOnly? tree with
    | some clause => do
      let _ ← renderWith host (pure ()) clause
    | none => return

/-- Renders the default order of a query that has none. -/
def defaultOrder (host : Host) : WalkM Unit := do
  if (← WalkM.query).order.isNone then
    match ← host.default "order" with
    | some order => renderOrder host order
    | none => return

/-- Renders a tree. -/
def render (host : Host) (tree : Tree) : WalkM String :=
  renderWith host (defaultOrder host) tree

end RelationSql
