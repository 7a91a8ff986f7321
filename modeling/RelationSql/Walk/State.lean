import RelationSql.Error
import RelationSql.Query.Alias
import RelationSql.Walk.Context

/-!
# The state of a walk

A walk carries the name of the active domain, the context and the query under construction. An error
ends a walk but not its state: what was changed before the error is still there for a domain that
catches it.
-/

namespace RelationSql

/-- The state of a walk. -/
structure Walk where
  /-- The name of the active domain. -/
  domain : String
  context : Context
  query : Query
  deriving DecidableEq, Inhabited

/-- Steps of a walk. They change its state and may fail. -/
abbrev WalkM := ExceptT CompileError (StateM Walk)

namespace WalkM

/-- The outcome of steps and the state they leave. -/
def runFrom {α : Type} (steps : WalkM α) (w : Walk) : Except CompileError α × Walk :=
  (ExceptT.run steps).run w

/-- The context of the walk. -/
def context : WalkM Context := do
  return (← get).context

/-- The query of the walk. -/
def query : WalkM Query := do
  return (← get).query

/-- Changes the context. -/
def modifyContext (change : Context → Context) : WalkM Unit :=
  modify fun w => { w with context := change w.context }

/-- Changes the query. -/
def modifyQuery (change : Query → Query) : WalkM Unit :=
  modify fun w => { w with query := change w.query }

/-- Changes the query and yields a value. -/
def updateQuery {α : Type} (change : Query → α × Query) : WalkM α :=
  modifyGet fun w =>
    let (value, query) := change w.query
    (value, { w with query := query })

/-- Sets what is being rendered. -/
def enterPhase (phase : Phase) : WalkM Unit :=
  modifyContext fun c => { c with phase := phase }

/-- Adds a condition. -/
def addFilter (filter : String) : WalkM Unit :=
  modifyQuery (Query.addFilter filter)

/-- Runs steps in a changed context and brings the context back, also after an error. -/
def within {α : Type} (change : Context → Context) (steps : WalkM α) : WalkM α :=
  ExceptT.mk fun w =>
    let (outcome, left) := steps.runFrom { w with context := change w.context }
    (outcome, { left with context := w.context })

/-- Runs steps and brings the active domain back, also after an error. -/
def restoringDomain {α : Type} (steps : WalkM α) : WalkM α :=
  ExceptT.mk fun w =>
    let (outcome, left) := steps.runFrom w
    (outcome, { left with domain := w.domain })

end WalkM

end RelationSql
