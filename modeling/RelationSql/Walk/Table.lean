import RelationSql.Fragment.Marker
import RelationSql.Walk.Host

/-!
# Tables, scopes and fields

In `letters from friends in project from foo` the relations are resolved from right to left: `foo`,
then `friends` in its scope, then `letters` in its default scope. Each adds an occurrence of the main
table. A relation that joins applies its scope before its occurrence is added, a relation that
filters after it, so a scope always compares the newest occurrence with the one before it. The first
of all has none before it, and is compared with the caller's record through a bind.
-/

namespace RelationSql.Host

open WalkM

/-! ## Aliases -/

/-- The alias that fields are rendered with. -/
def currentAlias (w : Walk) : Option String :=
  w.context.tableAlias <|> w.query.alias? w.query.mainTable 0

/-- The alias that fields are rendered with, or else the main table. -/
def currentTable (w : Walk) : String :=
  (currentAlias w).getD w.query.mainTable

/-! ## Fields -/

/-- A selected key as it stands for a field. A condition has it in parentheses. -/
def attributeText (phase : Phase) (expression : String) : String :=
  if phase = .filter then "(" ++ expression ++ ")" else expression

/-- Renders a field of the active domain or a selected key. -/
def resolveField (host : Host) (name : String) : WalkM String := do
  match ← host.field name with
  | some rendered => return rendered
  | none =>
    match (← query).attributes.find? name with
    | some expression => return attributeText (← context).phase expression
    | none => throw (.unknownField name)

/-- The bind of an expression that is evaluated when the statement is executed. -/
def attr (host : Host) (name : String) : WalkM String :=
  match host.options.translator with
  | none => return Fragment.insertBind name
  | some translate =>
    match translate name with
    | .ok expression => return Fragment.insertBind expression
    | .error reason => throw (.expression name reason)

/-- Renders a field with an alias, or as a bind where there is no alias. -/
def fieldOrAttrIn (host : Host) (name : String) : Option String → WalkM String
  | some occurrence =>
    within (fun c => { c with tableAlias := some occurrence }) (host.resolveField name)
  | none => host.attr name

/-- Renders a field with the current alias, or as a bind while there is no occurrence. -/
def fieldOrAttr (host : Host) (name : String) : WalkM String := do
  host.fieldOrAttrIn name (currentAlias (← get))

/-! ## Scopes -/

/-- The condition of a scope between the newest occurrence of the main table and the one before. -/
def applyRule (host : Host) : ScopeRule → WalkM Unit
  | .unscoped => return
  | .compare current previous => do
    let current ← host.fieldOrAttr current
    let q ← query
    let previous ← host.fieldOrAttrIn previous (q.alias? q.mainTable (-1))
    addFilter (current ++ " = " ++ previous)

/-- Applies a scope. -/
def applyScope (host : Host) (scope : String) : WalkM Unit := do
  enterPhase .scope
  let profile ← host.activeProfile
  match profile.scope scope (← get) with
  | .error fault => throw fault
  | .ok none => throw (.invalidScope scope)
  | .ok (some rule) => host.applyRule rule

/-- Applies a scope if there is one. -/
def applyScope? (host : Host) : Option String → WalkM Unit
  | some scope => host.applyScope scope
  | none => return

/-! ## Adding tables -/

/-- The scope to be applied before a join. -/
def joinScope (host : Host) : WalkM (Option String) := do
  let profile ← host.activeProfile
  return (← context).scope.filter profile.needsJoinScope

/-- Adds a use of the main table, with the scope of the relation around it. -/
def addMainTable (host : Host) (use table : String) : WalkM Unit := do
  let first := (← context).first
  if first then modifyContext fun c => { c with tableAlias := some use }
  match (← context).scopeType with
  | some .join => do
    modifyContext fun c => { c with scopeType := none }
    match ← host.joinScope with
    | some scope => do
      -- the scope needs an occurrence of its own in front of the one that is joined
      modifyQuery (Query.addTable use use first)
      host.applyScope scope
    | none => pure ()
    modifyQuery (Query.addTable use table first)
  | some .filter => do
    modifyContext fun c => { c with scopeType := none }
    modifyQuery (Query.addTable use table first)
    match (← context).scope with
    | some scope => host.applyScope scope
    | none => host.applyScope? (← host.defaultScope)
  | _ => modifyQuery (Query.addTable use table first)

/-- Adds a use of a table under a name. A table other than the main table keeps its bare name where
it can. -/
def addTableAs (host : Host) (use table : String) : WalkM Unit := do
  if use = (← query).mainTable then host.addMainTable use table
  else modifyQuery (Query.addTable use table true)

/-- Adds a use of a table under its own name. -/
def addTable (host : Host) (table : String) : WalkM Unit :=
  host.addTableAs table table

/-! ## Domains -/

/-- The walk in the hands of another domain. -/
def enter (profile : Profile) (w : Walk) : Walk where
  domain := profile.name
  context := { w.context with tableAlias := none }
  query := { w.query with mainTable := profile.mainTable, mainClass := profile.mainClass }

/-- Hands the rest of the walk over to another domain of the catalog. -/
def changeDomain (host : Host) (name : String) : WalkM Unit :=
  match host.profile? name with
  | some profile => modify (enter profile)
  | none => throw (.unknownDomain name)

end RelationSql.Host
