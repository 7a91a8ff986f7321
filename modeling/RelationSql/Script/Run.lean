import RelationSql.Query.Select
import RelationSql.Script.Action
import RelationSql.Script.Template
import RelationSql.Walk.Table

/-!
# Running actions

The actions of a hook run in order until one of them ends the hook. What they did to the walk before
an error or before they declined stays done.
-/

namespace RelationSql.Script

/-- The walk and the values of a hook's variables. -/
structure Frame where
  walk : Walk
  values : Dictionary String

/-- Steps of a script. Like the steps of a walk, they keep their state when they fail. -/
abbrev ScriptM := ExceptT CompileError (StateM Frame)

/-- How actions end. -/
inductive Ending where
  /-- All actions were run. -/
  | finished
  /-- The hook ends with a text. -/
  | emitted (text : String)
  /-- The hook declines. -/
  | declined
  deriving DecidableEq, Repr, Inhabited

/-- What the actions of a hook work on: the compile, and the sides of an equality if they were
asked for one. -/
structure Scene where
  host : Host
  operands : Option (Tree × Tree)

/-- The error that a script raises. -/
def Failure.error : Failure → String → CompileError
  | unknownRelation => .unknownRelation
  | unknownField => .unknownField
  | invalidScope => .invalidScope
  | pagination => .pagination
  | merge => .merge
  | configuration => .configuration
  | resolver => .resolver

namespace ScriptM

/-- The outcome of steps and the state they leave. -/
def runFrom {α : Type} (steps : ScriptM α) (f : Frame) : Except CompileError α × Frame :=
  (ExceptT.run steps).run f

/-- Takes steps of the walk. -/
def walk {α : Type} (steps : WalkM α) : ScriptM α :=
  ExceptT.mk fun f =>
    let (outcome, w) := steps.runFrom f.walk
    (outcome, { f with walk := w })

/-- Sets a variable. -/
def assign (target text : String) : ScriptM Unit :=
  modify fun f => { f with values := f.values.insert target text }

/-- Sets a variable to what steps of the walk yield. -/
def assignFrom (target : String) (steps : WalkM String) : ScriptM Ending := do
  assign target (← walk steps)
  return .finished

/-- Takes steps of the walk that yield nothing. -/
def perform (steps : WalkM Unit) : ScriptM Ending := do
  walk steps
  return .finished

/-- Runs steps in a scope and brings the context back, also after an error. -/
def inScope {α : Type} (scope : String) (steps : ScriptM α) : ScriptM α :=
  ExceptT.mk fun f =>
    let inside := { f.walk with context := { f.walk.context with scope := some scope } }
    let (outcome, left) := steps.runFrom { f with walk := inside }
    (outcome, { left with walk := { left.walk with context := f.walk.context } })

/-- Runs steps and sets a variable to how they ended; an ending of the hook is passed on. -/
def attempting (target : String) (steps : ScriptM Ending) : ScriptM Ending :=
  ExceptT.mk fun f =>
    let told (f : Frame) (text : String) : Frame :=
      { f with values := f.values.insert target text }
    match steps.runFrom f with
    | (.ok .finished, left) => (.ok .finished, told left "ok")
    | (.ok ending, left) => (.ok ending, left)
    | (.error fault, left) => (.ok .finished, told left fault.message)

end ScriptM

open ScriptM

/-! ## Texts -/

/-- The text of a name: of the current table, of the main table, or of a variable. -/
def Frame.lookup (f : Frame) (name : String) : Option String :=
  if name = "table" then some (Host.currentTable f.walk)
  else if name = "main_table" then some f.walk.query.mainTable
  else f.values.find? name

/-- Expands a template. -/
def text (template : String) : ScriptM String := do
  return expand (← get).lookup template

/-- What stands for a value that is not there. -/
def orNone (value : Option String) : String :=
  value.getD "none"

/-- Whether a condition holds. -/
def Condition.holds (f : Frame) : Condition → Bool
  | .first => f.walk.context.first
  | .last => f.walk.context.last
  | .scoped => f.walk.context.scope.isSome
  | .aliased => f.walk.context.tableAlias.isSome
  | .not condition => !condition.holds f
  | .eq left right => expand f.lookup left == expand f.lookup right

/-! ## Descriptions -/

/-- The name of a phase. -/
def phaseName : Phase → String
  | .relation => "relation"
  | .scope => "scope"
  | .filter => "filter"
  | .order => "order"
  | .group => "group"
  | .having => "having"
  | .limit => "limit"
  | .paginate => "paginate"

/-- The name of a kind of relation. -/
def kindName : RelationKind → String
  | .class_ => "class"
  | .join => "join"
  | .context => "context"
  | .filter => "filter"

/-- What stands for a value that is not there, in a description. -/
def orDash (value : Option String) : String :=
  value.getD "-"

/-- The name of a truth value. -/
def truthName (value : Bool) : String :=
  if value then "true" else "false"

/-- A description of the walk. -/
def describe (host : Host) : WalkM String := do
  let profile ← host.activeProfile
  let defaultScope ← host.defaultScope
  let w ← get
  let c := w.context
  return Text.joinWith " "
    [profile.name, w.query.mainClass, "first=" ++ truthName c.first, "last=" ++ truthName c.last,
     "scope=" ++ orDash c.scope, "type=" ++ orDash (c.scopeType.map kindName),
     "alias=" ++ orDash c.tableAlias, "current=" ++ orDash (Host.currentAlias w),
     "phase=" ++ phaseName c.phase, "ds=" ++ orDash defaultScope,
     "group=" ++ orDash host.options.group, "dialect=" ++ host.dialect.name]

/-! ## Actions -/

/-- Renders a side of the equality that was asked for. -/
def Scene.side (scene : Scene) (side : Side) : WalkM String :=
  match scene.operands, side with
  | some (left, _), .left => scene.host.process left
  | some (_, right), .right => scene.host.process right
  | none, _ => throw (.resolver "no equality was asked for")

/-- Renders a field with an alias of a table. -/
def fieldWith (host : Host) (name table : String) (index : Int) : WalkM String := do
  host.fieldOrAttrIn name ((← WalkM.query).alias? table index)

/-- Applies the default scope if there is one. -/
def applyDefaultScope (host : Host) : WalkM Unit := do
  host.applyScope? (← host.defaultScope)

/-- Adds an index table that a template ties to the current table by its alias. -/
def keyValue (use table key tie : String) : WalkM String :=
  WalkM.updateQuery
    (Query.addKeyValueTable use table key fun name => Text.replaceAll (slot "alias") name tie)

mutual

/-- Runs one action. -/
def runAction (scene : Scene) : Action → ScriptM Ending
  | .addTable table => do
    perform (scene.host.addTable (← text table))
  | .addTableAs use table => do
    perform (scene.host.addTableAs (← text use) (← text table))
  | .queryTable use table avoidAlias => do
    perform (WalkM.modifyQuery (Query.addTable (← text use) (← text table) avoidAlias))
  | .filter template => do
    perform (WalkM.addFilter (← text template))
  | .set target template => do
    assign target (← text template)
    return .finished
  | .tableAt target table index => do
    let table ← text table
    assignFrom target (return orNone ((← WalkM.query).alias? table index))
  | .field target name => do
    assignFrom target (scene.host.fieldOrAttr (← text name))
  | .fieldAt target name table index => do
    assignFrom target (fieldWith scene.host (← text name) (← text table) index)
  | .resolve target name => do
    assignFrom target (scene.host.resolveField (← text name))
  | .attr target name => do
    assignFrom target (scene.host.attr (← text name))
  | .default target key => do
    let key ← text key
    assignFrom target (return orNone (← scene.host.default key))
  | .useDefaultScope => perform scene.host.useDefaultScope
  | .applyScope scope => do
    perform (scene.host.applyScope (← text scope))
  | .applyDefaultScope => perform (applyDefaultScope scene.host)
  | .changeDomain domain => do
    perform (scene.host.changeDomain (← text domain))
  | .join target table1 kind table2 clause name => do
    assignFrom target
      (WalkM.updateQuery
        (Query.addJoin (← text table1) (← text kind) (← text table2) (← text clause) name))
  | .keyValue target use table key tie => do
    assignFrom target (keyValue (← text use) (← text table) (← text key) (← text tie))
  | .select field name => do
    perform (WalkM.modifyQuery (Query.addSelect (← text field) (← text name)))
  | .setAlias none => perform (WalkM.modifyContext fun c => { c with tableAlias := none })
  | .setAlias (some name) => do
    let name ← text name
    perform (WalkM.modifyContext fun c => { c with tableAlias := some name })
  | .withScope scope actions => do
    inScope (← text scope) (runActions scene actions)
  | .info target => assignFrom target (describe scene.host)
  | .process target side => assignFrom target (scene.side side)
  | .eval target tree => assignFrom target (scene.host.process tree)
  | .branch condition then_ else_ => do
    if condition.holds (← get) then runActions scene then_ else runActions scene else_
  | .attempt target actions => attempting target (runActions scene actions)
  | .emit template => do
    return .emitted (← text template)
  | .decline => return .declined
  | .fail failure reason => do
    throw (failure.error (← text reason))

/-- Runs actions until one of them ends the hook. -/
def runActions (scene : Scene) : List Action → ScriptM Ending
  | [] => return .finished
  | action :: actions => do
    match ← runAction scene action with
    | .finished => runActions scene actions
    | ending => return ending

end

/-- Runs the actions of a hook from the values of its variables. -/
def runHook (scene : Scene) (values : List (String × String)) (actions : List Action) :
    WalkM Ending :=
  ExceptT.mk fun w =>
    let (outcome, f) := (runActions scene actions).runFrom ⟨w, .ofList values⟩
    (outcome, f.walk)

end RelationSql.Script
