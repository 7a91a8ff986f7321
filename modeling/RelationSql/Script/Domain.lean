import RelationSql.Domain.Basic
import RelationSql.Script.Run

/-!
# Scripted domains

A script describes a whole domain: its names, its scopes, its fields and functions by rules, and its
relations by lists of actions. `Script.domain` is the domain that it describes.
-/

namespace RelationSql

namespace Script

/-- A rule for scopes. The first rule that lists a scope and whose condition holds decides. -/
structure ScopeEntry where
  names : List String
  condition : Option Condition := none
  /-- The reason for which the scope fails. -/
  fail : Option String := none
  /-- The fields that the scope compares. -/
  compare : Option (String × String) := none
  deriving Inhabited

/-- A rule for fields or functions: for some names, or for all names with a common start. -/
structure NameRule where
  names : List String
  start : Option String := none
  actions : Option (List Action) := none
  deriving Inhabited

/-- What follows the common start of the names of a rule. -/
def NameRule.key? (rule : NameRule) (name : String) : Option String :=
  rule.start.bind fun start =>
    (Text.after? start.toList name.toList).map String.ofList

/-- Does the rule speak of the name? -/
def NameRule.covers (rule : NameRule) (name : String) : Bool :=
  rule.names.contains name || (rule.key? name).isSome

/-- The rule for a name. -/
def ruleFor? (rules : List NameRule) (name : String) : Option NameRule :=
  rules.find? fun rule => rule.covers name

end Script

open Script

/-- A domain described as data. -/
structure Script where
  name : String
  mainTable : String
  mainClass : String
  default : Dictionary String := .empty
  scopes : List ScopeEntry := []
  fields : List NameRule := []
  functions : List NameRule := []
  /-- The actions of each kind of relation by name; `*` stands for all other names. -/
  relations : RelationKind → Dictionary (List Action) := fun _ => .empty
  /-- The scopes that are not applied before a join. -/
  noJoinScope : List String := []
  equal : List Action := []
  before : List Action := []
  after : List Action := []
  /-- What is done about a missing table; without it, merges are refused. -/
  missing : Option (List Repair) := none
  deriving Inhabited

namespace Script

/-! ## Scopes and missing tables -/

/-- Does a rule for scopes decide in this state? -/
def ScopeEntry.decides (entry : ScopeEntry) (scope : String) (w : Walk) : Bool :=
  entry.names.contains scope && entry.condition.all fun condition => condition.holds ⟨w, .empty⟩

/-- What a rule for scopes says. -/
def ScopeEntry.rule (entry : ScopeEntry) : Except CompileError ScopeRule :=
  match entry.fail, entry.compare with
  | some reason, _ => .error (.resolver reason)
  | none, some (current, previous) => .ok (.compare current previous)
  | none, none => .ok .unscoped

/-- The rule of a scope. -/
def scopeRule (script : Script) (scope : String) (w : Walk) :
    Except CompileError (Option ScopeRule) :=
  match script.scopes.find? fun entry => entry.decides scope w with
  | none => .ok none
  | some entry => entry.rule.map some

/-- A text with the alias and the name of a missing table in its slots. -/
def fillRepair (name table text : String) : String :=
  Text.replaceAll (slot "table") table (Text.replaceAll (slot "alias") name text)

/-- Makes one repair. -/
def Repair.run (name table : String) (q : Query) : Repair → Except CompileError Query
  | filter text => .ok (q.addFilter (fillRepair name table text))
  | queryTable use added avoidAlias =>
    .ok (q.addTable (fillRepair name table use) (fillRepair name table added) avoidAlias)
  | fail failure reason => .error (failure.error (fillRepair name table reason))

/-- Makes the repairs of a missing table. -/
def repair (script : Script) (name table : String) (q : Query) : Except CompileError Query :=
  match script.missing with
  | none => .error (.merge name)
  | some repairs => repairs.foldlM (Repair.run name table) q

/-- The profile that a script describes. -/
def profile (script : Script) : Profile where
  name := script.name
  mainTable := script.mainTable
  mainClass := script.mainClass
  default := script.default.find?
  needsJoinScope := fun scope => !script.noJoinScope.contains scope
  scope := script.scopeRule
  missingTable := script.repair

/-! ## Hooks -/

/-- The text that a hook ended with. -/
def Ending.text? : Ending → Option String
  | .emitted text => some text
  | _ => none

/-- The actions for a relation. -/
def relationActions? (script : Script) (kind : RelationKind) (name : String) :
    Option (List Action) :=
  (script.relations kind).find? name <|> (script.relations kind).find? "*"

/-- Resolves a relation. -/
def relation (script : Script) (host : Host) (kind : RelationKind) (name : String) :
    WalkM Bool :=
  match script.relationActions? kind name with
  | none => return false
  | some actions => do
    let ending ← runHook ⟨host, none⟩ [("name", name)] actions
    return ending != .declined

/-- Renders a field. A rule without actions renders it as a column of the current table. -/
def field (script : Script) (host : Host) (name : String) : WalkM (Option String) :=
  match ruleFor? script.fields name with
  | none => return none
  | some rule =>
    match rule.actions with
    | none => return some (Host.currentTable (← get) ++ "." ++ name)
    | some actions => do
      let values := [("name", name), ("key", (rule.key? name).getD "")]
      return (← runHook ⟨host, none⟩ values actions).text?

/-- Translates a method call. -/
def function (script : Script) (host : Host) (argument method : String) :
    WalkM (Option String) :=
  match ruleFor? script.functions method with
  | none => return none
  | some rule => do
    let values := [("name", method), ("key", (rule.key? method).getD ""), ("arg", argument)]
    return (← runHook ⟨host, none⟩ values (rule.actions.getD [])).text?

/-- The name of a tree's tag; an atom has none. -/
def tagName (tree : Tree) : String :=
  (tree.tag?.map Tag.name).getD ""

/-- Renders an equality. -/
def equality (script : Script) (host : Host) (left right : Tree) : WalkM (Option String) := do
  let values := [("left_tag", tagName left), ("right_tag", tagName right)]
  return (← runHook ⟨host, some (left, right)⟩ values script.equal).text?

/-- Runs actions for what they do. -/
def runSilently (host : Host) (actions : List Action) : WalkM Unit := do
  let _ ← runHook ⟨host, none⟩ [] actions

/-- The domain that a script describes. -/
def domain (script : Script) : Domain where
  profile := script.profile
  relation := script.relation
  field := script.field
  function := script.function
  equal := script.equality
  before := fun host => runSilently host script.before
  after := fun host => runSilently host script.after

end Script

end RelationSql
