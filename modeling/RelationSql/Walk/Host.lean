import RelationSql.Custom.Store
import RelationSql.Domain.Profile
import RelationSql.Tree.Basic

/-!
# What the hooks of a domain can ask for

The hooks of a domain take part in the walk: they add tables and conditions, render fields and whole
trees, apply scopes and hand the walk over to other domains. A host is what they see of the compile
they take part in. The calls that may come back to a hook are fields of the host, so the steps built
on them (in `RelationSql.Walk.Table`) are ordinary definitions.
-/

namespace RelationSql

/-- Turns the source of an interpolated text into a bind expression, or says why not. -/
abbrev Translator := String → Except String String

/-- The settings of one compile. -/
structure Options where
  /-- The group of custom queries that the compile can see. -/
  group : Option String := none
  /-- Defaults that override those of the domains. -/
  defaults : Dictionary String := .empty
  /-- The limit of a source that has none. -/
  limit : Option Nat := none
  /-- The class of the returned records. -/
  mainClass : Option String := none
  /-- Writes the quoted texts of the source in place of the dialect. -/
  connection : Option Quoting := none
  translator : Option Translator := none

instance : Inhabited Options := ⟨{}⟩

/-- The compile as a hook sees it. -/
structure Host where
  options : Options
  dialect : Dialect
  customQueries : CustomQueries
  /-- The profiles of the domains of the catalog. -/
  profile? : String → Option Profile
  /-- Asks a domain whether it knows a relation in one of the ways. -/
  relation : (domain : String) → RelationKind → (relation : String) → WalkM Bool
  /-- Asks the active domain for a field. -/
  field : String → WalkM (Option String)
  /-- Asks the active domain for a method call. -/
  function : (argument method : String) → WalkM (Option String)
  /-- Asks the active domain for a form of an equality. -/
  equal : (left right : Tree) → WalkM (Option String)
  /-- Renders a tree. -/
  process : Tree → WalkM String

namespace Host

/-- The profile of the active domain. -/
def activeProfile (host : Host) : WalkM Profile := do
  let name := (← get).domain
  match host.profile? name with
  | some profile => return profile
  | none => throw (.unknownDomain name)

/-- A default: that of the compile, or else that of the active domain. -/
def default (host : Host) (key : String) : WalkM (Option String) := do
  let profile ← host.activeProfile
  return host.options.defaults.find? key <|> profile.default key

/-- The scope of relations that name none. The settings of the compile count for the innermost
relation only. -/
def defaultScope (host : Host) : WalkM (Option String) := do
  if (← WalkM.context).last then host.default "scope"
  else return (← host.activeProfile).default "scope"

/-- Asks for the default scope if no scope was asked for. -/
def useDefaultScope (host : Host) : WalkM Unit := do
  if (← WalkM.context).scope.isNone then
    let scope ← host.defaultScope
    WalkM.modifyContext fun c => { c with scope := scope }

/-- The literal of a quoted text of the source. -/
def quoteLiteral (host : Host) (content : String) : WalkM String := do
  let quote := host.options.connection.getD (← WalkM.query).dialect.quoteValue
  return Fragment.protectText (quote (.text content))

end Host

end RelationSql
