import RelationSql.Walk.Host

/-!
# Domains

A domain is its profile and its hooks. A hook either knows a name and does its work, or declines; each
hook declines everything unless the domain says otherwise.
-/

namespace RelationSql

/-- A domain: its profile and the hooks by which it takes part in a walk. -/
structure Domain where
  profile : Profile
  /-- Resolves a relation in one of the ways, or declines. -/
  relation : Host → RelationKind → String → WalkM Bool := fun _ _ _ => pure false
  /-- Renders a field of the current table. -/
  field : Host → String → WalkM (Option String) := fun _ _ => pure none
  /-- Translates the call of a method on a rendered argument. -/
  function : Host → (argument method : String) → WalkM (Option String) := fun _ _ _ => pure none
  /-- Renders an equality that has a form of its own in the domain. -/
  equal : Host → (left right : Tree) → WalkM (Option String) := fun _ _ _ => pure none
  /-- Runs before the tree of a source is walked. -/
  before : Host → WalkM Unit := fun _ => pure ()
  /-- Runs after the tree of a source was walked. -/
  after : Host → WalkM Unit := fun _ => pure ()

end RelationSql
