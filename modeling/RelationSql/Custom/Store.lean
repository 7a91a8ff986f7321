import RelationSql.Custom.Definition

/-!
# Sets of custom queries

Definitions are kept by group, domain and relation, so that different callers can see different
definitions.
-/

namespace RelationSql

/-- Custom queries by group, domain and relation. -/
structure CustomQueries where
  groups : Dictionary (Dictionary (Dictionary CustomQuery))
  deriving DecidableEq, Inhabited

namespace CustomQueries

/-- The set without definitions. -/
def empty : CustomQueries := ⟨.empty⟩

/-- Does the set hold no definition? -/
def isEmpty (set : CustomQueries) : Bool :=
  set.groups.isEmpty

/-- Sets one definition. -/
def insert (group domain relation : String) (custom : CustomQuery) (set : CustomQueries) :
    CustomQueries :=
  let domains := set.groups.findD group .empty
  let relations := domains.findD domain .empty
  ⟨set.groups.insert group (domains.insert domain (relations.insert relation custom))⟩

/-- The definition of a relation. -/
def find? (set : CustomQueries) (group domain relation : String) : Option CustomQuery := do
  let domains ← set.groups.find? group
  let relations ← domains.find? domain
  relations.find? relation

end CustomQueries

end RelationSql
