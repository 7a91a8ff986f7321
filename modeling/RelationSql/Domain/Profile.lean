import RelationSql.Walk.State

/-!
# What a domain is

A domain describes one table and the relations that can be reached from it. Its profile holds what
can be said without taking part in a walk: its names, its defaults, how its scopes compare fields,
and what it does about a table that is missing in a branch of an alternative.
-/

namespace RelationSql

/-- How a scope ties an occurrence of the main table to the one before it. -/
inductive ScopeRule where
  /-- A field of the newer occurrence equals a field of the one before. -/
  | compare (current previous : String)
  /-- The scope is known and needs no condition. -/
  | unscoped
  deriving DecidableEq, Repr, Inhabited

/-- What can be said of a domain without taking part in a walk. -/
structure Profile where
  /-- The name by which the catalog knows the domain. -/
  name : String
  /-- The table of its records. -/
  mainTable : String
  /-- The class of its records. -/
  mainClass : String
  /-- The domain's own defaults, such as `scope` and `order`. -/
  default : String → Option String := fun _ => none
  /-- Is the scope applied before a join? -/
  needsJoinScope : String → Bool := fun _ => true
  /-- The rule of a scope; none if the domain does not know it. -/
  scope : String → Walk → Except CompileError (Option ScopeRule) := fun _ _ => .ok none
  /-- Mends a branch that lacks a table, given by the name it is known by and its own, or refuses. -/
  missingTable : (name table : String) → Query → Except CompileError Query :=
    fun name _ _ => .error (.merge name)

end RelationSql
