/-!
# The context of a relation

While a tree is walked, a context says where in a `from` chain the current relation stands, which
scope was asked for, and what is being rendered. It is saved and restored around nested relations.
-/

namespace RelationSql

/-- What is being rendered. -/
inductive Phase where
  | relation | scope | filter | order | group | having | limit | paginate
  deriving DecidableEq, Repr, Inhabited

/-- The ways in which a domain may know a relation, in the order in which they are tried. -/
inductive RelationKind where
  /-- The relation moves the walk to another domain. -/
  | class_
  /-- The relation needs another table and a condition that joins it. -/
  | join
  /-- The relation reads the current table in another way. -/
  | context
  /-- The relation filters the main table and is scoped afterwards. -/
  | filter
  deriving DecidableEq, Repr, Inhabited

/-- All kinds, in the order in which they are tried. -/
def RelationKind.all : List RelationKind :=
  [class_, join, context, filter]

/-- The state of the walk that belongs to one relation. -/
structure Context where
  /-- Is this the outermost relation of its chain, the one whose records are returned? -/
  first : Bool := true
  /-- Is this the innermost relation of its chain, the one tied to the caller's record? -/
  last : Bool := true
  /-- The scope that was asked for. -/
  scope : Option String := none
  /-- The kind of relation that is being tried, until its scope is applied. -/
  scopeType : Option RelationKind := none
  /-- The alias that fields are rendered with, in place of the newest one of the main table. -/
  tableAlias : Option String := none
  phase : Phase := .relation
  deriving DecidableEq, Repr, Inhabited

end RelationSql
