import RelationSql.Tree.Operator

/-!
# Trees of a relation source

A source is read into a tree whose nodes carry a tag from a closed set. The leaves are atoms: the
names, numbers and quoted texts of the source.
-/

namespace RelationSql

/-- The tag of a node. -/
inductive Tag where
  | query
  | relation | scope | from_ | filter
  | clauseOr | clauseAnd | clausePar
  | par
  | order | group | having | limit | offset | paginate
  | asc | desc
  | field | param | string | dstring | integer | real | null
  | method | function | interval
  | void
  | op (operator : Operator)
  deriving DecidableEq, Repr, Inhabited

namespace Tag

/-- The name of the tag in the tree notation. -/
def name : Tag → String
  | query => "query"
  | relation => "relation"
  | scope => "scope"
  | from_ => "from"
  | filter => "filter"
  | clauseOr => "clause_or"
  | clauseAnd => "clause_and"
  | clausePar => "clause_par"
  | par => "par"
  | order => "order"
  | group => "group"
  | having => "having"
  | limit => "limit"
  | offset => "offset"
  | paginate => "paginate"
  | asc => "asc"
  | desc => "desc"
  | field => "field"
  | param => "param"
  | string => "string"
  | dstring => "dstring"
  | integer => "integer"
  | real => "real"
  | null => "null"
  | method => "method"
  | function => "function"
  | interval => "interval"
  | void => "void"
  | op operator => operator.symbol

/-- Is this the tag of a parenthesis, around clauses or in an expression? -/
def isParen (tag : Tag) : Bool :=
  tag == par || tag == clausePar

/-- Every tag. -/
def all : List Tag :=
  [query, relation, scope, from_, filter, clauseOr, clauseAnd, clausePar, par, order, group, having,
   limit, offset, paginate, asc, desc, field, param, string, dstring, integer, real, null, method,
   function, interval, void] ++ Operator.all.map op

/-- **The list of tags is complete.** -/
theorem mem_all (tag : Tag) : tag ∈ all := by
  cases tag with
  | op operator =>
    exact List.mem_append_right _ (List.mem_map.2 ⟨operator, operator.mem_all, rfl⟩)
  | _ => exact List.mem_append_left _ (by decide)

/-- The tag with this name. -/
def ofName? (text : String) : Option Tag :=
  all.find? fun tag => tag.name == text

/-- **A tag is recognised by its name; in particular no two tags share one.** -/
theorem ofName?_name (tag : Tag) : ofName? tag.name = some tag := by
  cases tag with
  | op operator => cases operator <;> decide
  | _ => decide

end Tag

/-- A tree: an atom, or a tag over trees. -/
inductive Tree where
  | atom (text : String)
  | node (tag : Tag) (children : List Tree)
  deriving Repr, Inhabited

namespace Tree

mutual

/-- Equality of trees is decidable. -/
def decideEq : (s t : Tree) → Decidable (s = t)
  | .atom a, .atom b =>
    if h : a = b then isTrue (congrArg Tree.atom h) else isFalse fun e => h (Tree.atom.inj e)
  | .atom _, .node _ _ => isFalse fun e => nomatch e
  | .node _ _, .atom _ => isFalse fun e => nomatch e
  | .node g cs, .node h ds =>
    match (inferInstance : Decidable (g = h)), decideEqAll cs ds with
    | isTrue e, isTrue f => isTrue (e ▸ f ▸ rfl)
    | isFalse e, _ => isFalse fun k => e (Tree.node.inj k).1
    | _, isFalse e => isFalse fun k => e (Tree.node.inj k).2

/-- Equality of lists of trees is decidable. -/
def decideEqAll : (ss ts : List Tree) → Decidable (ss = ts)
  | [], [] => isTrue rfl
  | [], _ :: _ => isFalse fun e => nomatch e
  | _ :: _, [] => isFalse fun e => nomatch e
  | s :: ss, t :: ts =>
    match decideEq s t, decideEqAll ss ts with
    | isTrue e, isTrue f => isTrue (e ▸ f ▸ rfl)
    | isFalse e, _ => isFalse fun k => e (List.cons.inj k).1
    | _, isFalse e => isFalse fun k => e (List.cons.inj k).2

end

instance : DecidableEq Tree := decideEq

/-- A node over one atom. -/
def leaf (tag : Tag) (text : String) : Tree :=
  .node tag [.atom text]

/-- The tag of a node; an atom has none. -/
def tag? : Tree → Option Tag
  | .atom _ => none
  | .node tag _ => some tag

/-- The text of an atom; a node has none. -/
def atom? : Tree → Option String
  | .atom text => some text
  | .node _ _ => none

/-- The trees right below a node; an atom has none. -/
def children? : Tree → Option (List Tree)
  | .atom _ => none
  | .node _ children => some children

end Tree

end RelationSql
