import RelationSql.Fragment.Clause
import RelationSql.Query.Select
import RelationSql.Walk.Alternative
import RelationSql.Walk.Table

/-!
# Relations and clauses

A clause first walks the relation it stands behind, then renders its own operands and adds them to
the query. Clauses themselves render as nothing, and a scope as what it stands behind.
-/

namespace RelationSql.Clause

open RelationSql.Part RelationSql.WalkM

/-! ## Relations -/

/-- The custom query for a relation. Only a relation that stands alone may be replaced by one. -/
def customQuery? (host : Host) (w : Walk) (relation : String) : Option CustomQuery := do
  let group ← host.options.group
  if w.context.first && w.context.last then host.customQueries.find? group w.domain relation
  else none

/-- Asks a domain for a relation in each of the ways. -/
def askDomain (host : Host) (domain relation : String) : List RelationKind → WalkM Unit
  | [] => throw (.unknownRelation relation)
  | kind :: kinds => do
    if kind ≠ .class_ then modifyContext fun c => { c with scopeType := some kind }
    if ← host.relation domain kind relation then return
    else askDomain host domain relation kinds

/-- A relation: a custom query, or else one that the active domain knows. -/
def relation (host : Host) (name : String) : WalkM Unit := do
  let w ← get
  match customQuery? host w name with
  | some custom => modifyQuery (Query.applyCustom custom)
  | none => askDomain host w.domain name RelationKind.all

/-- A relation in a scope. -/
def scope (parts : List Part) : WalkM String := do
  let inner ← child .scope parts 0
  let name ← atomChild .scope parts 1
  within (fun c => { c with scope := some name }) inner.render

/-- A chain `outer from inner`. The inner relation is nearer to the caller's record and is resolved
first. -/
def from_ (parts : List Part) : WalkM Unit := do
  let outer ← child .from_ parts 0
  let inner ← child .from_ parts 1
  -- one record may be reached by several ways through the chain
  modifyQuery fun q => { q with distinct := true }
  let _ ← within (fun c => { c with first := false }) inner.render
  let _ ← within (fun c => { c with last := false }) outer.render

/-- A relation with a condition. -/
def filter (parts : List Part) : WalkM Unit := do
  let _ ← renderChild .filter parts 0
  enterPhase .filter
  addFilter (← renderChild .filter parts 1)

/-! ## Lists -/

/-- Walks the relation in front of a clause and renders the items of the clause. -/
def items (tag : Tag) (phase : Phase) (parts : List Part) : WalkM String :=
  match parts with
  | [] => throw (.unsupportedOperator tag.name)
  | inner :: parts => do
    let _ ← inner.render
    enterPhase phase
    return Text.joinWith ", " (← renderAll parts)

/-- An order. -/
def order (parts : List Part) : WalkM Unit := do
  let body ← items .order .order parts
  modifyQuery fun q => { q with order := some (" ORDER BY " ++ body) }

/-- A group. -/
def group (parts : List Part) : WalkM Unit := do
  let body ← items .group .group parts
  modifyQuery fun q => { q with group := some (" GROUP BY " ++ body) }

/-- A condition on groups. -/
def having (parts : List Part) : WalkM Unit := do
  let body ← items .having .having parts
  modifyQuery fun q => { q with having := some (" HAVING " ++ body) }

/-! ## Pages -/

/-- Sets the limit. -/
def setLimit (count : String) : WalkM Unit :=
  modifyQuery fun q => { q with limit := some (" LIMIT " ++ count) }

/-- Sets the offset. -/
def setOffset (offset : String) : WalkM Unit :=
  modifyQuery fun q => { q with offset := some (" OFFSET " ++ offset) }

/-- A limit, `limit count` or `limit offset, count`. -/
def limit (parts : List Part) : WalkM Unit := do
  let _ ← renderChild .limit parts 0
  enterPhase .limit
  match parts.drop 1 with
  | [count] => setLimit (← count.render)
  | [offset, count] => do
    setLimit (← count.render)
    setOffset (← offset.render)
  | _ => throw (.unsupportedOperator Tag.limit.name)

/-- An offset, which needs a limit. -/
def offset (parts : List Part) : WalkM Unit := do
  let _ ← renderChild .offset parts 0
  if (← query).limit.isNone then throw (.pagination "Invalid offset (used without limit).")
  enterPhase .limit
  setOffset (← renderChild .offset parts 1)

/-- The size of a page: the number of the limit, but at least one. -/
def pageSize? (q : Query) : Option Nat :=
  (q.limit.bind Fragment.limitValue?).map (max 1)

/-- The expression of a page's offset. -/
def pageOffset (key : String) (size : Nat) : String :=
  "(max(" ++ key ++ ",1)-1)*" ++ toString size

/-- Sets the page to the one that a parameter numbers. -/
def setPage (key : String) (size : Nat) : WalkM Unit := do
  setOffset (Fragment.insertBind (pageOffset key size))
  modifyQuery fun q => { q with pageKey := some key, pageSize := some size }

/-- Pages, which need a limit with a number. The offset is computed when the statement is
executed. -/
def paginate (parts : List Part) : WalkM Unit := do
  let _ ← renderChild .paginate parts 0
  match pageSize? (← query) with
  | none => throw (.pagination "Invalid paginate clause (used without limit).")
  | some size => do
    enterPhase .paginate
    setPage (← renderChild .paginate parts 1) size

/-- A field of an order with its direction. -/
def direction (tag : Tag) (word : String) (parts : List Part) : WalkM String := do
  return (← renderChild tag parts 0) ++ " " ++ word

end RelationSql.Clause
