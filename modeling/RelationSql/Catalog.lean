import RelationSql.Custom.Document
import RelationSql.Domain.Basic
import RelationSql.Walk.Render

/-!
# Compiling a source

A catalog holds the domains that relations can move between, the custom queries and the dialect.
`Catalog.compile` parses a source and walks its tree from a start domain.

Hooks may render trees and fields, which calls further hooks. Each call sees a host that allows one
call less (`Catalog.host`), so hooks that call each other without end come to an error.
-/

namespace RelationSql

/-- The domains, custom queries and dialect that compiles share. -/
structure Catalog where
  domains : Dictionary Domain := .empty
  customQueries : CustomQueries := .empty
  dialect : Dialect := .generic

namespace Catalog

/-- Adds a domain under its name. -/
def addDomain (domain : Domain) (catalog : Catalog) : Catalog :=
  { catalog with domains := catalog.domains.insert domain.profile.name domain }

/-- Loads the text of a custom query document for the domains of the catalog. -/
def loadCustomQueries (document : String) (catalog : Catalog) : Except CompileError Catalog :=
  let known (domain : String) := (catalog.domains.find? domain).isSome
  match catalog.customQueries.load document known with
  | (.ok (), set) => .ok { catalog with customQueries := set }
  | (.error fault, _) => .error fault

/-! ## Hooks -/

/-- A domain of the catalog. -/
def domain (catalog : Catalog) (name : String) : WalkM Domain :=
  match catalog.domains.find? name with
  | some domain => return domain
  | none => throw (.unknownDomain name)

/-- The active domain. -/
def activeDomain (catalog : Catalog) : WalkM Domain := do
  catalog.domain (← get).domain

/-- The error of hooks that call each other without end. -/
def endless : CompileError := .resolver "hooks call each other without end"

/-- The host that hooks see when `depth` further calls are allowed. -/
def host (catalog : Catalog) (options : Options) : (depth : Nat) → Host
  | 0 =>
    { options, dialect := catalog.dialect, customQueries := catalog.customQueries
      profile? := fun name => (catalog.domains.find? name).map Domain.profile
      relation := fun _ _ _ => throw endless
      field := fun _ => throw endless
      function := fun _ _ => throw endless
      equal := fun _ _ => throw endless
      process := fun _ => throw endless }
  | depth + 1 =>
    { options, dialect := catalog.dialect, customQueries := catalog.customQueries
      profile? := fun name => (catalog.domains.find? name).map Domain.profile
      relation := fun name kind relation => do
        (← catalog.domain name).relation (catalog.host options depth) kind relation
      field := fun name => do
        (← catalog.activeDomain).field (catalog.host options depth) name
      function := fun argument method => do
        (← catalog.activeDomain).function (catalog.host options depth) argument method
      equal := fun left right => do
        (← catalog.activeDomain).equal (catalog.host options depth) left right
      process := fun tree => render (catalog.host options depth) tree }

/-- How deep calls of hooks may be nested. -/
def maxDepth : Nat := 10000

/-! ## Compiling -/

/-- The walk before a source is looked at. -/
def start (catalog : Catalog) (options : Options) (domain : Domain) : Walk where
  domain := domain.profile.name
  context := {}
  query :=
    Query.new catalog.dialect domain.profile.mainTable
      (options.mainClass.getD domain.profile.mainClass)

/-- The tree to be walked: an empty source names the main table. -/
def wholeTree (mainTable : String) : Tree → Tree
  | .node .query [] => .node .query [.leaf .relation mainTable]
  | tree => tree

/-- Sets the limit of a query that has none. -/
def applyLimit (limit : Option Nat) (q : Query) : Query :=
  match q.limit, limit with
  | none, some limit => { q with limit := some (" LIMIT " ++ toString limit) }
  | _, _ => q

/-- Walks a tree, with the hooks before and after it. -/
def walk (catalog : Catalog) (options : Options) (tree : Tree) : WalkM Unit := do
  let host := catalog.host options maxDepth
  (← catalog.activeDomain).before host
  let q ← WalkM.query
  let _ ← render host (wholeTree q.mainTable tree)
  -- a limit of the source wins over the limit of the options
  WalkM.modifyQuery (applyLimit options.limit)
  (← catalog.activeDomain).after host

/-- The outcome of a compile. The failure of a hook is told with the source. -/
def outcome (source : String) : Except CompileError Unit × Walk → Except CompileError Query
  | (.ok (), w) => .ok w.query
  | (.error (.resolver reason), _) => .error (.failed source reason)
  | (.error fault, _) => .error fault

/-- Compiles a source from a start domain. -/
def compile (catalog : Catalog) (options : Options) (domain source : String) :
    Except CompileError Query :=
  -- an unknown domain is told before any fault of the source
  match catalog.domains.find? domain with
  | none => .error (.unknownDomain domain)
  | some start =>
    match Grammar.parse source with
    | .error fault => .error (.malformed fault)
    | .ok tree => outcome source ((catalog.walk options tree).runFrom (catalog.start options start))

end Catalog

end RelationSql
