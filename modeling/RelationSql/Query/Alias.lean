import RelationSql.Fragment.TableReference
import RelationSql.Query.Basic

/-!
# Tables and their aliases

Every use of a table gets a name of its own. Further uses are numbered behind the first two letters
of the name; `addTable` counts the uses so far, `joinAlias` takes the first number that is free. All
aliases of a table are recorded, so that a later step can refer to the newest use (`alias? _ 0`) or
the one before it (`alias? _ (-1)`).
-/

namespace RelationSql.Query

open RelationSql.Fragment (TableReference)

/-- The first two letters of a name and a number. -/
def numbered (name : String) (n : Nat) : String :=
  String.ofList (name.toList.take 2) ++ toString n

/-- All aliases of a table, in the order of use. -/
def aliases (q : Query) (table : String) : List String :=
  q.tableAlias.findD table []

/-- Records an alias of a table. -/
def recordAlias (table name : String) (q : Query) : Query :=
  { q with tableAlias := q.tableAlias.insert table (q.aliases table ++ [name]) }

/-- An alias of a table: 0 is the newest, -1 the one before it, 1 the first. -/
def alias? (q : Query) (table : String) (index : Int) : Option String :=
  let known := q.aliases table
  if 0 < index then known[(index - 1).toNat]?
  else
    let back := (1 - index).toNat
    if back ≤ known.length then known[known.length - back]? else none

/-- The newest alias of the main table, or its bare name. -/
def currentTable (q : Query) : String :=
  (q.alias? q.mainTable 0).getD q.mainTable

/-! ## Entries of `FROM` -/

/-- The alias for a new use of `table` under the name `use`. Where the caller wants the bare name
and no entry has it yet, the use keeps its name. -/
def newAlias (q : Query) (use table : String) (avoidAlias : Bool) : String :=
  let used := (q.aliases use).length
  if avoidAlias && !q.tables.contains table then use
  else if q.tables.contains use then numbered use used
  else numbered use (used + 1)

/-- Adds a use of `table` under the name `use`. -/
def addTable (use table : String) (avoidAlias : Bool) (q : Query) : Query :=
  let name := q.newAlias use table avoidAlias
  let q := q.recordAlias use name
  { q with tables := q.tables ++ [TableReference.write ⟨table, name⟩] }

/-! ## Index tables -/

/-- The alias under which an index table was added for a key of the current main table. -/
def keyValueAlias? (q : Query) (use key : String) : Option String := do
  let tables ← q.keyValueTables.find? q.currentTable
  let keys ← tables.find? use
  keys.find? key

/-- Records the alias of an index table. -/
def recordKeyValue (current use key name : String) (q : Query) : Query :=
  let tables := q.keyValueTables.findD current .empty
  let keys := tables.findD use .empty
  { q with
    keyValueTables := q.keyValueTables.insert current
      (tables.insert use (keys.insert key name)) }

/-- Adds an index table for a key once per main alias, with the condition `tie name` that ties it
to the current main table. -/
def addKeyValueTable (use table key : String) (tie : String → String) (q : Query) :
    String × Query :=
  match q.keyValueAlias? use key with
  | some name => (name, q)
  | none =>
    let added := q.addTable use table false
    let name := (added.alias? use 0).getD use
    (name, (added.recordKeyValue q.currentTable use key name).addFilter (tie name))

/-! ## Joins -/

/-- The first numbered name, from `start` on, that is not taken. -/
def firstFree (name : String) (start : Nat) (taken : List String) : String :=
  let candidates := (List.range' start (taken.length + 1)).map (numbered name)
  (candidates.find? fun candidate => !taken.contains candidate).getD (numbered name start)

/-- The alias for a table to be joined: its bare name on its first use. -/
def joinAlias (q : Query) (table : String) : String :=
  let taken := q.aliases table
  if taken.isEmpty && !q.tables.contains table then table
  else firstFree table (max taken.length 1) taken

/-- The alias of a join by its name and the current main table. -/
def neededJoin? (q : Query) (name : String) : Option String :=
  (q.neededJoins.find? name).bind fun joins => joins.find? q.currentTable

/-- Records the alias of a join. -/
def recordJoin (join current name : String) (q : Query) : Query :=
  let joins := q.neededJoins.findD join .empty
  { q with neededJoins := q.neededJoins.insert join (joins.insert current name) }

/-- A condition between two tables with their aliases filled in. -/
def joinCondition (clause first second : String) : String :=
  Text.replaceAll "TABLE2" second (Text.replaceAll "TABLE1" first clause)

/-- The name of a join that was given none. -/
def joinName (table1 kind table2 : String) : String :=
  table1 ++ "=" ++ kind ++ "=" ++ table2

/-- Joins `table2` onto `table1` once per name and current main table; yields the alias of
`table2`. -/
def addJoin (table1 kind table2 clause : String) (name : Option String) (q : Query) :
    String × Query :=
  let name := name.getD (joinName table1 kind table2)
  match q.neededJoin? name with
  | some second => (second, q)
  | none =>
    let second := q.joinAlias table2
    let recorded := q.recordAlias table2 second
    -- a table joined onto itself is tied to its newest use, which is the one just recorded
    let first := (recorded.alias? table1 0).getD table1
    let join := kind ++ " JOIN " ++ TableReference.write ⟨table2, second⟩ ++ " ON " ++
      joinCondition clause first second
    let joins := recorded.joinTables.insert first (recorded.joinTables.findD first [] ++ [join])
    (second, { recorded with joinTables := joins }.recordJoin name q.currentTable second)

end RelationSql.Query
