import RelationSql.Fragment.TableReference
import RelationSql.Walk.Part

/-!
# Alternatives between relations

Each branch of `(a) or (b) or …` is compiled from the same state on its own copy of the query. The
copies are then merged: the tables of all branches are joined into one list, and the conditions of the
branches become one alternative. A branch that lacks a table of another one is mended by the domain,
or the merge is refused, since the missing table would otherwise narrow the branch.
-/

namespace RelationSql

/-! ## Merging queries -/

/-- A list with those items of another that it lacks. -/
def addMissing (known : List String) : List String → List String
  | [] => known
  | item :: items =>
    if known.contains item then addMissing known items else addMissing (known ++ [item]) items

namespace Query

/-- Adds what is missing to the list of each key. -/
def absorbLists (known others : Dictionary (List String)) : Dictionary (List String) :=
  others.entries.foldl
    (fun d entry => d.alter entry.1 fun old => addMissing (old.getD []) entry.2) known

/-- Adds the entries whose keys are missing. -/
def absorbNew (known others : Dictionary String) : Dictionary String :=
  others.entries.foldl (fun d entry => d.insertNew entry.1 entry.2) known

/-- Adds the aliases and joins that another query knows. -/
def absorb (q other : Query) : Query :=
  { q with
    tableAlias := absorbLists q.tableAlias other.tableAlias
    joinTables := absorbLists q.joinTables other.joinTables
    neededJoins := other.neededJoins.entries.foldl
      (fun d entry => d.alter entry.1 fun old => absorbNew (old.getD .empty) entry.2) q.neededJoins
    attributes := absorbNew q.attributes other.attributes }

/-- The tables of all queries, each once, in the order of their first occurrence. -/
def unionTables (queries : List Query) : List String :=
  addMissing [] (queries.flatMap Query.tables)

/-- The condition of a branch. -/
def branchCondition (q : Query) : String :=
  if q.filters.isEmpty then "1 = 1" else q.joinedFilters

/-- The alternative of conditions. -/
def alternative (conditions : List String) : String :=
  "((" ++ Text.joinWith ") OR (" conditions ++ "))"

/-- Mends a branch for each of the tables that it lacks. -/
def mend (profile : Profile) : List String → Query → Except CompileError Query
  | [], q => .ok q
  | table :: tables, q =>
    if q.tables.contains table then mend profile tables q
    else
      let reference := Fragment.TableReference.split table
      match profile.missingTable reference.name reference.table q with
      | .ok q => mend profile tables q
      | .error fault => .error fault

/-- Mends all branches for the tables of their union. -/
def mendAll (profile : Profile) (tables : List String) :
    List Query → Except CompileError (List Query)
  | [] => .ok []
  | q :: queries =>
    match mend profile tables q with
    | .error fault => .error fault
    | .ok q =>
      match mendAll profile tables queries with
      | .error fault => .error fault
      | .ok queries => .ok (q :: queries)

/-- Merges mended branches over the state `base` before the alternative. -/
def mergeMended (base : Query) (tables : List String) : List Query → Query
  | [] => base
  | q :: queries =>
    { queries.foldl absorb q with
      mainTable := base.mainTable
      mainClass := base.mainClass
      tables := tables
      filters := [alternative ((q :: queries).map branchCondition)]
      distinct := true }

/-- Merges branches over the state `base` before the alternative. -/
def mergeBranches (profile : Profile) (base : Query) (branches : List Query) :
    Except CompileError Query :=
  (mendAll profile (unionTables branches) branches).map (mergeMended base (unionTables branches))

end Query

/-! ## Walking the branches -/

namespace Alternative

mutual

/-- The branches of a child of an alternative: nested alternatives are taken apart. -/
def branchesOf : Part → List Part
  | .mk (.node .clauseOr _) _ parts => branchesOfAll parts
  | part => [part]

/-- The branches of the children of an alternative, in order. -/
def branchesOfAll : List Part → List Part
  | [] => []
  | part :: parts => branchesOf part ++ branchesOfAll parts

end

/-- Compiles one branch from the query before the alternative; yields the query it builds. -/
def branch (base : Query) (part : Part) : WalkM Query := do
  WalkM.modifyQuery fun _ => base
  let _ ← WalkM.restoringDomain (WalkM.within id part.render)
  WalkM.query

/-- Compiles the branches one after the other. -/
def branches (base : Query) : List Part → WalkM (List Query)
  | [] => return []
  | part :: parts => do
    let q ← branch base part
    return q :: (← branches base parts)

/-- An alternative of clauses. -/
def clause (host : Host) (parts : List Part) : WalkM Unit := do
  let base ← WalkM.query
  let queries ← branches base (branchesOfAll parts)
  -- the merge starts from the query before the branches, not from the last of them
  WalkM.modifyQuery fun _ => base
  match Query.mergeBranches (← host.activeProfile) base queries with
  | .ok merged => WalkM.modifyQuery fun _ => merged
  | .error fault => throw fault

end Alternative

end RelationSql
