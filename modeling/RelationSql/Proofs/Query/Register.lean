import Mathlib.Data.List.Forall2
import Mathlib.Logic.Function.Basic
import RelationSql.Proofs.Query.Numbering
import RelationSql.Query.Statement

/-!
# Names in use

The names under which tables are used, on their own (`Query.Lists`): a further use takes a name that only
depends on the names before it (`Lists.addTable`), and a merge appends the names that later branches know
and earlier ones do not (`Lists.merge`). The find statement recognises duplicates by the bare name of the
main table, the count statement by the newest; they mean the same use only where the newest is the bare
one, or the only one (`sameOccurrence_iff`).
-/

namespace RelationSql.Query

open RelationSql.Fragment (TableReference)

/-- The name of a further use of a table that is used under these names. -/
def nextName (table : String) (names : List String) (avoidAlias : Bool) : String :=
  if avoidAlias && !names.contains table then table
  else if names.contains table then numbered table names.length
  else numbered table (names.length + 1)

/-- The query uses the tables under these names and no others, and it has an entry with a bare name where
that is one of them. -/
structure Lists (tables : String → Prop) (names : String → List String) (q : Query) : Prop where
  aliases : ∀ table, tables table → q.aliases table = names table
  bare : ∀ table, tables table → (table ∈ q.tables ↔ table ∈ names table)

/-- The name of a table is not that of a use of another one. -/
def IsBare (table : String) : Prop :=
  ∀ other name, table ≠ other ++ " AS " ++ name

variable {tables : String → Prop} {names : String → List String} {q : Query} {table : String}

/-! ## A further use -/

theorem newAlias_of_lists (h : q.Lists tables names) (ht : tables table) (avoidAlias : Bool) :
    q.newAlias table table avoidAlias = nextName table (names table) avoidAlias := by
  have hcontains : q.tables.contains table = (names table).contains table := by
    rw [Bool.eq_iff_iff, List.contains_iff_mem, List.contains_iff_mem]
    exact h.bare table ht
  rw [newAlias, nextName, hcontains, h.aliases table ht]

/-- A reference is the bare name of a table if it is to this table, under its own name. -/
theorem write_eq_bare_iff {other name : String} (h : IsBare table) :
    TableReference.write ⟨other, name⟩ = table ↔ other = table ∧ name = table := by
  by_cases hname : name = other
  · subst hname
    rw [TableReference.write, if_pos rfl, and_self]
  · rw [write_of_ne hname]
    constructor
    · exact fun heq => absurd heq.symm (h other name)
    · rintro ⟨rfl, rfl⟩
      exact absurd rfl hname

/-- **A further use of a table adds its name behind those before it.** -/
theorem Lists.addTable (h : q.Lists tables names) (hbare : ∀ table, tables table → IsBare table)
    (table : String) (avoidAlias : Bool) :
    (q.addTable table table avoidAlias).Lists tables
      (Function.update names table
        (names table ++ [nextName table (names table) avoidAlias])) := by
  constructor
  · intro other hother
    by_cases heq : other = table
    · subst heq
      rw [aliases_addTable, newAlias_of_lists h hother, h.aliases other hother, Function.update_self]
    · rw [aliases_addTable_of_ne (Ne.symm heq), h.aliases other hother, Function.update_of_ne heq]
  · intro other hother
    rw [tables_addTable, List.mem_append, List.mem_singleton, h.bare other hother, eq_comm,
      write_eq_bare_iff (hbare other hother)]
    by_cases heq : other = table
    · subst heq
      rw [newAlias_of_lists h hother, Function.update_self, List.mem_append, List.mem_singleton]
      simp [eq_comm]
    · rw [Function.update_of_ne heq]
      simp [Ne.symm heq]

/-! ## Merges -/

theorem mem_foldl_addMissing {lists : List (List String)} {known : List String} {name : String} :
    name ∈ lists.foldl addMissing known ↔ name ∈ known ∨ ∃ names ∈ lists, name ∈ names := by
  induction lists generalizing known with
  | nil => simp
  | cons names lists ih => rw [List.foldl_cons, ih, mem_addMissing_iff, List.exists_mem_cons_iff, or_assoc]

/-- What is missing is added behind what is known, and is new. -/
theorem exists_foldl_addMissing (lists : List (List String)) (known : List String) :
    ∃ added, lists.foldl addMissing known = known ++ added ∧ ∀ name ∈ added, name ∉ known := by
  induction lists generalizing known with
  | nil => exact ⟨[], by simp, by simp⟩
  | cons names lists ih =>
    obtain ⟨added, hadded, hnew⟩ := ih (addMissing known names)
    rw [addMissing_eq, List.append_assoc] at hadded
    refine ⟨_, by rw [List.foldl_cons, addMissing_eq, hadded], fun name hname => ?_⟩
    rcases List.mem_append.1 hname with hname | hname
    · simpa using (List.mem_filter.1 (List.mem_eraseDups.1 hname)).2
    · exact fun hknown => hnew name hname (mem_addMissing_iff.2 (.inl hknown))

/-- The newest name stays the newest one if nothing is missing. -/
theorem getLast?_foldl_addMissing {lists : List (List String)} {known : List String} {name : String}
    (hname : known.getLast? = some name) :
    (lists.foldl addMissing known).getLast? = some name ↔ ∀ names ∈ lists, names ⊆ known := by
  obtain ⟨added, hadded, hnew⟩ := exists_foldl_addMissing lists known
  constructor
  · intro hnewest
    -- what is added was not known, so a name that was known is not the last of it
    have hnone : added = [] := by
      by_contra hsome
      rw [hadded, List.getLast?_append_of_ne_nil _ hsome] at hnewest
      exact hnew name (List.mem_of_getLast? hnewest) (List.mem_of_getLast? hname)
    intro names hnames other hother
    have hmem : other ∈ lists.foldl addMissing known :=
      mem_foldl_addMissing.2 (.inr ⟨names, hnames, hother⟩)
    rwa [hadded, hnone, List.append_nil] at hmem
  · intro hsub
    have hnone : added = [] := by
      refine List.eq_nil_iff_forall_not_mem.2 fun other hother => hnew other hother ?_
      have hmem : other ∈ lists.foldl addMissing known := hadded ▸ List.mem_append_right _ hother
      rcases mem_foldl_addMissing.1 hmem with hknown | ⟨names, hnames, hknown⟩
      · exact hknown
      · exact hsub names hnames hknown
    rw [hadded, hnone, List.append_nil, hname]

/-- The names that a merge knows of each table: those of the first branch, then what the later ones add. -/
def unite (names : String → List String) : List (String → List String) → String → List String
  | [], table => names table
  | first :: more, table =>
    (more.map fun names => names table).foldl addMissing (first table)

/-- The aliases of absorbed queries are added one after the other. -/
theorem aliases_foldl_absorb (q : Query) (queries : List Query) (table : String) :
    (queries.foldl absorb q).aliases table =
      (queries.map fun b => b.aliases table).foldl addMissing (q.aliases table) := by
  induction queries generalizing q with
  | nil => rfl
  | cons other queries ih =>
    have habsorbed : (q.absorb other).aliases table =
        addMissing (q.aliases table) (other.aliases table) :=
      findD_absorbLists q.tableAlias other.tableAlias table
    rw [List.foldl_cons, ih, habsorbed, List.map_cons, List.foldl_cons]

theorem Lists.of_mend {profile : Profile} (hprofile : profile.OnlyAddsFilters) {references : List String}
    {mended : Query} (hmend : mend profile references q = .ok mended) (h : q.Lists tables names) :
    mended.Lists tables names := by
  obtain ⟨filters, rfl⟩ := mend_keeps hprofile hmend
  exact ⟨h.aliases, h.bare⟩

/-- The names of the queries, table by table. -/
theorem map_aliases_of_lists {queries : List Query} {lists : List (String → List String)}
    (h : List.Forall₂ (fun q names => q.Lists tables names) queries lists) (ht : tables table) :
    queries.map (fun q => q.aliases table) = lists.map fun names => names table := by
  induction h with
  | nil => rfl
  | cons hq _ ih => rw [List.map_cons, List.map_cons, ih, hq.aliases table ht]

theorem mem_unite {lists : List (String → List String)} (hne : lists ≠ []) {name : String} :
    name ∈ unite names lists table ↔ ∃ names ∈ lists, name ∈ names table := by
  cases lists with
  | nil => exact absurd rfl hne
  | cons first more =>
    simp [unite, mem_foldl_addMissing]

/-- **A merge knows the names of its branches**, and without branches those of the query before it. -/
theorem Lists.merge {profile : Profile} (hprofile : profile.OnlyAddsFilters) {base merged : Query}
    {queries : List Query} {lists : List (String → List String)} (hbase : base.Lists tables names)
    (h : List.Forall₂ (fun q names => q.Lists tables names) queries lists)
    (hmerge : mergeBranches profile base queries = .ok merged) :
    merged.Lists tables (unite names lists) := by
  obtain ⟨mended, hmended, rfl⟩ := mergeBranches_eq_ok hmerge
  -- mending adds conditions only, so each branch keeps its names
  have hmendedLists : List.Forall₂ (fun q names => q.Lists tables names) mended lists := by
    have hall := forall₂_of_mendAll hmended
    clear hmerge hmended
    generalize unionTables queries = references at hall
    induction hall generalizing lists with
    | nil =>
      cases h
      exact .nil
    | cons hq _ ih =>
      cases h with
      | cons hlists hmore => exact .cons (hlists.of_mend hprofile hq) (ih hmore)
  have hentry (table : String) (ht : tables table) : table ∈ unionTables queries ↔
      ∃ names ∈ lists, table ∈ names table := by
    rw [unionTables, mem_addMissing_iff, List.mem_flatMap]
    simp only [List.not_mem_nil, false_or]
    clear hmended hmendedLists hmerge
    induction h with
    | nil => simp
    | cons hq _ ih => rw [List.exists_mem_cons_iff, List.exists_mem_cons_iff, ih, hq.bare table ht]
  cases hmendedLists with
  | nil =>
    cases h
    exact hbase
  | @cons q first more lists hq hmore =>
    constructor
    · intro table ht
      have haliases : (mergeMended base (unionTables queries) (q :: more)).aliases table =
          (more.foldl absorb q).aliases table := rfl
      rw [haliases, aliases_foldl_absorb, map_aliases_of_lists hmore ht, hq.aliases table ht, unite]
    · intro table ht
      rw [mem_unite (List.cons_ne_nil _ _)]
      exact hentry table ht

/-! ## Duplicates -/

/-- The column is the id of a use of the main table. A bare `id` is so in a query with one entry. -/
def IsIdOf (q : Query) (column name : String) : Prop :=
  column = name ++ ".id" ∨ column = "id" ∧ q.tables = [TableReference.write ⟨q.mainTable, name⟩]

/-- The find statement recognises duplicates by the id of a use of the main table, and the count statement
counts the ids of the same use. -/
def SameOccurrence (q : Query) : Prop :=
  ∃ name ∈ q.aliases q.mainTable,
    q.IsIdOf q.distinctKey name ∧ q.counted = "COUNT(DISTINCT " ++ name ++ ".id)"

theorem counted_of_distinct (hdistinct : q.distinct = true) (hgroup : q.group = none) :
    q.counted = "COUNT(DISTINCT " ++ q.currentTable ++ ".id)" := by
  rw [counted, hgroup]
  simp [hdistinct]

theorem currentTable_eq (q : Query) :
    q.currentTable = (q.aliases q.mainTable).getLast?.getD q.mainTable := by
  rw [currentTable, alias?_zero]

/-- **The statements agree on the newest use or not at all.** It has to be the bare one, which the find
statement looks at beside other entries, or the only entry of the query. -/
theorem sameOccurrence_iff (hdistinct : q.distinct = true) (hgroup : q.group = none) :
    q.SameOccurrence ↔ ∃ newest, (q.aliases q.mainTable).getLast? = some newest ∧
      (1 < q.tables.length ∧ newest = q.mainTable ∨
        q.tables = [TableReference.write ⟨q.mainTable, newest⟩]) := by
  have hcounted := counted_of_distinct hdistinct hgroup
  rw [currentTable_eq] at hcounted
  constructor
  · rintro ⟨name, hname, hcolumn, hcount⟩
    obtain ⟨newest, hnewest⟩ : ∃ newest, (q.aliases q.mainTable).getLast? = some newest :=
      Option.isSome_iff_exists.1 (List.getLast?_isSome.2 (List.ne_nil_of_mem hname))
    rw [hnewest, Option.getD_some] at hcounted
    obtain rfl : name = newest :=
      (String.append_right_inj _).1 ((String.append_left_inj _).1 (hcount.symm.trans hcounted))
    refine ⟨name, hnewest, ?_⟩
    rcases hcolumn with hcolumn | ⟨-, htables⟩
    · left
      rw [distinctKey] at hcolumn
      split at hcolumn
      · next hlength => exact ⟨hlength, ((String.append_left_inj _).1 hcolumn).symm⟩
      -- a qualified id is longer than a bare one
      · have hlength := congrArg String.length hcolumn
        have hid : "id".length = 2 := by decide
        have hsuffix : ".id".length = 3 := by decide
        rw [String.length_append] at hlength
        omega
    · exact .inr htables
  · rintro ⟨newest, hnewest, hfound⟩
    have hmem := List.mem_of_getLast? hnewest
    rw [hnewest, Option.getD_some] at hcounted
    refine ⟨newest, hmem, ?_, hcounted⟩
    rw [distinctKey]
    rcases hfound with ⟨hlength, rfl⟩ | htables
    · rw [if_pos hlength]
      exact .inl rfl
    · rw [if_neg (by simp [htables])]
      exact .inr ⟨rfl, htables⟩

end RelationSql.Query
