import RelationSql.Proofs.Query.Absorb
import RelationSql.Proofs.Query.Numbering

/-!
# Remembered aliases

A query remembers under which alias an index table or a join was added, and gives the same alias again.
The alias is right as long as the table is still there: an index table is an entry of `FROM`, and the
table of a join is introduced by a join clause (`CachesHold`).

Every step that builds a query keeps this but one: a custom query replaces the entries and the clauses and
leaves what is remembered about them. It keeps it exactly if its own entries and clauses still have all
remembered aliases (`reached_cachesHold`). Where they have not, the next use of an index table is
answered with an alias that the statement does not know (`stale_index`).
-/

namespace RelationSql

open Fragment (TableReference)

namespace Query

/-! ## What is remembered -/

/-- The entry of `FROM` is a table under this alias. -/
def IsUseAs (reference name : String) : Prop :=
  ∃ table, reference = TableReference.write ⟨table, name⟩

/-- The clause joins the table of this reference. -/
def JoinsTo (join reference : String) : Prop :=
  ∃ kind condition, join = kind ++ " JOIN " ++ reference ++ " ON " ++ condition

/-- The clause joins a table under this alias. -/
def Introduces (join name : String) : Prop :=
  ∃ reference, JoinsTo join reference ∧ IsUseAs reference name

/-- An entry of `FROM` has the alias. -/
def HasTable (q : Query) (name : String) : Prop :=
  ∃ reference ∈ q.tables, IsUseAs reference name

/-- A join clause introduces the alias. -/
def HasJoin (q : Query) (name : String) : Prop :=
  ∃ first, ∃ join ∈ q.joinTables.findD first [], Introduces join name

/-- All remembered aliases of index tables. -/
def AllIndexes (Q : String → Prop) (q : Query) : Prop :=
  q.keyValueTables.All fun tables => tables.All fun keys => keys.All Q

/-- All remembered aliases of joins. -/
def AllJoins (Q : String → Prop) (q : Query) : Prop :=
  q.neededJoins.All fun names => names.All Q

/-- The query has all tables that it remembers. -/
structure CachesHold (q : Query) : Prop where
  indexes : q.AllIndexes q.HasTable
  joins : q.AllJoins q.HasJoin

variable {q q' : Query} {Q R : String → Prop} {name : String}

theorem AllIndexes.imp (h : q.AllIndexes Q) (hQR : ∀ name, Q name → R name) : q.AllIndexes R :=
  fun tables htables keys hkeys entry hentry => hQR _ (h tables htables keys hkeys entry hentry)

theorem AllJoins.imp (h : q.AllJoins Q) (hQR : ∀ name, Q name → R name) : q.AllJoins R :=
  fun names hnames entry hentry => hQR _ (h names hnames entry hentry)

/-- A remembered index table is one of the query. -/
theorem AllIndexes.keyValueAlias? (h : q.AllIndexes Q) {use key : String}
    (hname : q.keyValueAlias? use key = some name) : Q name := by
  unfold Query.keyValueAlias? at hname
  obtain ⟨tables, htables, hname⟩ := Option.bind_eq_some_iff.1 hname
  obtain ⟨keys, hkeys, hname⟩ := Option.bind_eq_some_iff.1 hname
  exact ((h.find? htables).find? hkeys).find? hname

/-- A remembered join is one of the query. -/
theorem AllJoins.neededJoin? (h : q.AllJoins Q) {join : String} (hname : q.neededJoin? join = some name) :
    Q name := by
  obtain ⟨names, hnames, hname⟩ := Option.bind_eq_some_iff.1 hname
  exact (h.find? hnames).find? hname

/-- Another index table is remembered. -/
theorem AllIndexes.recordKeyValue (h : q.AllIndexes Q) (hname : Q name) (current use key : String) :
    (q.recordKeyValue current use key name).AllIndexes Q := by
  have htables : (q.keyValueTables.findD current .empty).All fun keys => keys.All Q := h.findD current .empty
  exact h.insert current (htables.insert use ((htables.findD use .empty).insert key hname))

/-- Another join is remembered. -/
theorem AllJoins.recordJoin (h : q.AllJoins Q) (hname : Q name) (join current : String) :
    (q.recordJoin join current name).AllJoins Q :=
  h.insert join ((h.findD join .empty).insert current hname)

/-! ## Steps -/

/-- A query with more tables and joins, and the same ones remembered. -/
theorem CachesHold.grow (h : q.CachesHold) (hindexes : q'.keyValueTables = q.keyValueTables)
    (hjoins : q'.neededJoins = q.neededJoins) (htable : ∀ name, q.HasTable name → q'.HasTable name)
    (hjoin : ∀ name, q.HasJoin name → q'.HasJoin name) : q'.CachesHold where
  indexes := by
    rw [AllIndexes, hindexes]
    exact h.indexes.imp htable
  joins := by
    rw [AllJoins, hjoins]
    exact h.joins.imp hjoin

/-- What is known of tables and joins does not depend on the other parts of a query. -/
theorem CachesHold.congr (h : q.CachesHold) (htables : q'.tables = q.tables)
    (hjoinTables : q'.joinTables = q.joinTables) (hindexes : q'.keyValueTables = q.keyValueTables)
    (hjoins : q'.neededJoins = q.neededJoins) : q'.CachesHold := by
  refine h.grow hindexes hjoins (fun name htable => ?_) fun name hjoin => ?_
  · rwa [HasTable, htables]
  · rwa [HasJoin, hjoinTables]

/-- A new query remembers nothing. -/
theorem cachesHold_new (dialect : Dialect) (mainTable mainClass : String) :
    (new dialect mainTable mainClass).CachesHold :=
  ⟨.empty, .empty⟩

theorem hasTable_addTable (q : Query) (use table : String) (avoidAlias : Bool) :
    (q.addTable use table avoidAlias).HasTable (q.newAlias use table avoidAlias) :=
  ⟨_, List.mem_append_right _ (List.mem_singleton_self _), table, rfl⟩

theorem HasTable.addTable (h : q.HasTable name) (use table : String) (avoidAlias : Bool) :
    (q.addTable use table avoidAlias).HasTable name := by
  obtain ⟨reference, hreference, huse⟩ := h
  exact ⟨reference, List.mem_append_left _ hreference, huse⟩

theorem CachesHold.addTable (h : q.CachesHold) (use table : String) (avoidAlias : Bool) :
    (q.addTable use table avoidAlias).CachesHold :=
  h.grow rfl rfl (fun _ htable => htable.addTable use table avoidAlias) fun _ hjoin => hjoin

/-- **Adding an index table keeps what is remembered**, and its alias is one of the query. -/
theorem CachesHold.addKeyValueTable (h : q.CachesHold) (use table key : String) (tie : String → String) :
    (q.addKeyValueTable use table key tie).2.CachesHold ∧
      (q.addKeyValueTable use table key tie).2.HasTable (q.addKeyValueTable use table key tie).1 := by
  unfold Query.addKeyValueTable
  split
  · -- the remembered alias is answered, and the query stays as it is
    next name hname => exact ⟨h, h.indexes.keyValueAlias? hname⟩
  · have hadded := h.addTable use table false
    have hname : ((q.addTable use table false).alias? use 0).getD use = q.newAlias use table false := by
      rw [alias?_zero, aliases_addTable]
      simp
    have hnew := hasTable_addTable q use table false
    dsimp only
    rw [hname]
    exact ⟨⟨hadded.indexes.recordKeyValue hnew _ use key, hadded.joins⟩, hnew⟩

/-- Attaches a join clause to an alias. -/
def addClause (first clause : String) (q : Query) : Query :=
  { q with joinTables := q.joinTables.insert first (q.joinTables.findD first [] ++ [clause]) }

/-- The clauses of a query with one more. -/
theorem mem_addClause {q : Query} {first clause other join : String} :
    join ∈ (q.addClause first clause).joinTables.findD other [] ↔
      join ∈ q.joinTables.findD other [] ∨ first = other ∧ join = clause := by
  rw [addClause, Dictionary.findD, Dictionary.find?_insert]
  split
  · next heq => simp [heq]
  · next hne => simp [hne, Dictionary.findD]

theorem HasJoin.addClause (h : q.HasJoin name) (first clause : String) :
    (q.addClause first clause).HasJoin name := by
  obtain ⟨other, join, hjoin, hname⟩ := h
  exact ⟨other, join, mem_addClause.2 (.inl hjoin), hname⟩

theorem CachesHold.addClause (h : q.CachesHold) (first clause : String) :
    (q.addClause first clause).CachesHold :=
  h.grow rfl rfl (fun _ htable => htable) fun _ hjoin => hjoin.addClause first clause

/-- **Adding a join keeps what is remembered**, and its alias is introduced by the query. -/
theorem CachesHold.addJoin (h : q.CachesHold) (table1 kind table2 clause : String) (join : Option String) :
    (q.addJoin table1 kind table2 clause join).2.CachesHold ∧
      (q.addJoin table1 kind table2 clause join).2.HasJoin (q.addJoin table1 kind table2 clause join).1 := by
  unfold Query.addJoin
  dsimp only
  split
  · next name hname => exact ⟨h, h.joins.neededJoin? hname⟩
  · have hrecorded : (q.recordAlias table2 (q.joinAlias table2)).CachesHold := h.congr rfl rfl rfl rfl
    -- which entry the clause is attached to, and what its condition says, does not matter
    generalize q.recordAlias table2 (q.joinAlias table2) = recorded at hrecorded
    generalize hclause : kind ++ " JOIN " ++ _ ++ " ON " ++ _ = written
    generalize (recorded.alias? table1 0).getD table1 = first
    have hadded := hrecorded.addClause first written
    have hnew : (recorded.addClause first written).HasJoin (q.joinAlias table2) :=
      ⟨first, written, mem_addClause.2 (.inr ⟨rfl, rfl⟩), _, ⟨kind, _, hclause.symm⟩, table2, rfl⟩
    exact ⟨⟨hadded.indexes, hadded.joins.recordJoin hnew _ _⟩, hnew⟩

/-! ## Merges -/

/-- A member of a list has its partner in a related one. -/
theorem exists_rel_of_mem {α β : Type} {S : α → β → Prop} {as : List α} {bs : List β}
    (h : List.Forall₂ S as bs) {a : α} (hmem : a ∈ as) : ∃ b ∈ bs, S a b := by
  induction h with
  | nil => cases hmem
  | @cons first b as bs hfirst _ ih =>
    rcases List.mem_cons.1 hmem with rfl | hmem
    · exact ⟨b, List.mem_cons_self, hfirst⟩
    · exact (ih hmem).imp fun _ hb => ⟨List.mem_cons_of_mem _ hb.1, hb.2⟩

/-- A query that absorbs another one has the clauses of both. -/
theorem mem_joins_absorb {first join : String} : join ∈ (q.absorb q').joinTables.findD first [] ↔
    join ∈ q.joinTables.findD first [] ∨ join ∈ q'.joinTables.findD first [] := by
  have habsorbed : (q.absorb q').joinTables.findD first [] = _ :=
    findD_absorbLists q.joinTables q'.joinTables first
  rw [habsorbed]
  exact mem_addMissing_iff

theorem HasJoin.absorb (h : q.HasJoin name ∨ q'.HasJoin name) : (q.absorb q').HasJoin name := by
  rcases h with ⟨first, clause, hclause, hname⟩ | ⟨first, clause, hclause, hname⟩
  · exact ⟨first, clause, mem_joins_absorb.2 (.inl hclause), hname⟩
  · exact ⟨first, clause, mem_joins_absorb.2 (.inr hclause), hname⟩

/-- A query that absorbs another one has the joins of both. -/
theorem AllJoins.absorb (h : q.AllJoins q.HasJoin) (h' : q'.AllJoins q'.HasJoin) :
    (q.absorb q').AllJoins (q.absorb q').HasJoin := by
  have hold : q.AllJoins (q.absorb q').HasJoin := h.imp fun _ hjoin => .absorb (.inl hjoin)
  have hnew : q'.AllJoins (q.absorb q').HasJoin := h'.imp fun _ hjoin => .absorb (.inr hjoin)
  refine hold.foldl fun d entry hentry hd => hd.alter _ fun names hnames => ?_
  refine all_absorbNew ?_ (hnew entry hentry)
  cases names with
  | none => exact .empty
  | some names => exact hnames names rfl

/-- The joins of absorbed queries. The index tables are those of the first. -/
theorem foldl_absorb {queries : List Query} (h : q.AllJoins q.HasJoin)
    (hqueries : ∀ other ∈ queries, other.CachesHold) :
    (queries.foldl absorb q).AllJoins (queries.foldl absorb q).HasJoin ∧
      (queries.foldl absorb q).keyValueTables = q.keyValueTables := by
  induction queries generalizing q with
  | nil => exact ⟨h, rfl⟩
  | cons other queries ih =>
    rw [List.forall_mem_cons] at hqueries
    exact ih (h.absorb hqueries.1.joins) hqueries.2

/-- **Merging branches keeps what is remembered**, if they are mended by conditions only. -/
theorem cachesHold_merge {profile : Profile} (hprofile : profile.OnlyAddsFilters) {base merged : Query}
    {branches : List Query} (hbase : base.CachesHold) (hbranches : ∀ b ∈ branches, b.CachesHold)
    (hmerge : mergeBranches profile base branches = .ok merged) : merged.CachesHold := by
  obtain ⟨mended, hmended, rfl⟩ := mergeBranches_eq_ok hmerge
  -- mending adds conditions only, so each branch keeps its tables and what it remembers
  have hall : List.Forall₂ (fun b m => m.tables = b.tables ∧ m.CachesHold) branches mended := by
    refine ((List.forall₂_and_left _ _).2 ⟨hbranches, forall₂_of_mendAll hmended⟩).imp ?_
    rintro b m ⟨hb, hmend⟩
    obtain ⟨filters, rfl⟩ := mend_keeps hprofile hmend
    exact ⟨rfl, hb.congr rfl rfl rfl rfl⟩
  cases hall with
  | nil => exact hbase
  | @cons b q branches more hq hmore =>
    have hmembers : ∀ other ∈ more, other.CachesHold := by
      intro other hother
      obtain ⟨_, -, -, hkept⟩ := exists_rel_of_mem hmore.flip hother
      exact hkept
    obtain ⟨hjoins, hindexes⟩ := foldl_absorb hq.2.joins hmembers
    refine ⟨?_, hjoins⟩
    -- the index tables are those of the first branch, whose entries are among those of the merge
    have htables : ∀ name, q.HasTable name →
        (mergeMended base (unionTables (b :: branches)) (q :: more)).HasTable name := by
      rintro name ⟨reference, hreference, huse⟩
      refine ⟨reference, mem_addMissing_iff.2 (.inr ?_), huse⟩
      rw [List.flatMap_cons, ← hq.1]
      exact List.mem_append_left _ hreference
    have hkept := hq.2.indexes.imp htables
    rw [AllIndexes, ← hindexes] at hkept
    exact hkept

/-! ## Custom queries -/

/-- What the custom query replaces still has all that is remembered about it. -/
structure KeptBy (custom : CustomQuery) (q : Query) : Prop where
  indexes : ∀ tables ∈ custom.tables,
    q.AllIndexes fun name => ∃ reference ∈ tables, IsUseAs reference name
  joins : ∀ clauses ∈ custom.joinTables,
    q.AllJoins fun name => ∃ first, ∃ join ∈ clauses.findD first [], Introduces join name

/-- **A custom query keeps what is remembered exactly if its own tables and joins have it.** -/
theorem CachesHold.applyCustom_iff (h : q.CachesHold) (custom : CustomQuery) :
    (q.applyCustom custom).CachesHold ↔ KeptBy custom q := by
  have hindexes : q.AllIndexes (q.applyCustom custom).HasTable ↔ ∀ tables ∈ custom.tables,
      q.AllIndexes fun name => ∃ reference ∈ tables, IsUseAs reference name := by
    show (q.AllIndexes fun name => ∃ reference ∈ custom.tables.getD q.tables, IsUseAs reference name) ↔ _
    cases custom.tables with
    | none => exact iff_of_true h.indexes nofun
    | some tables => simp
  have hjoins : q.AllJoins (q.applyCustom custom).HasJoin ↔ ∀ clauses ∈ custom.joinTables,
      q.AllJoins fun name => ∃ first, ∃ join ∈ clauses.findD first [], Introduces join name := by
    show (q.AllJoins fun name => ∃ first,
      ∃ join ∈ (custom.joinTables.getD q.joinTables).findD first [], Introduces join name) ↔ _
    cases custom.joinTables with
    | none => exact iff_of_true h.joins nofun
    | some clauses => simp
  exact ⟨fun hold => ⟨hindexes.1 hold.indexes, hjoins.1 hold.joins⟩,
    fun hkept => ⟨hindexes.2 hkept.indexes, hjoins.2 hkept.joins⟩⟩

/-! ## Runs -/

/-- The query is built from an empty one by adding tables, index tables, joins, conditions and selected
keys, by custom queries, and by merging branches that are mended by conditions. The custom queries are
those that are allowed where they are applied. -/
inductive Reached (allowed : CustomQuery → Query → Prop) : Query → Prop where
  | new (dialect : Dialect) (mainTable mainClass : String) :
      Reached allowed (.new dialect mainTable mainClass)
  | addTable {q : Query} (run : Reached allowed q) (use table : String) (avoidAlias : Bool) :
      Reached allowed (q.addTable use table avoidAlias)
  | addKeyValueTable {q : Query} (run : Reached allowed q) (use table key : String)
      (tie : String → String) : Reached allowed (q.addKeyValueTable use table key tie).2
  | addJoin {q : Query} (run : Reached allowed q) (table1 kind table2 clause : String)
      (name : Option String) : Reached allowed (q.addJoin table1 kind table2 clause name).2
  | addFilter {q : Query} (run : Reached allowed q) (filter : String) : Reached allowed (q.addFilter filter)
  | addSelect {q : Query} (run : Reached allowed q) (field declaration : String) :
      Reached allowed (q.addSelect field declaration)
  | applyCustom {q : Query} (run : Reached allowed q) {custom : CustomQuery} (mem : allowed custom q) :
      Reached allowed (q.applyCustom custom)
  | merge {base merged : Query} {branches : List Query} {profile : Profile} (run : Reached allowed base)
      (runs : ∀ b ∈ branches, Reached allowed b) (mends : profile.OnlyAddsFilters)
      (merged_eq : mergeBranches profile base branches = .ok merged) : Reached allowed merged

/-- Selecting a key leaves tables and joins alone. -/
theorem CachesHold.addSelect (h : q.CachesHold) (field declaration : String) :
    (q.addSelect field declaration).CachesHold := by
  unfold Query.addSelect
  dsimp only
  cases (keyAndType declaration).2 with
  | none => exact h.congr rfl rfl rfl rfl
  | some type => exact h.congr rfl rfl rfl rfl

/-- **A run keeps what is remembered**, if its custom queries do. -/
theorem Reached.cachesHold (h : Reached KeptBy q) : q.CachesHold := by
  induction h with
  | new dialect mainTable mainClass => exact cachesHold_new dialect mainTable mainClass
  | addTable _ use table avoidAlias ih => exact ih.addTable use table avoidAlias
  | addKeyValueTable _ use table key tie ih => exact (ih.addKeyValueTable use table key tie).1
  | addJoin _ table1 kind table2 clause name ih => exact (ih.addJoin table1 kind table2 clause name).1
  | addFilter _ filter ih => exact ih.congr rfl rfl rfl rfl
  | addSelect _ field declaration ih => exact ih.addSelect field declaration
  | applyCustom _ mem ih => exact (ih.applyCustom_iff _).2 mem
  | merge _ _ mends merged_eq ih ihs => exact cachesHold_merge mends ih ihs merged_eq

/-- **What a query remembers is there**, whatever built it, as long as each custom query keeps what was
remembered before it. Then index tables and joins are answered with an alias of the query. And this is all
that has to be asked of a custom query: any other one leaves an alias behind that the query has not. -/
theorem reached_cachesHold (h : Reached KeptBy q) :
    q.CachesHold ∧
      (∀ use table key tie, (q.addKeyValueTable use table key tie).2.HasTable
        (q.addKeyValueTable use table key tie).1) ∧
      (∀ table1 kind table2 clause join, (q.addJoin table1 kind table2 clause join).2.HasJoin
        (q.addJoin table1 kind table2 clause join).1) ∧
      ∀ custom, (q.applyCustom custom).CachesHold ↔ KeptBy custom q :=
  ⟨h.cachesHold, fun use table key tie => (h.cachesHold.addKeyValueTable use table key tie).2,
    fun table1 kind table2 clause join => (h.cachesHold.addJoin table1 kind table2 clause join).2,
    h.cachesHold.applyCustom_iff⟩

/-! ## An index of objects -/

/-- The condition on an index table of colours. -/
def colourOf (name : String) : String :=
  name ++ ".node_id = objects.id AND " ++ name ++ ".key = 'color'"

/-- Objects with their colours. -/
def coloured : Query :=
  ((new .generic "objects" "Node").addKeyValueTable "idx_strings" "idx_strings" "color" colourOf).2

theorem reached_coloured (allowed : CustomQuery → Query → Prop) : Reached allowed coloured :=
  .addKeyValueTable (.new _ _ _) _ _ _ _

/-- A custom query that names the objects, and with them the index table or not. -/
def recoloured (tables : List String) : Query :=
  coloured.applyCustom { tables := some tables }

/-- The alias of the colours is all that is remembered. -/
theorem keptBy_coloured {tables : List String} (h : ∃ reference ∈ tables, IsUseAs reference "id1") :
    KeptBy { tables := some tables } coloured where
  indexes := by
    rintro _ ⟨⟩
    exact List.forall_mem_singleton.2 (List.forall_mem_singleton.2 (List.forall_mem_singleton.2 h))
  joins := nofun

/-- A custom query that names the index table keeps its alias. -/
theorem listed_index_kept :
    Reached KeptBy (recoloured ["objects", "idx_strings AS id1"]) ∧
      (recoloured ["objects", "idx_strings AS id1"]).CachesHold ∧
      (recoloured ["objects", "idx_strings AS id1"]).HasTable "id1" := by
  have hrun : Reached KeptBy (recoloured ["objects", "idx_strings AS id1"]) :=
    .applyCustom (reached_coloured _) (keptBy_coloured ⟨_, .tail _ (.head _), "idx_strings", rfl⟩)
  obtain ⟨hkept, hindex, -⟩ := reached_cachesHold hrun
  exact ⟨hrun, hkept, hindex "idx_strings" "idx_strings" "color" colourOf⟩

/-- An alias ends its entry. -/
theorem IsUseAs.suffix {reference : String} (h : IsUseAs reference name) :
    name.toList <:+ reference.toList := by
  obtain ⟨table, rfl⟩ := h
  unfold TableReference.write
  split
  · next heq => exact heq ▸ List.suffix_refl _
  · rw [String.toList_append]
    exact List.suffix_append _ _

/-- **A custom query without the index table leaves its alias behind.** The next use of the index table
gets it, adds no table, and the query has no entry for it. -/
theorem stale_index :
    Reached (fun _ _ => True) (recoloured ["objects"]) ∧ ¬ (recoloured ["objects"]).CachesHold ∧
      (recoloured ["objects"]).addKeyValueTable "idx_strings" "idx_strings" "color" colourOf =
        ("id1", recoloured ["objects"]) ∧
      (recoloured ["objects"]).tables = ["objects"] ∧ ¬ (recoloured ["objects"]).HasTable "id1" := by
  have hnone : ¬ (recoloured ["objects"]).HasTable "id1" := by
    rintro ⟨reference, hreference, huse⟩
    obtain rfl := List.mem_singleton.1 hreference
    exact absurd huse.suffix (by decide)
  have hanswer : (recoloured ["objects"]).addKeyValueTable "idx_strings" "idx_strings" "color" colourOf =
      ("id1", recoloured ["objects"]) := rfl
  refine ⟨.applyCustom (reached_coloured _) trivial, fun hkept => hnone ?_, hanswer, rfl, hnone⟩
  have hindex := (hkept.addKeyValueTable "idx_strings" "idx_strings" "color" colourOf).2
  rwa [hanswer] at hindex

end Query

end RelationSql
