import RelationSql.Proofs.Query.Given

/-!
# Answers from memory

An index table is added once for a key and a join once for a name, as long as the main table has the same
newest use: whatever else is added to the query in between, the same call is answered with the alias of the
first one, and changes nothing (`answered_again`). No condition is asked for then, which is said of calls
that may have effects (`tieKeyValueTable`).

A call for a key or a name that is not remembered adds a use, and remembers it. A join looks for a name that
the table has not had. An index table counts its uses, and gets an alias again where the number that is
counted is taken (`listed_alias_given_again`).
-/

namespace RelationSql.Query

open RelationSql.Fragment (TableReference)

/-- Adds an index table for a key once per main alias. The condition may have effects, and is asked for
only where the table is added. -/
def tieKeyValueTable {m : Type → Type} [Monad m] (use table key : String) (tie : String → m String)
    (q : Query) : m (String × Query) :=
  match q.keyValueAlias? use key with
  | some name => pure (name, q)
  | none => do
    let added := q.addTable use table false
    let name := (added.alias? use 0).getD use
    let filter ← tie name
    return (name, (added.recordKeyValue q.currentTable use key name).addFilter filter)

/-- Without effects, this is how an index table is added. -/
theorem tieKeyValueTable_id (use table key : String) (tie : String → String) (q : Query) :
    tieKeyValueTable (m := Id) use table key tie q = q.addKeyValueTable use table key tie := by
  unfold tieKeyValueTable addKeyValueTable
  cases q.keyValueAlias? use key <;> rfl

/-! ## What is remembered for a use of the main table -/

/-- The alias of an index table for a key of this use of the main table. -/
def indexAt (q : Query) (current use key : String) : Option String :=
  (q.keyValueTables.find? current).bind fun tables => (tables.find? use).bind fun keys => keys.find? key

/-- The alias of a join for this use of the main table. -/
def joinAt (q : Query) (current join : String) : Option String :=
  (q.neededJoins.find? join).bind fun names => names.find? current

theorem keyValueAlias?_eq (q : Query) (use key : String) :
    q.keyValueAlias? use key = q.indexAt q.currentTable use key :=
  rfl

theorem neededJoin?_eq (q : Query) (join : String) : q.neededJoin? join = q.joinAt q.currentTable join :=
  rfl

/-- Looking up in the dictionary of a key, if it has one. -/
theorem find?_findD_empty {α : Type} (d : Dictionary (Dictionary α)) (key inner : String) :
    (d.findD key .empty).find? inner = (d.find? key).bind fun e => e.find? inner := by
  unfold Dictionary.findD
  cases d.find? key <;> rfl

/-- **Remembering an index table answers its own key, and leaves the answers of all others.** -/
theorem indexAt_recordKeyValue (current use key name other otherUse otherKey : String) (q : Query) :
    (q.recordKeyValue current use key name).indexAt other otherUse otherKey =
      if current = other ∧ use = otherUse ∧ key = otherKey then some name
      else q.indexAt other otherUse otherKey := by
  unfold indexAt recordKeyValue
  dsimp only
  by_cases hcurrent : current = other
  · subst hcurrent
    rw [Dictionary.find?_insert_self, Option.bind_some]
    by_cases huse : use = otherUse
    · subst huse
      rw [Dictionary.find?_insert_self, Option.bind_some, Dictionary.find?_insert]
      by_cases hkey : key = otherKey
      · rw [if_pos hkey, if_pos ⟨rfl, rfl, hkey⟩]
      · rw [if_neg hkey, if_neg fun heq => hkey heq.2.2, find?_findD_empty, find?_findD_empty,
          Option.bind_assoc]
    · rw [Dictionary.find?_insert_ne _ _ huse, if_neg fun heq => huse heq.2.1, find?_findD_empty,
        Option.bind_assoc]
  · rw [Dictionary.find?_insert_ne _ _ hcurrent, if_neg fun heq => hcurrent heq.1]

/-- **Remembering a join answers its own name, and leaves the answers of all others.** -/
theorem joinAt_recordJoin (current join second other otherJoin : String) (q : Query) :
    (q.recordJoin join current second).joinAt other otherJoin =
      if current = other ∧ join = otherJoin then some second else q.joinAt other otherJoin := by
  unfold joinAt recordJoin
  dsimp only
  by_cases hjoin : join = otherJoin
  · subst hjoin
    rw [Dictionary.find?_insert_self, Option.bind_some, Dictionary.find?_insert]
    by_cases hcurrent : current = other
    · rw [if_pos hcurrent, if_pos ⟨hcurrent, rfl⟩]
    · rw [if_neg hcurrent, if_neg fun heq => hcurrent heq.1, find?_findD_empty]
  · rw [Dictionary.find?_insert_ne _ _ hjoin, if_neg fun heq => hjoin heq.2]

/-! ## Aliases that are taken -/

/-- Some table has the alias. -/
def IsTaken (q : Query) (name : String) : Prop := ∃ table, name ∈ q.aliases table

/-- A table other than this one has the alias. -/
def TakenBeside (table name : String) (q : Query) : Prop := ∃ other, other ≠ table ∧ name ∈ q.aliases other

/-- The number that is counted for a further use: that behind the uses before it, of which an entry under the
bare name has none. -/
def nextNumber (use : String) (q : Query) : Nat :=
  if use ∈ q.tables then (q.aliases use).length else (q.aliases use).length + 1

/-- The use has had the number already that is counted for it next. -/
def CountsBehind (use : String) (q : Query) : Prop := numbered use (q.nextNumber use) ∈ q.aliases use

theorem isTaken_iff (q : Query) (table name : String) :
    q.IsTaken name ↔ name ∈ q.aliases table ∨ q.TakenBeside table name := by
  constructor
  · rintro ⟨other, hother⟩
    by_cases heq : other = table
    · exact .inl (heq ▸ hother)
    · exact .inr ⟨other, heq, hother⟩
  · rintro (hname | ⟨other, -, hname⟩)
    · exact ⟨table, hname⟩
    · exact ⟨other, hname⟩

/-- A further use that does not ask for the bare name gets a number. -/
theorem newAlias_false (use table : String) (q : Query) :
    q.newAlias use table false = numbered use (q.nextNumber use) := by
  unfold nextNumber
  rcases newAlias_cases use table false q with ⟨hbare, -⟩ | ⟨-, ⟨hentry, heq⟩ | ⟨hentry, heq⟩⟩
  · exact absurd hbare.1 Bool.false_ne_true
  · rw [heq, if_pos hentry]
  · rw [heq, if_neg hentry]

/-! ## Calls -/

section Calls

variable {q : Query} {use table key : String} {tie : String → String}
variable {table1 kind table2 clause : String} {name : Option String}

/-- For a key that is remembered, no condition is asked for, and nothing changes. -/
theorem tieKeyValueTable_of_known {m : Type → Type} [Monad m] {tie : String → m String} {known : String}
    (hknown : q.keyValueAlias? use key = some known) :
    tieKeyValueTable use table key tie q = pure (known, q) := by
  unfold tieKeyValueTable
  rw [hknown]

theorem addKeyValueTable_of_known {known : String} (hknown : q.keyValueAlias? use key = some known) :
    q.addKeyValueTable use table key tie = (known, q) := by
  rw [← tieKeyValueTable_id]
  exact tieKeyValueTable_of_known (m := Id) hknown

/-- A use of the index table, remembered for its key. -/
def addIndex (use table key : String) (q : Query) : Query :=
  (q.addTable use table false).recordKeyValue q.currentTable use key (q.newAlias use table false)

/-- The alias of an index table is that of the use that was added for it. -/
theorem newest_addTable (use table : String) (avoidAlias : Bool) (q : Query) :
    ((q.addTable use table avoidAlias).alias? use 0).getD use = q.newAlias use table avoidAlias := by
  rw [alias?_zero, aliases_addTable, List.getLast?_concat, Option.getD_some]

/-- For a new key, the condition is asked for once, with the alias of the new use. -/
theorem tieKeyValueTable_of_new {m : Type → Type} [Monad m] {tie : String → m String}
    (hnew : q.keyValueAlias? use key = none) :
    tieKeyValueTable use table key tie q = do
      let filter ← tie (q.newAlias use table false)
      return (q.newAlias use table false, (q.addIndex use table key).addFilter filter) := by
  unfold tieKeyValueTable
  rw [hnew]
  dsimp only
  rw [newest_addTable]
  rfl

theorem addKeyValueTable_of_new (hnew : q.keyValueAlias? use key = none) :
    q.addKeyValueTable use table key tie =
      (q.newAlias use table false,
        (q.addIndex use table key).addFilter (tie (q.newAlias use table false))) := by
  rw [← tieKeyValueTable_id]
  exact tieKeyValueTable_of_new (m := Id) hnew

/-- A call adds an index table: one entry under the number that is counted for the use, one condition with it,
and the alias is remembered for the key and the newest use of the main table. The alias is new unless the
number is taken, and it is not where names were given in turn. -/
structure AddsIndex (use table key : String) (tie : String → String) (q : Query) (added : String × Query) :
    Prop where
  counted : added.1 = numbered use (q.nextNumber use)
  aliases : added.2.aliases use = q.aliases use ++ [added.1]
  tables : added.2.tables = q.tables ++ [TableReference.write ⟨table, added.1⟩]
  filters : added.2.filters = q.filters ++ [tie added.1]
  remembered : added.2.indexAt q.currentTable use key = some added.1
  taken_iff : q.IsTaken added.1 ↔ q.CountsBehind use ∨ q.TakenBeside use (numbered use (q.nextNumber use))
  fresh : ∀ names given, ToldApart names → q.Gives names given → use ∈ names → IsBare use → added.1 ∉ given

/-- A call adds a join: one clause, under an alias that the table has not had, and the alias is remembered
for the name of the join and the newest use of the main table. The alias is new unless another table has
it. -/
structure AddsJoin (table2 join : String) (q : Query) (added : String × Query) : Prop where
  fresh : added.1 ∉ q.aliases table2
  aliases : added.2.aliases table2 = q.aliases table2 ++ [added.1]
  clause : ∃ first clause, JoinsTo clause (TableReference.write ⟨table2, added.1⟩) ∧
    added.2.joinTables = (q.addClause first clause).joinTables
  remembered : added.2.joinAt q.currentTable join = some added.1
  taken_iff : q.IsTaken added.1 ↔ q.TakenBeside table2 added.1

/-- **A call for a new key adds the index table.** -/
theorem addsIndex (hnew : q.keyValueAlias? use key = none) :
    AddsIndex use table key tie q (q.addKeyValueTable use table key tie) := by
  rw [addKeyValueTable_of_new hnew]
  constructor
  · exact newAlias_false use table q
  · exact aliases_addTable use table false q
  · exact tables_addTable use table false q
  · rfl
  · refine (indexAt_recordKeyValue _ _ _ _ _ _ _ _).trans ?_
    rw [if_pos ⟨rfl, rfl, rfl⟩]
  · dsimp only
    rw [newAlias_false]
    exact isTaken_iff q use _
  · intro names given hnames hgiven hmem hbare
    rw [hgiven.given_again_iff hnames (s := .use use table false) hmem rfl]
    rintro (hgiven' | hmiscounted)
    · exact Bool.false_ne_true hgiven'.1.1
    · exact hgiven.not_miscounted hmem hbare false hmiscounted

/-- **A call for a new name adds the join.** -/
theorem addsJoin (hnew : q.neededJoin? (name.getD (joinName table1 kind table2)) = none) :
    AddsJoin table2 (name.getD (joinName table1 kind table2)) q
      (q.addJoin table1 kind table2 clause name) := by
  rw [addJoin_of_new hnew]
  have hfresh := joinAlias_not_mem q table2
  refine ⟨hfresh, aliases_recordAlias table2 _ q, ⟨_, _, ⟨kind, _, rfl⟩, rfl⟩, ?_, ?_⟩
  · refine (joinAt_recordJoin _ _ _ _ _ _).trans ?_
    rw [if_pos ⟨rfl, rfl⟩]
  · exact (isTaken_iff q table2 _).trans (or_iff_right hfresh)

end Calls

/-! ## Runs beside the main table -/

/-- A call that adds a condition, a selected key, or a use of another table than the main one. -/
inductive Beside (main : String) : Query → Query → Prop where
  | addFilter (q : Query) (filter : String) : Beside main q (q.addFilter filter)
  | addSelect (q : Query) (field declaration : String) : Beside main q (q.addSelect field declaration)
  | addTable (q : Query) {use : String} (other : use ≠ main) (table : String) (avoidAlias : Bool) :
      Beside main q (q.addTable use table avoidAlias)
  | addKeyValueTable (q : Query) {use : String} (other : use ≠ main) (table key : String)
      (tie : String → String) : Beside main q (q.addKeyValueTable use table key tie).2
  | addJoin (q : Query) (table1 kind : String) {table2 : String} (other : table2 ≠ main) (clause : String)
      (name : Option String) : Beside main q (q.addJoin table1 kind table2 clause name).2

/-- The main table has the same newest use, and all that was remembered still is. -/
structure Remembers (q q' : Query) : Prop where
  mainTable : q'.mainTable = q.mainTable
  currentTable : q'.currentTable = q.currentTable
  index : ∀ current use key name, q.indexAt current use key = some name →
    q'.indexAt current use key = some name
  join : ∀ current join name, q.joinAt current join = some name → q'.joinAt current join = some name

namespace Remembers

variable {q q' q'' : Query}

theorem refl (q : Query) : Remembers q q :=
  ⟨rfl, rfl, fun _ _ _ _ => id, fun _ _ _ => id⟩

theorem trans (h : Remembers q q') (h' : Remembers q' q'') : Remembers q q'' where
  mainTable := h'.mainTable.trans h.mainTable
  currentTable := h'.currentTable.trans h.currentTable
  index := fun current use key name hname =>
    h'.index current use key name (h.index current use key name hname)
  join := fun current join name hname => h'.join current join name (h.join current join name hname)

/-- What is remembered does not depend on the other parts of a query. -/
theorem of_same (hmain : q'.mainTable = q.mainTable)
    (haliases : q'.aliases q.mainTable = q.aliases q.mainTable)
    (hindexes : q'.keyValueTables = q.keyValueTables) (hjoins : q'.neededJoins = q.neededJoins) :
    Remembers q q' where
  mainTable := hmain
  currentTable := by rw [currentTable_eq, currentTable_eq, hmain, haliases]
  index := fun _ _ _ _ hname => by rwa [indexAt, hindexes]
  join := fun _ _ _ hname => by rwa [joinAt, hjoins]

/-- Remembering an alias for a key that has none forgets no other. -/
theorem recordKeyValue {current use key : String} (hnew : q.indexAt current use key = none) (name : String) :
    Remembers q (q.recordKeyValue current use key name) where
  mainTable := rfl
  currentTable := rfl
  index := by
    intro other otherUse otherKey known hknown
    rw [indexAt_recordKeyValue, if_neg, hknown]
    rintro ⟨rfl, rfl, rfl⟩
    exact absurd (hknown.symm.trans hnew) nofun
  join := fun _ _ _ => id

/-- Remembering an alias for a join that has none forgets no other. -/
theorem recordJoin {current join : String} (hnew : q.joinAt current join = none) (second : String) :
    Remembers q (q.recordJoin join current second) where
  mainTable := rfl
  currentTable := rfl
  index := fun _ _ _ _ => id
  join := by
    intro other otherJoin known hknown
    rw [joinAt_recordJoin, if_neg, hknown]
    rintro ⟨rfl, rfl⟩
    exact absurd (hknown.symm.trans hnew) nofun

theorem addFilter (filter : String) (q : Query) : Remembers q (q.addFilter filter) :=
  .of_same rfl rfl rfl rfl

theorem addSelect (field declaration : String) (q : Query) : Remembers q (q.addSelect field declaration) := by
  unfold Query.addSelect
  dsimp only
  cases (keyAndType declaration).2 with
  | none => exact .of_same rfl rfl rfl rfl
  | some type => exact .of_same rfl rfl rfl rfl

theorem addTable {use : String} (hother : use ≠ q.mainTable) (table : String) (avoidAlias : Bool) :
    Remembers q (q.addTable use table avoidAlias) :=
  .of_same rfl (aliases_addTable_of_ne hother table avoidAlias q) rfl rfl

theorem addKeyValueTable {use : String} (hother : use ≠ q.mainTable) (table key : String)
    (tie : String → String) : Remembers q (q.addKeyValueTable use table key tie).2 := by
  cases hknown : q.keyValueAlias? use key with
  | some name =>
    rw [addKeyValueTable_of_known hknown]
    exact .refl q
  | none =>
    rw [addKeyValueTable_of_new hknown]
    have hnew : (q.addTable use table false).indexAt q.currentTable use key = none := hknown
    exact ((addTable hother table false).trans (recordKeyValue hnew _)).trans (addFilter _ _)

theorem addJoin {table2 : String} (hother : table2 ≠ q.mainTable) (table1 kind clause : String)
    (name : Option String) : Remembers q (q.addJoin table1 kind table2 clause name).2 := by
  cases hknown : q.neededJoin? (name.getD (joinName table1 kind table2)) with
  | some second =>
    rw [addJoin_of_needed hknown]
    exact .refl q
  | none =>
    rw [addJoin_of_new hknown]
    refine trans ?_ (recordJoin ?_ _)
    · exact of_same rfl (aliases_recordAlias_of_ne hother _ q) rfl rfl
    · exact hknown

/-- **No call beside the main table forgets an alias.** -/
theorem beside (h : Beside q.mainTable q q') : Remembers q q' := by
  generalize hmain : q.mainTable = main at h
  cases h with
  | addFilter filter => exact addFilter filter q
  | addSelect field declaration => exact addSelect field declaration q
  | addTable other table avoidAlias => exact addTable (hmain ▸ other) table avoidAlias
  | addKeyValueTable other table key tie => exact addKeyValueTable (hmain ▸ other) table key tie
  | addJoin table1 kind other clause name => exact addJoin (hmain ▸ other) table1 kind clause name

/-- **No run beside the main table forgets an alias.** -/
theorem run (h : Relation.ReflTransGen (Beside q.mainTable) q q') : Remembers q q' := by
  induction h with
  | refl => exact refl q
  | tail _ hstep ih => exact ih.trans (beside (ih.mainTable.symm ▸ hstep))

end Remembers

/-! ## Calls again -/

section Again

variable {q q' : Query} {use table key : String} {table1 kind table2 clause : String} {name : Option String}

/-- After a run beside the main table, an index table is known by the alias of the first call. -/
theorem keyValueAlias?_run (hother : use ≠ q.mainTable) {tie : String → String}
    (hrun : Relation.ReflTransGen (Beside q.mainTable) (q.addKeyValueTable use table key tie).2 q') :
    q'.keyValueAlias? use key = some (q.addKeyValueTable use table key tie).1 := by
  have hadded := Remembers.addKeyValueTable hother table key tie
  have hkept := Remembers.run (hadded.mainTable.symm ▸ hrun)
  rw [keyValueAlias?_eq, hkept.currentTable, hadded.currentTable]
  refine hkept.index _ _ _ _ ?_
  cases hknown : q.keyValueAlias? use key with
  | some first =>
    rw [addKeyValueTable_of_known hknown]
    exact hknown
  | none => exact (addsIndex hknown).remembered

/-- After a run beside the main table, a join is known by the alias of the first call. -/
theorem neededJoin?_run (hother : table2 ≠ q.mainTable)
    (hrun : Relation.ReflTransGen (Beside q.mainTable) (q.addJoin table1 kind table2 clause name).2 q') :
    q'.neededJoin? (name.getD (joinName table1 kind table2)) =
      some (q.addJoin table1 kind table2 clause name).1 := by
  have hadded := Remembers.addJoin hother table1 kind clause name
  have hkept := Remembers.run (hadded.mainTable.symm ▸ hrun)
  rw [neededJoin?_eq, hkept.currentTable, hadded.currentTable]
  refine hkept.join _ _ _ ?_
  cases hknown : q.neededJoin? (name.getD (joinName table1 kind table2)) with
  | some second =>
    rw [addJoin_of_needed hknown]
    exact hknown
  | none => exact (addsJoin hknown).remembered

end Again

/-- **Index tables and joins are added once.** After any run beside the main table, a call for the same key
is answered with the alias of the first one, whatever condition it brings: none is asked for, and the query
stays as it is. So is a call for the same join, with any clause. A call for a key or a name that is not
remembered for the newest use of the main table always adds a use under one more alias, and remembers it. The
alias of a join is new among those of its table; that of an index table is counted, so it is new exactly if
no table has the number that is counted. -/
theorem answered_again (q : Query) :
    (∀ use table key tie q', use ≠ q.mainTable →
      Relation.ReflTransGen (Beside q.mainTable) (q.addKeyValueTable use table key tie).2 q' →
        (∀ tie', q'.addKeyValueTable use table key tie' = ((q.addKeyValueTable use table key tie).1, q')) ∧
        ∀ {m : Type → Type} [Monad m] (tie' : String → m String),
          tieKeyValueTable use table key tie' q' = pure ((q.addKeyValueTable use table key tie).1, q')) ∧
    (∀ table1 kind table2 clause name q', table2 ≠ q.mainTable →
      Relation.ReflTransGen (Beside q.mainTable) (q.addJoin table1 kind table2 clause name).2 q' →
        ∀ table1' kind' table2' clause' name',
          name'.getD (joinName table1' kind' table2') = name.getD (joinName table1 kind table2) →
            q'.addJoin table1' kind' table2' clause' name' =
              ((q.addJoin table1 kind table2 clause name).1, q')) ∧
    (∀ use table key tie, q.keyValueAlias? use key = none →
      AddsIndex use table key tie q (q.addKeyValueTable use table key tie) ∧
        ∀ {m : Type → Type} [Monad m] (tie' : String → m String),
          tieKeyValueTable use table key tie' q = do
            let filter ← tie' (q.addKeyValueTable use table key tie).1
            return ((q.addKeyValueTable use table key tie).1, (q.addIndex use table key).addFilter filter)) ∧
    ∀ table1 kind table2 clause name, q.neededJoin? (name.getD (joinName table1 kind table2)) = none →
      AddsJoin table2 (name.getD (joinName table1 kind table2)) q
        (q.addJoin table1 kind table2 clause name) := by
  refine ⟨fun use table key tie q' hother hrun => ?_, ?_, ?_, ?_⟩
  · have hknown := keyValueAlias?_run hother hrun
    exact ⟨fun tie' => addKeyValueTable_of_known hknown, fun tie' => tieKeyValueTable_of_known hknown⟩
  · intro table1 kind table2 clause name q' hother hrun table1' kind' table2' clause' name' hsame
    refine addJoin_of_needed ?_
    rw [hsame]
    exact neededJoin?_run hother hrun
  · intro use table key tie hnew
    refine ⟨addsIndex hnew, fun tie' => ?_⟩
    rw [addKeyValueTable_of_new hnew]
    exact tieKeyValueTable_of_new hnew
  · intro table1 kind table2 clause name hnew
    exact addsJoin hnew

/-! ## Colours and tags of objects -/

/-- Objects without colours. -/
def uncoloured : Query :=
  new .generic "objects" "Node"

/-- The objects with their colours, their tags, and users beside them. -/
def described : Query :=
  (coloured.addJoin "objects" "INNER" "tags" "TABLE2.object_id = TABLE1.id" none).2.addTable "users"
    "users" true

theorem beside_described :
    Relation.ReflTransGen (Beside "objects") coloured described :=
  .tail (.single (.addJoin coloured "objects" "INNER" (by decide) _ none))
    (.addTable _ (by decide) "users" true)

/-- Colours and tags are there once, and a title is a further use of the index table. -/
theorem described_answers_again :
    (∀ tie, described.addKeyValueTable "idx_strings" "idx_strings" "color" tie = ("id1", described)) ∧
      described.addJoin "objects" "INNER" "tags" "TABLE1.tag = TABLE2.id" none = ("tags", described) ∧
      AddsIndex "idx_strings" "idx_strings" "title" colourOf described
        ("id2", (described.addKeyValueTable "idx_strings" "idx_strings" "title" colourOf).2) ∧
      AddsJoin "tags" "objects=LEFT=tags" described
        ("ta1", (described.addJoin "objects" "LEFT" "tags" "TABLE1.tag = TABLE2.id" none).2) := by
  have hfirst := (answered_again uncoloured).1 "idx_strings" "idx_strings" "color" colourOf described
    (by decide) beside_described
  have hjoin := (answered_again coloured).2.1 "objects" "INNER" "tags" "TABLE2.object_id = TABLE1.id" none
    described (by decide) (.single (.addTable _ (by decide) "users" true)) "objects" "INNER" "tags"
    "TABLE1.tag = TABLE2.id" none rfl
  have hnew := (answered_again described).2.2
  exact ⟨hfirst.1, hjoin, (hnew.1 "idx_strings" "idx_strings" "title" colourOf rfl).1,
    hnew.2 "objects" "LEFT" "tags" "TABLE1.tag = TABLE2.id" none rfl⟩

/-! ## An index table under its second number -/

/-- A custom query of objects that lists the index table under its second number. -/
def listed : Query :=
  uncoloured.applyCustom { tables := some ["objects", "idx_strings AS id2"] }

/-- **A number that is listed is given again.** The index table has one use, so the next one is counted as the
second, which is what the one use is listed as: for a key that was never asked for, both entries have the same
alias. -/
theorem listed_alias_given_again :
    "idx_strings" ≠ listed.mainTable ∧ listed.keyValueAlias? "idx_strings" "color" = none ∧
      listed.aliases "idx_strings" = ["id2"] ∧
      (listed.addKeyValueTable "idx_strings" "idx_strings" "color" colourOf).1 = "id2" ∧
      (listed.addKeyValueTable "idx_strings" "idx_strings" "color" colourOf).2.tables =
        ["objects", "idx_strings AS id2", "idx_strings AS id2"] := by
  refine ⟨by decide, by decide, by decide, by decide, by decide⟩

end RelationSql.Query
