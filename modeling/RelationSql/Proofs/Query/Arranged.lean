import Mathlib.Algebra.Order.BigOperators.Group.List
import Mathlib.Algebra.Order.Group.Nat
import RelationSql.Proofs.Fragment.Items
import RelationSql.Proofs.Fragment.Reread
import RelationSql.Proofs.Query.Attached
import RelationSql.Query.Select

/-!
# The arrangement of `FROM`

The references stand in `FROM` in ascending order, each with its joins, so a statement does not depend on
the order in which the tables were added. Every reference is listed as often as it occurs, followed by all
joins that are recorded for the last word of it. This is the alias of the reference, whatever joins there
are, exactly if the alias is one word or, for a table under its own name, blank (`fromLists_iff`). An alias
in quotes with a blank in it loses its joins (`quoted_alias_loses_joins`).
-/

namespace RelationSql.Query

open RelationSql.Fragment RelationSql.Text

variable {q : Query} {references : List TableReference} {reference : TableReference}

/-! ## The order of the tables -/

/-- The text of `FROM` does not depend on the order of the tables. -/
theorem tableList_of_perm {tables : List String} (h : tables.Perm q.tables) :
    ({ q with tables }).tableList = q.tableList :=
  congrArg (joinWith ",") (ascending_eq_of_perm (h.map q.withJoins))

/-- **The order in which tables were added does not show in a statement.** Besides `FROM`, only the key of
duplicates looks at the tables, and it counts them. -/
theorem statement_of_perm {tables : List String} (h : tables.Perm q.tables) (kind : StatementKind) :
    ({ q with tables }).statement kind = q.statement kind := by
  have hlist := tableList_of_perm h
  have hkey : ({ q with tables }).distinctKey = q.distinctKey := by
    unfold distinctKey
    dsimp only
    rw [h.length_eq]
  cases kind with
  | find =>
    have hdistinct : ({ q with tables }).distinctClause = q.distinctClause := by
      unfold distinctClause distinctOnKeys
      rw [hkey]
      rfl
    have hgroup : ({ q with tables }).groupClause = q.groupClause := by
      unfold groupClause
      rw [hkey]
      rfl
    unfold statement findStatement
    dsimp only
    rw [hlist, hdistinct, hgroup]
    rfl
  | count =>
    unfold statement countStatement
    dsimp only
    rw [hlist]
    rfl

/-! ## What `FROM` lists -/

/-- The joins that are recorded for an alias, in their order. -/
def joinsAt (q : Query) (name : String) : List String :=
  q.joinTables.findD name []

/-- A reference, followed by all joins that are recorded for an alias. -/
def entry (q : Query) (text name : String) : String :=
  joinWith " " (text :: q.joinsAt name)

/-- The text of `FROM` lists these entries, each as often as it occurs. -/
def ListsEntries (entries : List String) (q : Query) : Prop :=
  ∃ listed : List String, listed.Perm entries ∧ q.tableList = joinWith "," listed

/-- The text of `FROM` lists the references, each followed by all joins that are recorded for its alias. -/
def FromLists (references : List TableReference) (q : Query) : Prop :=
  q.ListsEntries (references.map fun reference => q.entry reference.write reference.name)

/-- The joins of an entry are those of the name that it declares. -/
theorem withJoins_eq_entry (text : String) : q.withJoins text = q.entry text (declaredName text) := by
  unfold withJoins entry joinsAt
  cases q.joinTables.findD (declaredName text) [] with
  | nil => rfl
  | cons join joins => rfl

/-- **`FROM` lists each reference as often as it occurs**, followed by all joins of the name it declares. -/
theorem lists_declared (q : Query) :
    q.ListsEntries (q.tables.map fun text => q.entry text (declaredName text)) :=
  ⟨ascending (q.tables.map q.withJoins),
    List.map_congr_left (fun text _ => withJoins_eq_entry text) ▸ perm_ascending _, rfl⟩

/-! ## References that declare another name -/

/-- If a reference does not declare its name, then no reference with another name declares it either. -/
theorem name_eq_of_declaredName_eq {other : TableReference}
    (hreference : declaredName reference.write ≠ reference.name)
    (hother : declaredName other.write = reference.name) : other.name = reference.name := by
  rcases oneWord_or_declaredName_eq other with hone | hname
  · exact absurd (declaredName_write_of_oneWord (hother ▸ hone) _) hreference
  · exact hname.symm.trans hother

/-- An entry without joins is the bare reference. -/
theorem entry_of_joinsAt_eq_nil {name : String} (h : q.joinsAt name = []) (text : String) :
    q.entry text name = text := by
  rw [entry, h]
  rfl

theorem length_lt_entry {name : String} (h : q.joinsAt name ≠ []) (text : String) :
    text.length < (q.entry text name).length := by
  obtain ⟨join, joins, hjoins⟩ := List.exists_cons_of_ne_nil h
  have hblank : " ".length = 1 := rfl
  rw [entry, hjoins]
  show _ < (text ++ " " ++ joinWith " " (join :: joins)).length
  rw [String.length_append, String.length_append]
  omega

theorem length_le_entry (q : Query) (text name : String) : text.length ≤ (q.entry text name).length := by
  by_cases h : q.joinsAt name = []
  · rw [entry_of_joinsAt_eq_nil h]
  · exact (length_lt_entry h text).le

/-- The text of `FROM` gives away the length of its entries, if their number is known. -/
theorem ListsEntries.sum_length {entries others : List String} (h : q.ListsEntries entries)
    (hothers : q.ListsEntries others) (hlength : entries.length = others.length) :
    (entries.map String.length).sum = (others.map String.length).sum := by
  cases entries with
  | nil =>
    rw [List.eq_nil_of_length_eq_zero hlength.symm]
  | cons first entries =>
    obtain ⟨listed, hperm, htext⟩ := h
    obtain ⟨listed', hperm', htext'⟩ := hothers
    have hne : listed ≠ [] := fun hnil => by simp [hnil] at hperm
    have hne' : listed' ≠ [] := fun hnil => by
      subst hnil
      simp [← hperm'.length_eq] at hlength
    have hsum := measure_joinWith String.length_append "," hne
    have hsum' := measure_joinWith String.length_append "," hne'
    rw [← htext, hperm.length_eq, (hperm.map _).sum_eq] at hsum
    rw [← htext', hperm'.length_eq, (hperm'.map _).sum_eq, ← hlength] at hsum'
    omega

/-- A query with one join, which is recorded for this name. -/
def withJoinAt (q : Query) (name : String) : Query :=
  { q with joinTables := Dictionary.empty.insert name ["JOIN"] }

theorem joinsAt_withJoinAt (q : Query) (name other : String) :
    (q.withJoinAt name).joinsAt other = if name = other then ["JOIN"] else [] := by
  unfold joinsAt withJoinAt Dictionary.findD
  rw [Dictionary.find?_insert]
  split <;> rfl

/-- **What is recorded for a name that its reference does not declare is left out.** -/
theorem not_fromLists_withJoinAt (htables : q.tables = references.map TableReference.write)
    (hmem : reference ∈ references) (hdeclares : declaredName reference.write ≠ reference.name) :
    ¬ (q.withJoinAt reference.name).FromLists references := by
  intro hlists
  have hdeclared := (q.withJoinAt reference.name).lists_declared
  rw [show (q.withJoinAt reference.name).tables = _ from htables, List.map_map] at hdeclared
  have hsum := hdeclared.sum_length hlists (by rw [List.length_map, List.length_map])
  have hbare {text name : String} (hname : reference.name ≠ name) :
      (q.withJoinAt reference.name).entry text name = text :=
    entry_of_joinsAt_eq_nil (by rw [joinsAt_withJoinAt, if_neg hname]) text
  have hlt : (references.map fun other =>
        ((q.withJoinAt reference.name).entry other.write (declaredName other.write)).length).sum <
      (references.map fun other =>
        ((q.withJoinAt reference.name).entry other.write other.name).length).sum := by
    refine List.sum_lt_sum _ _ (fun other _ => ?_) ⟨reference, hmem, ?_⟩
    -- an entry that declares the name is one of that name, and the others are listed without joins
    · by_cases hother : declaredName other.write = reference.name
      · rw [hother, name_eq_of_declaredName_eq hdeclares hother]
      · rw [hbare (Ne.symm hother)]
        exact length_le_entry _ _ _
    · rw [hbare (Ne.symm hdeclares)]
      refine length_lt_entry ?_ _
      rw [joinsAt_withJoinAt, if_pos rfl]
      exact List.cons_ne_nil _ _
  simp only [List.map_map, Function.comp_def] at hsum
  exact hlt.ne hsum

/-- References that declare their names are listed with all joins of their names. -/
theorem fromLists_of_declaredName (htables : q.tables = references.map TableReference.write)
    (h : ∀ reference ∈ references, declaredName reference.write = reference.name) :
    q.FromLists references := by
  have hentries := q.lists_declared
  rw [htables, List.map_map] at hentries
  have hsame : references.map (fun reference => q.entry reference.write reference.name) =
      references.map ((fun text => q.entry text (declaredName text)) ∘ TableReference.write) :=
    List.map_congr_left fun reference hmem => by rw [Function.comp_apply, h reference hmem]
  rw [FromLists, hsame]
  exact hentries

/-! ## The arrangement -/

/-- **The order of the tables does not show, and `FROM` lists all of them with their joins, exactly if the
aliases are words.** Queries that differ in the order of their tables only have the same statements, with
the same binds. Their text of `FROM` lists each reference as often as it occurs, followed by all joins that
are recorded for the name that it declares. Whatever joins there are, these are the joins of its alias
exactly if each alias is one word, or is blank and the table's own name. -/
theorem fromLists_iff (htables : q.tables = references.map TableReference.write) :
    (∀ tables : List String, tables.Perm q.tables → ∀ kind,
      ({ q with tables }).statement kind = q.statement kind ∧ ({ q with tables }).build kind = q.build kind) ∧
    (∀ kind, ∃ head tail, q.statement kind = head ++ " FROM " ++ q.tableList ++ tail) ∧
    q.ListsEntries (q.tables.map fun text => q.entry text (declaredName text)) ∧
    ((∀ joinTables, ({ q with joinTables }).FromLists references) ↔
      ∀ reference ∈ references,
        OneWord reference.name ∨ (reference.name = reference.table ∧ Blank reference.name)) := by
  refine ⟨fun tables hperm kind => ?_, q.statement_from, q.lists_declared, fun hlists => ?_, fun hwords => ?_⟩
  · have hstatement := statement_of_perm hperm kind
    refine ⟨hstatement, ?_⟩
    unfold build
    rw [hstatement]
  · intro reference hmem
    by_contra hword
    exact not_fromLists_withJoinAt htables hmem (mt declaredName_write_iff.1 hword) (hlists _)
  · exact fun joinTables => fromLists_of_declaredName htables
      fun reference hmem => declaredName_write_iff.2 (hwords reference hmem)

/-- Objects with their tags, links and a further use of objects. -/
def taggedLinks : Query :=
  (tagged.addTable "links" "links" false).addTable "objects" "objects" false

/-- The links may come first. -/
theorem taggedLinks_arranged :
    let references : List TableReference := [⟨"objects", "objects"⟩, ⟨"links", "li1"⟩, ⟨"objects", "ob1"⟩]
    let tables := ["links AS li1", "objects AS ob1", "objects"]
    (taggedLinks.tables = references.map TableReference.write ∧ tables.Perm taggedLinks.tables) ∧
    (∀ kind, ({ taggedLinks with tables }).build kind = taggedLinks.build kind) ∧
    (∀ joinTables, ({ taggedLinks with joinTables }).FromLists references) ∧
    taggedLinks.tableList =
      "links AS li1,objects AS ob1,objects INNER JOIN tags ON tags.object_id = objects.id" := by
  intro references tables
  have htables : taggedLinks.tables = references.map TableReference.write := by decide
  have hperm : tables.Perm taggedLinks.tables := by decide
  have harranged := fromLists_iff htables
  refine ⟨⟨htables, hperm⟩, fun kind => (harranged.1 tables hperm kind).2, harranged.2.2.2.2 ?_, by decide⟩
  have hwords : ∀ reference ∈ references, OneWord reference.name := by decide
  exact fun reference hmem => .inl (hwords reference hmem)

/-! ## An alias with a blank -/

/-- Objects under a name in quotes, with their tags. -/
def renamedObjects : CustomQuery where
  select := some ["\"my objects\".*"]
  tables := some ["objects AS \"my objects\""]
  joinTables := some (.ofList
    [("\"my objects\"", ["INNER JOIN tags ON \"my objects\".id = tags.node_id"])])
  filters := some ["tags.name = 'new'"]

/-- The query of the renamed objects. -/
def renamed : Query :=
  (new .generic "objects" "Node").applyCustom renamedObjects

/-- **An alias in quotes with a blank in it loses its joins.** The query knows the alias and the join that is
recorded for it, and no statement shows the join. -/
theorem quoted_alias_loses_joins :
    renamed.tables = [TableReference.write ⟨"objects", "\"my objects\""⟩] ∧
    renamed.aliases "objects" = ["\"my objects\""] ∧
    renamed.joinsAt "\"my objects\"" = ["INNER JOIN tags ON \"my objects\".id = tags.node_id"] ∧
    ¬ renamed.FromLists [⟨"objects", "\"my objects\""⟩] ∧
    renamed.statement .find =
      "SELECT \"my objects\".* FROM objects AS \"my objects\" WHERE tags.name = 'new'" ∧
    renamed.statement .count =
      "SELECT COUNT(*) FROM objects AS \"my objects\" WHERE tags.name = 'new'" := by
  refine ⟨by decide, by decide, by decide, ?_, by decide, by decide⟩
  rintro ⟨listed, hperm, htext⟩
  rw [List.map_singleton, List.perm_singleton] at hperm
  rw [hperm] at htext
  exact absurd htext (by decide)

end RelationSql.Query
