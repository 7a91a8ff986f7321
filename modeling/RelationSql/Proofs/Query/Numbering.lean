import Mathlib.Data.List.Nodup
import Mathlib.Order.MinMax
import Mathlib.Tactic.Common
import RelationSql.Proofs.Query.Uses
import RelationSql.Proofs.Walk.Merge

/-!
# Numbered aliases

The aliases of a table are its bare name, if an entry of `FROM` has it, and the numbered names from 1 up
to some number (`Tallied`). A further use takes the bare name or the next number, and a merge of branches
takes the largest number of all branches, so no alias is ever handed out twice: in a query built by any
run of uses and merges (`Run`) the aliases of the entries differ from each other, and each belongs to
exactly one entry (`aliases_unique`).
-/

namespace RelationSql.Query

open RelationSql.Fragment (TableReference)

/-! ## Names -/

/-- Table names of at least two letters that differ in their first two, none of which is a numbered name
of itself. -/
structure ToldApart (names : List String) : Prop where
  long : ∀ table ∈ names, 2 ≤ table.toList.length
  apart : ∀ table ∈ names, ∀ other ∈ names,
    table.toList.take 2 = other.toList.take 2 → table = other
  unnumbered : ∀ table ∈ names, ∀ n, numbered table n ≠ table

/-- The bare name of a table or a numbered one. -/
def IsNameOf (table name : String) : Prop :=
  name = table ∨ ∃ n, name = numbered table n

/-- The first two letters stay where something is put behind a name. -/
theorem take_append_of_long {cs : List Char} (h : 2 ≤ cs.length) (more : List Char) :
    (cs ++ more).take 2 = cs.take 2 :=
  List.take_append_of_le_length h

theorem numbered_inj {table : String} {i j : Nat} (h : numbered table i = numbered table j) :
    i = j := by
  have hlist := congrArg String.toList h
  rw [toList_numbered, toList_numbered] at hlist
  have hread := congrArg (fun digits => Nat.ofDigitChars 10 digits 0) (List.append_cancel_left hlist)
  simpa using hread

theorem IsNameOf.take {table name : String} (hlong : 2 ≤ table.toList.length)
    (h : IsNameOf table name) : name.toList.take 2 = table.toList.take 2 := by
  obtain rfl | ⟨n, rfl⟩ := h
  · rfl
  · have hfront : 2 ≤ (table.toList.take 2).length := by
      rw [List.length_take]
      omega
    rw [toList_numbered, take_append_of_long hfront, List.take_take]
    rfl

namespace ToldApart

variable {names : List String} (h : ToldApart names) {table other name name' : String}

include h

/-- A name tells its table. -/
theorem table_eq (ht : table ∈ names) (ho : other ∈ names) (hname : IsNameOf table name)
    (hname' : IsNameOf other name) : table = other := by
  apply h.apart table ht other ho
  rw [← hname.take (h.long table ht), hname'.take (h.long other ho)]

/-- An entry of `FROM` tells its table and its name. -/
theorem write_inj {r r' : TableReference} (ht : r.table ∈ names) (ho : r'.table ∈ names)
    (heq : r.write = r'.write) : r = r' := by
  have hfront {r : TableReference} (ht : r.table ∈ names) :
      r.write.toList.take 2 = r.table.toList.take 2 := by
    unfold TableReference.write
    split
    · rfl
    · rw [String.toList_append, String.toList_append, List.append_assoc,
        take_append_of_long (h.long _ ht)]
  obtain ⟨table, name⟩ := r
  obtain ⟨table', name'⟩ := r'
  obtain rfl : table = table' := by
    apply h.apart table ht table' ho
    rw [← hfront ht, heq, hfront ho]
  have hbare : TableReference.write ⟨table, table⟩ = table := by simp [TableReference.write]
  by_cases hname : name = table
  · by_cases hname' : name' = table
    · rw [hname, hname']
    · rw [hname, hbare] at heq
      exact absurd heq.symm (write_ne_bare hname')
  · by_cases hname' : name' = table
    · rw [hname', hbare] at heq
      exact absurd heq (write_ne_bare hname)
    · rw [write_of_ne hname, write_of_ne hname'] at heq
      rw [(String.append_right_inj _).1 heq]

end ToldApart

/-! ## The tally of a query -/

/-- Are the aliases of a table numbered from 1 up to `count`, its bare name apart? -/
def NumberedUpTo (table : String) (count : Nat) (known : List String) : Prop :=
  ∀ name, name ≠ table → (name ∈ known ↔ name ∈ numberedNames table count)

/-- The entries of `FROM` are the recorded aliases of the tables, each once, and the aliases of each table
are numbered from 1 on. -/
structure Tallied (names : List String) (q : Query) : Prop where
  tables : ∀ entry, entry ∈ q.tables ↔
    ∃ table, ∃ name ∈ q.aliases table, entry = TableReference.write ⟨table, name⟩
  entries_nodup : q.tables.Nodup
  aliases_nodup : ∀ table, (q.aliases table).Nodup
  known : ∀ table, table ∉ names → q.aliases table = []
  count : ∀ table, ∃ count, NumberedUpTo table count (q.aliases table)

theorem mem_numberedNames {table name : String} {count : Nat} :
    name ∈ numberedNames table count ↔ ∃ n, 1 ≤ n ∧ n ≤ count ∧ name = numbered table n := by
  simp only [numberedNames, List.mem_map, List.mem_range]
  constructor
  · rintro ⟨i, hi, rfl⟩
    exact ⟨i + 1, by omega, by omega, rfl⟩
  · rintro ⟨n, hpos, hle, rfl⟩
    exact ⟨n - 1, by omega, by rw [Nat.sub_add_cancel hpos]⟩

theorem nodup_numberedNames (table : String) (count : Nat) : (numberedNames table count).Nodup := by
  apply List.Nodup.map _ List.nodup_range
  intro i j heq
  exact Nat.succ.inj (numbered_inj heq)

theorem NumberedUpTo.bare {table : String} {count : Nat} {known : List String}
    (h : NumberedUpTo table count known) : NumberedUpTo table count (known ++ [table]) := by
  intro name hname
  rw [← h name hname, List.mem_append, List.mem_singleton, or_iff_left hname]

theorem NumberedUpTo.next {table : String} {count : Nat} {known : List String}
    (h : NumberedUpTo table count known) :
    NumberedUpTo table (count + 1) (known ++ [numbered table (count + 1)]) := by
  intro name hname
  rw [numberedNames_succ, List.mem_append, List.mem_append, h name hname]

/-- The aliases of another table stay as they are. -/
theorem aliases_addTable_of_ne {use other : String} (h : use ≠ other) (table : String)
    (avoidAlias : Bool) (q : Query) :
    (q.addTable use table avoidAlias).aliases other = q.aliases other := by
  simp [addTable, recordAlias, aliases, Dictionary.findD, Dictionary.find?_insert_ne _ _ h]

theorem tables_addTable (use table : String) (avoidAlias : Bool) (q : Query) :
    (q.addTable use table avoidAlias).tables =
      q.tables ++ [TableReference.write ⟨table, q.newAlias use table avoidAlias⟩] :=
  rfl

namespace Tallied

variable {names : List String} {q : Query} {table : String}

theorem mem_names (h : q.Tallied names) {name : String} (hname : name ∈ q.aliases table) :
    table ∈ names := by
  by_contra hother
  rw [h.known table hother] at hname
  cases hname

theorem isNameOf (h : q.Tallied names) {name : String} (hname : name ∈ q.aliases table) :
    IsNameOf table name := by
  by_cases hbare : name = table
  · exact .inl hbare
  · obtain ⟨count, hcount⟩ := h.count table
    obtain ⟨n, -, -, hn⟩ := mem_numberedNames.1 ((hcount name hbare).1 hname)
    exact .inr ⟨n, hn⟩

/-- A table has an entry under its bare name exactly if this is one of its aliases. -/
theorem bare_mem_tables (hnames : ToldApart names) (h : q.Tallied names) (ht : table ∈ names) :
    table ∈ q.tables ↔ table ∈ q.aliases table := by
  have hwrite : table = TableReference.write ⟨table, table⟩ := by simp [TableReference.write]
  rw [h.tables]
  constructor
  · rintro ⟨other, name, hname, heq⟩
    have hsame : TableReference.mk table table = ⟨other, name⟩ :=
      hnames.write_inj ht (h.mem_names hname) (hwrite.symm.trans heq)
    cases hsame
    exact hname
  · intro hbare
    exact ⟨table, table, hbare, hwrite⟩

/-- The number of aliases of a table is its largest number, and one more if its bare name is used. -/
theorem length_aliases (hnames : ToldApart names) (h : q.Tallied names) (ht : table ∈ names)
    {count : Nat} (hcount : NumberedUpTo table count (q.aliases table)) :
    (q.aliases table).length = count + if table ∈ q.aliases table then 1 else 0 := by
  have hnumbers : ((q.aliases table).erase table).Perm (numberedNames table count) := by
    rw [List.perm_ext_iff_of_nodup ((h.aliases_nodup table).erase _) (nodup_numberedNames _ _)]
    intro name
    rw [(h.aliases_nodup table).mem_erase_iff]
    constructor
    · rintro ⟨hbare, hname⟩
      exact (hcount name hbare).1 hname
    · intro hname
      have hbare : name ≠ table := by
        obtain ⟨n, -, -, rfl⟩ := mem_numberedNames.1 hname
        exact hnames.unnumbered table ht n
      exact ⟨hbare, (hcount name hbare).2 hname⟩
  have hlength := hnumbers.length_eq
  have hcounted : (numberedNames table count).length = count := by simp [numberedNames]
  split
  · next hbare =>
    have hpos := List.length_pos_of_mem hbare
    rw [List.length_erase_of_mem hbare] at hlength
    omega
  · next hbare =>
    rw [List.erase_of_not_mem hbare] at hlength
    omega

/-- **A further use takes the bare name, if no entry has it, or the next number.** -/
theorem newAlias_eq (hnames : ToldApart names) (h : q.Tallied names) (ht : table ∈ names)
    {count : Nat} (hcount : NumberedUpTo table count (q.aliases table)) (avoidAlias : Bool) :
    (q.newAlias table table avoidAlias = table ∧ table ∉ q.aliases table) ∨
      q.newAlias table table avoidAlias = numbered table (count + 1) := by
  have hlength := h.length_aliases hnames ht hcount
  have hbare := h.bare_mem_tables hnames ht
  by_cases hused : table ∈ q.aliases table
  · right
    have hentry := hbare.2 hused
    rw [if_pos hused] at hlength
    simp [newAlias, hentry, hlength]
  · have hentry : table ∉ q.tables := fun hentry => hused (hbare.1 hentry)
    rw [if_neg hused] at hlength
    cases avoidAlias with
    | true => exact .inl ⟨by simp [newAlias, hentry], hused⟩
    | false => exact .inr (by simp [newAlias, hentry, hlength])

/-- **A further use gets a new alias**, also among the aliases of all other tables. -/
theorem newAlias_not_mem (hnames : ToldApart names) (h : q.Tallied names) (ht : table ∈ names)
    (avoidAlias : Bool) (other : String) :
    q.newAlias table table avoidAlias ∉ q.aliases other := by
  obtain ⟨count, hcount⟩ := h.count table
  intro hknown
  have hnew := h.newAlias_eq hnames ht hcount avoidAlias
  have hname : IsNameOf table (q.newAlias table table avoidAlias) :=
    hnew.imp And.left fun heq => ⟨_, heq⟩
  obtain rfl := hnames.table_eq ht (h.mem_names hknown) hname (h.isNameOf hknown)
  rcases hnew with ⟨heq, hunused⟩ | heq
  · rw [heq] at hknown
    exact hunused hknown
  · rw [heq] at hknown
    have hbare := hnames.unnumbered table ht (count + 1)
    obtain ⟨n, -, hle, hn⟩ := mem_numberedNames.1 ((hcount _ hbare).1 hknown)
    have := numbered_inj hn
    omega

/-- A further use keeps the tally. -/
theorem addTable (hnames : ToldApart names) (h : q.Tallied names) (ht : table ∈ names)
    (avoidAlias : Bool) : (q.addTable table table avoidAlias).Tallied names := by
  obtain ⟨count, hcount⟩ := h.count table
  have hnew := h.newAlias_eq hnames ht hcount avoidAlias
  have hfresh := h.newAlias_not_mem hnames ht avoidAlias
  have hsame := aliases_addTable table table avoidAlias q
  have hother {other : String} (hne : table ≠ other) := aliases_addTable_of_ne hne table avoidAlias q
  have htables := tables_addTable table table avoidAlias q
  generalize q.newAlias table table avoidAlias = new at hnew hfresh hsame htables
  constructor
  · intro entry
    rw [htables, List.mem_append, List.mem_singleton, h.tables]
    constructor
    · rintro (⟨other, name, hname, rfl⟩ | rfl)
      · refine ⟨other, name, ?_, rfl⟩
        by_cases heq : table = other
        · subst heq
          rw [hsame]
          exact List.mem_append_left _ hname
        · rwa [hother heq]
      · exact ⟨table, new, by simp [hsame], rfl⟩
    · rintro ⟨other, name, hname, rfl⟩
      by_cases heq : table = other
      · subst heq
        rw [hsame, List.mem_append, List.mem_singleton] at hname
        rcases hname with hname | rfl
        · exact .inl ⟨_, name, hname, rfl⟩
        · exact .inr rfl
      · rw [hother heq] at hname
        exact .inl ⟨other, name, hname, rfl⟩
  · rw [htables, List.nodup_append]
    refine ⟨h.entries_nodup, List.nodup_singleton _, ?_⟩
    rintro entry hentry _ hlast rfl
    obtain ⟨other, name, hname, heq⟩ := (h.tables entry).1 hentry
    rw [List.mem_singleton.1 hlast] at heq
    have hsame : TableReference.mk table new = ⟨other, name⟩ :=
      hnames.write_inj ht (h.mem_names hname) heq
    cases hsame
    exact hfresh _ hname
  · intro other
    by_cases heq : table = other
    · subst heq
      rw [hsame, List.nodup_append]
      refine ⟨h.aliases_nodup _, List.nodup_singleton _, ?_⟩
      rintro name hname _ hlast rfl
      rw [List.mem_singleton.1 hlast] at hname
      exact hfresh _ hname
    · rw [hother heq]
      exact h.aliases_nodup other
  · intro other hunknown
    rw [hother (by rintro rfl; exact hunknown ht)]
    exact h.known other hunknown
  · intro other
    by_cases heq : table = other
    · subst heq
      rw [hsame]
      rcases hnew with ⟨rfl, -⟩ | rfl
      · exact ⟨count, hcount.bare⟩
      · exact ⟨count + 1, hcount.next⟩
    · rw [hother heq]
      exact h.count other

/-- A query with the same entries and aliases has the same tally. -/
theorem congr (h : q.Tallied names) {q' : Query} (htables : q'.tables = q.tables)
    (haliases : q'.tableAlias = q.tableAlias) : q'.Tallied names := by
  have hsame (table : String) : q'.aliases table = q.aliases table := by
    rw [aliases, haliases, aliases]
  constructor
  · intro entry
    simp only [htables, hsame]
    exact h.tables entry
  · rw [htables]
    exact h.entries_nodup
  · simpa only [hsame] using h.aliases_nodup
  · simpa only [hsame] using h.known
  · simpa only [hsame] using h.count

/-- An index table is a further use, or no use at all if it was added before. -/
theorem addKeyValueTable (hnames : ToldApart names) (h : q.Tallied names) (ht : table ∈ names)
    (key : String) (tie : String → String) :
    (q.addKeyValueTable table table key tie).2.Tallied names := by
  unfold Query.addKeyValueTable
  cases q.keyValueAlias? table key with
  | some name => exact h
  | none => exact (h.addTable hnames ht false).congr rfl rfl

end Tallied

/-! ## Merges -/

theorem nodup_addMissing {known : List String} (h : known.Nodup) (items : List String) :
    (addMissing known items).Nodup := by
  induction items generalizing known with
  | nil => exact h
  | cons item items ih =>
    rw [addMissing]
    split
    · exact ih h
    · next hnew =>
      apply ih
      rw [← List.concat_eq_append]
      exact h.concat (by simpa using hnew)

/-- The list of each key has what is missing added to it. -/
theorem findD_absorbLists (known others : Dictionary (List String)) (key : String) :
    (absorbLists known others).findD key [] = addMissing (known.findD key []) (others.findD key []) := by
  obtain ⟨entries, hascending⟩ := others
  unfold absorbLists Dictionary.findD
  simp only [Dictionary.find?]
  induction entries generalizing known with
  | nil => rfl
  | cons entry entries ih =>
    obtain ⟨k, names⟩ := entry
    obtain ⟨hfirst, hrest⟩ := List.pairwise_cons.1 hascending
    rw [List.foldl_cons]
    refine (ih _ hrest).trans ?_
    have haltered := Dictionary.find?_alter known k key fun old => addMissing (old.getD []) names
    simp only [Dictionary.find?] at haltered
    rw [haltered, Dictionary.findIn]
    split
    · next heq =>
      subst heq
      rw [Dictionary.findIn_eq_none hfirst]
      rfl
    · rfl

/-- **A merge knows the aliases of all of its branches.** -/
theorem mem_aliases_foldl {q : Query} {queries : List Query} {table name : String} :
    name ∈ (queries.foldl absorb q).aliases table ↔ ∃ b ∈ q :: queries, name ∈ b.aliases table := by
  induction queries generalizing q with
  | nil => simp
  | cons other queries ih =>
    have habsorbed : (q.absorb other).aliases table =
        addMissing (q.aliases table) (other.aliases table) :=
      findD_absorbLists q.tableAlias other.tableAlias table
    rw [List.foldl_cons, ih]
    simp only [List.mem_cons, exists_eq_or_imp, habsorbed, mem_addMissing_iff, or_assoc]

theorem nodup_aliases_foldl {q : Query} (queries : List Query) {table : String}
    (h : (q.aliases table).Nodup) : ((queries.foldl absorb q).aliases table).Nodup := by
  induction queries generalizing q with
  | nil => exact h
  | cons other queries ih =>
    have habsorbed : (q.absorb other).aliases table =
        addMissing (q.aliases table) (other.aliases table) :=
      findD_absorbLists q.tableAlias other.tableAlias table
    apply ih
    rw [habsorbed]
    exact nodup_addMissing h _

/-- The largest number of some lists numbered from 1 on. -/
theorem exists_numberedUpTo {table : String} {queries : List Query} {known : List String}
    (hknown : ∀ name, name ∈ known ↔ ∃ b ∈ queries, name ∈ b.aliases table)
    (h : ∀ b ∈ queries, ∃ count, NumberedUpTo table count (b.aliases table)) :
    ∃ count, NumberedUpTo table count known := by
  suffices hcount : ∃ count, ∀ name, name ≠ table →
      ((∃ b ∈ queries, name ∈ b.aliases table) ↔ name ∈ numberedNames table count) by
    obtain ⟨count, hcount⟩ := hcount
    exact ⟨count, fun name hname => (hknown name).trans (hcount name hname)⟩
  clear hknown
  induction queries with
  | nil => exact ⟨0, by simp [numberedNames]⟩
  | cons q queries ih =>
    obtain ⟨hq, hrest⟩ := List.forall_mem_cons.1 h
    obtain ⟨first, hfirst⟩ := hq
    obtain ⟨more, hmore⟩ := ih hrest
    refine ⟨max first more, fun name hname => ?_⟩
    rw [List.exists_mem_cons_iff, hfirst name hname, hmore name hname]
    simp only [mem_numberedNames]
    constructor
    · rintro (⟨n, hpos, hle, rfl⟩ | ⟨n, hpos, hle, rfl⟩)
      · exact ⟨n, hpos, by omega, rfl⟩
      · exact ⟨n, hpos, by omega, rfl⟩
    · rintro ⟨n, hpos, hle, rfl⟩
      rcases le_max_iff.1 hle with hle | hle
      · exact .inl ⟨n, hpos, hle, rfl⟩
      · exact .inr ⟨n, hpos, hle, rfl⟩

/-- Mending a branch by adding conditions changes neither its entries nor its aliases. -/
theorem mend_keeps {profile : Profile} (hprofile : profile.OnlyAddsFilters) {tables : List String} :
    ∀ {q mended : Query}, mend profile tables q = .ok mended →
      ∃ filters, mended = { q with filters := q.filters ++ filters } := by
  induction tables with
  | nil =>
    rintro q _ ⟨⟩
    exact ⟨[], by simp⟩
  | cons table tables ih =>
    intro q mended h
    rw [mend] at h
    split at h
    · exact ih h
    · dsimp only at h
      split at h
      · next repaired hrepaired =>
        obtain ⟨first, rfl⟩ := hprofile _ _ _ _ hrepaired
        obtain ⟨more, rfl⟩ := ih h
        exact ⟨first ++ more, by simp⟩
      · cases h

/-- What a merge takes over from its branches. -/
structure Unites (branches : List Query) (merged : Query) : Prop where
  tables : merged.tables = unionTables branches
  aliases : ∀ table name, name ∈ merged.aliases table ↔ ∃ b ∈ branches, name ∈ b.aliases table
  nodup : ∀ table, (∀ b ∈ branches, (b.aliases table).Nodup) → (merged.aliases table).Nodup

/-- **A merge of branches unites their entries and aliases**; without branches it changes nothing. -/
theorem unites_of_merge {profile : Profile} (hprofile : profile.OnlyAddsFilters)
    {base merged : Query} {branches : List Query}
    (h : mergeBranches profile base branches = .ok merged) :
    (branches = [] ∧ merged = base) ∨ Unites branches merged := by
  obtain ⟨mended, hmended, rfl⟩ := mergeBranches_eq_ok h
  have hsame : mended.map tableAlias = branches.map tableAlias := by
    have hall := forall₂_of_mendAll hmended
    clear h hmended
    generalize unionTables branches = tables at hall
    induction hall with
    | nil => rfl
    | cons hq _ ih =>
      obtain ⟨filters, rfl⟩ := mend_keeps hprofile hq
      rw [List.map_cons, List.map_cons, ih]
  cases mended with
  | nil =>
    left
    rw [List.map_nil] at hsame
    exact ⟨List.map_eq_nil_iff.1 hsame.symm, rfl⟩
  | cons q more =>
    right
    have hknown (table name : String) : (∃ b ∈ q :: more, name ∈ b.aliases table) ↔
        ∃ b ∈ branches, name ∈ b.aliases table := by
      have hmap (queries : List Query) : (∃ b ∈ queries, name ∈ b.aliases table) ↔
          ∃ names ∈ queries.map tableAlias, name ∈ names.findD table [] := by
        simp only [List.mem_map, exists_exists_and_eq_and]
        rfl
      rw [hmap, hmap, hsame]
    refine ⟨rfl, fun table name => mem_aliases_foldl.trans (hknown table name), ?_⟩
    intro table hbranches
    apply nodup_aliases_foldl more
    have hfirst : q.tableAlias ∈ branches.map tableAlias := hsame ▸ List.mem_cons_self
    obtain ⟨b, hb, heq⟩ := List.mem_map.1 hfirst
    have hsame : b.aliases table = q.aliases table := by
      rw [aliases, heq, aliases]
    exact hsame ▸ hbranches b hb

/-- A merge keeps the tally. -/
theorem Tallied.merge {names : List String} {branches : List Query} {merged : Query}
    (hbranches : ∀ b ∈ branches, b.Tallied names) (h : Unites branches merged) :
    merged.Tallied names := by
  constructor
  · intro entry
    rw [h.tables, unionTables, mem_addMissing_iff, List.mem_flatMap]
    simp only [List.not_mem_nil, false_or]
    constructor
    · rintro ⟨b, hb, hentry⟩
      obtain ⟨table, name, hname, heq⟩ := ((hbranches b hb).tables entry).1 hentry
      exact ⟨table, name, (h.aliases table name).2 ⟨b, hb, hname⟩, heq⟩
    · rintro ⟨table, name, hname, heq⟩
      obtain ⟨b, hb, hname⟩ := (h.aliases table name).1 hname
      exact ⟨b, hb, ((hbranches b hb).tables entry).2 ⟨table, name, hname, heq⟩⟩
  · rw [h.tables]
    exact nodup_addMissing List.nodup_nil _
  · exact fun table => h.nodup table fun b hb => (hbranches b hb).aliases_nodup table
  · intro table hunknown
    rw [List.eq_nil_iff_forall_not_mem]
    intro name hname
    obtain ⟨b, hb, hname⟩ := (h.aliases table name).1 hname
    exact hunknown ((hbranches b hb).mem_names hname)
  · exact fun table => exists_numberedUpTo (h.aliases table) fun b hb => (hbranches b hb).count table

/-! ## Runs -/

/-- A run of steps from one query to another. A step adds a use of a table or of an index table, or it
merges branches that are runs of their own from the query before the merge; branches that lack a table
are mended by conditions only. -/
inductive Run (names : List String) : Query → Query → Prop where
  | refl (q : Query) : Run names q q
  | addTable {first q : Query} (run : Run names first q) {table : String} (mem : table ∈ names)
      (avoidAlias : Bool) : Run names first (q.addTable table table avoidAlias)
  | addKeyValueTable {first q : Query} (run : Run names first q) {table : String}
      (mem : table ∈ names) (key : String) (tie : String → String) :
      Run names first (q.addKeyValueTable table table key tie).2
  | merge {first base merged : Query} {branches : List Query} {profile : Profile}
      (run : Run names first base) (runs : ∀ b ∈ branches, Run names base b)
      (mends : profile.OnlyAddsFilters)
      (merged_eq : mergeBranches profile base branches = .ok merged) : Run names first merged

/-- **A run keeps the tally.** -/
theorem Run.tallied {names : List String} (hnames : ToldApart names) {first q : Query}
    (h : Run names first q) (hfirst : first.Tallied names) : q.Tallied names := by
  induction h with
  | refl => exact hfirst
  | addTable _ mem avoidAlias ih => exact (ih hfirst).addTable hnames mem avoidAlias
  | addKeyValueTable _ mem key tie ih => exact (ih hfirst).addKeyValueTable hnames mem key tie
  | merge _ _ mends merged_eq ih ihs =>
    rcases unites_of_merge mends merged_eq with ⟨-, rfl⟩ | hunites
    · exact ih hfirst
    · exact .merge (fun b hb => ihs b hb (ih hfirst)) hunites

/-- A new query has no entries and no aliases. -/
theorem tallied_new (names : List String) (dialect : Dialect) (mainTable mainClass : String) :
    (new dialect mainTable mainClass).Tallied names := by
  have hnone (table : String) : (new dialect mainTable mainClass).aliases table = [] := rfl
  constructor
  · intro entry
    constructor
    · rintro ⟨⟩
    · rintro ⟨table, name, hname, -⟩
      rw [hnone] at hname
      cases hname
  · exact List.nodup_nil
  · simp [hnone]
  · simp [hnone]
  · exact fun table => ⟨0, by simp [NumberedUpTo, hnone, numberedNames]⟩

/-- The entries of `FROM` as tables under their aliases. They are the recorded aliases, and no two
entries have the same alias. -/
structure Declares (q : Query) (references : List TableReference) : Prop where
  tables : q.tables = references.map TableReference.write
  recorded : ∀ reference, reference ∈ references ↔ reference.name ∈ q.aliases reference.table
  nodup : (references.map TableReference.name).Nodup

/-- Entries that are tallied are tables under their aliases. -/
theorem Tallied.exists_declares {names : List String} (hnames : ToldApart names) {q : Query}
    (h : q.Tallied names) : ∃ references, q.Declares references := by
  have hread : ∀ entry ∈ q.tables, ∃ reference : TableReference,
      reference.name ∈ q.aliases reference.table ∧ reference.write = entry := by
    intro entry hentry
    obtain ⟨table, name, hname, heq⟩ := (h.tables entry).1 hentry
    exact ⟨⟨table, name⟩, hname, heq.symm⟩
  choose! reference hrecorded hwrite using hread
  have htables : (q.tables.map reference).map TableReference.write = q.tables := by
    rw [List.map_map]
    exact (List.map_congr_left hwrite).trans (List.map_id _)
  have hmem {r : TableReference} (hr : r ∈ q.tables.map reference) :
      r.name ∈ q.aliases r.table := by
    obtain ⟨entry, hentry, rfl⟩ := List.mem_map.1 hr
    exact hrecorded entry hentry
  refine ⟨q.tables.map reference, htables.symm, fun r => ⟨hmem, fun hname => ?_⟩, ?_⟩
  · have hentry : r.write ∈ q.tables := (h.tables _).2 ⟨r.table, r.name, hname, rfl⟩
    have hread := hrecorded _ hentry
    have heq := hnames.write_inj (h.mem_names hread) (h.mem_names hname) (hwrite _ hentry)
    exact heq ▸ List.mem_map_of_mem hentry
  · have hnodup : (q.tables.map reference).Nodup := by
      apply List.Nodup.of_map TableReference.write
      rw [htables]
      exact h.entries_nodup
    apply hnodup.map_on
    rintro ⟨table, name⟩ hr ⟨table', name'⟩ hr' heq
    obtain rfl : name = name' := heq
    have hname := hmem hr
    have hname' := hmem hr'
    obtain rfl : table = table' := hnames.table_eq (h.mem_names hname) (h.mem_names hname')
      (h.isNameOf hname) (h.isNameOf hname')
    rfl

/-- **The aliases of `FROM` stay unique.** In a query built by a run the entries are tables under
different aliases, and every recorded alias is that of exactly one entry. So no use behind a merge takes an
alias that one of the branches has. -/
theorem aliases_unique {names : List String} (hnames : ToldApart names) {dialect : Dialect}
    {mainTable mainClass : String} {q : Query} (h : Run names (new dialect mainTable mainClass) q) :
    (∃ references, q.Declares references ∧
      ∀ table, ∀ name ∈ q.aliases table,
        (references.map TableReference.name).count name = 1) ∧
    ∀ profile branches merged, Profile.OnlyAddsFilters profile → (∀ b ∈ branches, Run names q b) →
      mergeBranches profile q branches = .ok merged →
        ∀ table ∈ names, ∀ avoidAlias, ∀ b ∈ branches, ∀ other,
          merged.newAlias table table avoidAlias ∉ b.aliases other := by
  have htally := h.tallied hnames (tallied_new names dialect mainTable mainClass)
  constructor
  · obtain ⟨references, hdeclares⟩ := htally.exists_declares hnames
    refine ⟨references, hdeclares, fun table name hname => ?_⟩
    apply List.count_eq_one_of_mem hdeclares.nodup
    exact List.mem_map.2 ⟨⟨table, name⟩, (hdeclares.recorded _).2 hname, rfl⟩
  · intro profile branches merged hprofile hruns hmerged table ht avoidAlias b hb other hname
    have hmerge := (Run.merge h hruns hprofile hmerged).tallied hnames
      (tallied_new names dialect mainTable mainClass)
    rcases unites_of_merge hprofile hmerged with ⟨rfl, -⟩ | hunites
    · cases hb
    · apply hmerge.newAlias_not_mem hnames ht avoidAlias other
      exact (hunites.aliases other _).2 ⟨b, hb, hname⟩

/-! ## A run over books -/

/-- The tables of books and of their loans. -/
def shelf : List String :=
  ["books", "loans"]

theorem toldApart_shelf : ToldApart shelf where
  long := by decide
  apart := by decide
  unnumbered := by
    rintro table ht
    rcases List.mem_pair.1 ht with rfl | rfl
    · exact numbered_ne fun _ => ⟨'o', by decide, rfl⟩
    · exact numbered_ne fun _ => ⟨'a', by decide, rfl⟩

/-- A use of the books. -/
def usedOnce : Query :=
  (new .generic "books" "Book").addTable "books" "books" false

/-- A branch with a use under the bare name. -/
def bareBranch : Query :=
  usedOnce.addTable "books" "books" true

/-- A branch with a loan of a further book. -/
def loanBranch : Query :=
  (usedOnce.addTable "books" "books" false).addTable "loans" "loans" true

/-- The two branches merged. -/
def mergedOnce : Query :=
  (mergeBranches books.profile usedOnce [bareBranch, loanBranch]).toOption.getD usedOnce

theorem run_usedOnce : Run shelf (new .generic "books" "Book") usedOnce :=
  .addTable (.refl _) (by decide) false

theorem run_branches : ∀ b ∈ [bareBranch, loanBranch], Run shelf usedOnce b := by
  have hbare : Run shelf usedOnce bareBranch := .addTable (.refl _) (by decide) true
  have hsecond : Run shelf usedOnce (usedOnce.addTable "books" "books" false) :=
    .addTable (.refl _) (by decide) false
  have hloan : Run shelf usedOnce loanBranch := .addTable hsecond (by decide) true
  simpa using And.intro hbare hloan

/-- Behind a merge of branches with the numbers 1 and 2 the next use has the number 3. -/
theorem shelf_aliases_unique :
    Run shelf (new .generic "books" "Book") (mergedOnce.addTable "books" "books" false) ∧
      (mergedOnce.addTable "books" "books" false).tables =
        ["books AS bo1", "books", "books AS bo2", "loans", "books AS bo3"] ∧
      (∃ references, (mergedOnce.addTable "books" "books" false).Declares references) ∧
      mergedOnce.newAlias "books" "books" false ∉ loanBranch.aliases "books" := by
  have hmends : books.profile.OnlyAddsFilters := books_onlyAddsFilters _ rfl
  have hmerged : mergeBranches books.profile usedOnce [bareBranch, loanBranch] = .ok mergedOnce := rfl
  have hrun : Run shelf (new .generic "books" "Book") (mergedOnce.addTable "books" "books" false) :=
    .addTable (.merge run_usedOnce run_branches hmends hmerged) (by decide) false
  obtain ⟨⟨references, hdeclares, -⟩, -⟩ := aliases_unique toldApart_shelf hrun
  obtain ⟨-, hfresh⟩ := aliases_unique toldApart_shelf run_usedOnce
  refine ⟨hrun, by decide +kernel, ⟨references, hdeclares⟩, ?_⟩
  exact hfresh _ _ mergedOnce hmends run_branches hmerged "books" (by decide) false loanBranch
    (by simp) "books"

end RelationSql.Query
