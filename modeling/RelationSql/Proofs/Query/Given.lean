import RelationSql.Proofs.Query.Joins
import RelationSql.Proofs.Query.Register

/-!
# Names given in turn

Uses of tables and joins take their names from one supply: behind the first two letters a use counts the
names before it, a join looks for a number that is free. A join always gets a new name. A use gets a name
that was given before in two cases, and in no other (`names_given`):

- it asks for the bare name while no entry has the table under the table's own name, and a join or a use of
  another table has the bare name already (`GivenBare`);
- an entry that is written like the name counts as a bare use of it (`Miscounted`), which no name without
  an ` AS ` in it allows (`Gives.not_miscounted`).
-/

namespace RelationSql.Query

open RelationSql.Fragment (TableReference)

/-! ## Steps -/

/-- A step that may give a name: a use of a table, which may go by another name than the table, or a
join. -/
inductive Naming where
  | use (name table : String) (avoidAlias : Bool)
  | join (table1 kind table2 clause : String) (name : Option String)
  deriving DecidableEq, Repr

/-- A use gets its bare name, and the name was given before. -/
def GivenBare (name table : String) (avoidAlias : Bool) (q : Query) : Prop :=
  (avoidAlias = true ∧ table ∉ q.tables) ∧ name ∈ q.aliases name

/-- A use is numbered as if a use before it had the bare name, and the number was given before. -/
def Miscounted (name table : String) (avoidAlias : Bool) (q : Query) : Prop :=
  ¬ (avoidAlias = true ∧ table ∉ q.tables) ∧ name ∈ q.tables ∧
    numbered name (q.aliases name).length ∈ q.aliases name

namespace Naming

/-- The name whose uses the step counts. -/
def counted : Naming → String
  | use name _ _ => name
  | join _ _ table2 _ _ => table2

/-- The query after the step. -/
def run : Naming → Query → Query
  | use name table avoidAlias, q => q.addTable name table avoidAlias
  | join table1 kind table2 clause name, q => (q.addJoin table1 kind table2 clause name).2

/-- The name that the step gives. A join that was made before gives none. -/
def new? : Naming → Query → Option String
  | use name table avoidAlias, q => some (q.newAlias name table avoidAlias)
  | join table1 kind table2 clause name, q =>
    match q.neededJoin? (name.getD (joinName table1 kind table2)) with
    | some _ => none
    | none => some (q.addJoin table1 kind table2 clause name).1

/-- The step gives a name that was given before. -/
def Repeats : Naming → Query → Prop
  | use name table avoidAlias, q => q.GivenBare name table avoidAlias ∨ q.Miscounted name table avoidAlias
  | join _ _ _ _ _, _ => False

end Naming

/-- The query after some steps. -/
def runAll (steps : List Naming) (q : Query) : Query :=
  steps.foldl (fun q s => s.run q) q

/-- The names that some steps give, in turn. -/
def given : List Naming → Query → List String
  | [], _ => []
  | s :: steps, q => (s.new? q).toList ++ given steps (s.run q)

/-! ## One step -/

/-- **The name of a further use**: the bare one, or a number behind those of the uses before it. -/
theorem newAlias_cases (name table : String) (avoidAlias : Bool) (q : Query) :
    ((avoidAlias = true ∧ table ∉ q.tables) ∧ q.newAlias name table avoidAlias = name) ∨
      (¬ (avoidAlias = true ∧ table ∉ q.tables) ∧
        ((name ∈ q.tables ∧ q.newAlias name table avoidAlias = numbered name (q.aliases name).length) ∨
          (name ∉ q.tables ∧
            q.newAlias name table avoidAlias = numbered name ((q.aliases name).length + 1)))) := by
  by_cases hbare : avoidAlias = true ∧ table ∉ q.tables
  · exact .inl ⟨hbare, by simp [newAlias, hbare]⟩
  · refine .inr ⟨hbare, ?_⟩
    have hnumbered : (avoidAlias && !q.tables.contains table) = false := by
      simpa using hbare
    unfold newAlias
    dsimp only
    rw [hnumbered, if_neg Bool.false_ne_true]
    by_cases hentry : name ∈ q.tables
    · exact .inl ⟨hentry, if_pos (List.contains_iff_mem.2 hentry)⟩
    · exact .inr ⟨hentry, if_neg (mt List.contains_iff_mem.1 hentry)⟩

theorem isNameOf_newAlias (name table : String) (avoidAlias : Bool) (q : Query) :
    IsNameOf name (q.newAlias name table avoidAlias) := by
  rcases newAlias_cases name table avoidAlias q with ⟨-, heq⟩ | ⟨-, ⟨-, heq⟩ | ⟨-, heq⟩⟩
  · exact .inl heq
  · exact .inr ⟨_, heq⟩
  · exact .inr ⟨_, heq⟩

section Step

variable {s : Naming} {q : Query} {b : String}

/-- A join that gives a name is new, and gives the name that a joined table gets. -/
theorem Naming.new?_join {table1 kind table2 clause : String} {name : Option String}
    (h : (Naming.join table1 kind table2 clause name).new? q = some b) :
    q.neededJoin? (name.getD (joinName table1 kind table2)) = none ∧ b = q.joinAlias table2 := by
  simp only [Naming.new?] at h
  split at h
  · cases h
  · next hneeded =>
    rw [addJoin_of_new hneeded, Option.some.injEq] at h
    exact ⟨hneeded, h.symm⟩

/-- A step that gives no name changes nothing. -/
theorem Naming.run_of_none (h : s.new? q = none) : s.run q = q := by
  cases s with
  | use name table avoidAlias => cases h
  | join table1 kind table2 clause name =>
    simp only [Naming.new?] at h
    split at h
    · next second hneeded => exact congrArg Prod.snd (addJoin_of_needed hneeded)
    · cases h

/-- The name that a step gives is recorded behind those before it. -/
theorem Naming.aliases_run (h : s.new? q = some b) :
    (s.run q).aliases s.counted = q.aliases s.counted ++ [b] := by
  cases s with
  | use name table avoidAlias =>
    cases h
    exact aliases_addTable name table avoidAlias q
  | join table1 kind table2 clause name =>
    obtain ⟨hneeded, rfl⟩ := Naming.new?_join h
    rw [Naming.run, addJoin_of_new hneeded]
    exact aliases_recordAlias table2 _ q

/-- The names of other uses stay as they are. -/
theorem Naming.aliases_run_of_ne (h : s.new? q = some b) {other : String} (hne : s.counted ≠ other) :
    (s.run q).aliases other = q.aliases other := by
  cases s with
  | use name table avoidAlias => exact aliases_addTable_of_ne hne table avoidAlias q
  | join table1 kind table2 clause name =>
    obtain ⟨hneeded, rfl⟩ := Naming.new?_join h
    rw [Naming.run, addJoin_of_new hneeded]
    exact aliases_recordAlias_of_ne hne _ q

/-- A use adds one entry under the name that it gives, a join adds none. -/
theorem Naming.mem_tables_run (h : s.new? q = some b) {entry : String} :
    entry ∈ (s.run q).tables ↔ entry ∈ q.tables ∨
      ∃ name table avoidAlias, s = .use name table avoidAlias ∧ entry = TableReference.write ⟨table, b⟩ := by
  cases s with
  | use name table avoidAlias =>
    cases h
    simp [Naming.run, tables_addTable]
  | join table1 kind table2 clause name =>
    obtain ⟨hneeded, rfl⟩ := Naming.new?_join h
    rw [Naming.run, addJoin_of_new hneeded]
    exact ⟨.inl, fun hmem => hmem.elim id fun ⟨_, _, _, heq, _⟩ => nomatch heq⟩

theorem Naming.isNameOf (h : s.new? q = some b) : IsNameOf s.counted b := by
  cases s with
  | use name table avoidAlias =>
    cases h
    exact isNameOf_newAlias name table avoidAlias q
  | join table1 kind table2 clause name =>
    obtain ⟨-, rfl⟩ := Naming.new?_join h
    exact isNameOf_joinAlias q table2

end Step

/-! ## What was given -/

/-- The names that were given are those that the query records, each behind the first two letters of its
use and with no larger number than there are uses. Where an entry has a bare name, the name was given, and
all numbers are smaller. -/
structure Gives (names given : List String) (q : Query) : Prop where
  mem_iff : ∀ name, name ∈ given ↔ ∃ table, name ∈ q.aliases table
  known : ∀ table, table ∉ names → q.aliases table = []
  isNameOf : ∀ table, ∀ name ∈ q.aliases table, IsNameOf table name
  le : ∀ table n, numbered table n ∈ q.aliases table → n ≤ (q.aliases table).length
  bare : ∀ table ∈ names, IsBare table → table ∈ q.tables →
    table ∈ q.aliases table ∧ ∀ n, numbered table n ∈ q.aliases table → n < (q.aliases table).length

namespace Gives

variable {names given : List String} {q : Query} {s : Naming} {b table : String}

theorem mem_names (h : q.Gives names given) {name : String} (hname : name ∈ q.aliases table) :
    table ∈ names := by
  by_contra hother
  rw [h.known table hother] at hname
  cases hname

theorem new (names : List String) (dialect : Dialect) (mainTable mainClass : String) :
    (Query.new dialect mainTable mainClass).Gives names [] where
  mem_iff := fun _ => ⟨nofun, fun ⟨_, hname⟩ => nomatch hname⟩
  known := fun _ _ => rfl
  isNameOf := fun _ _ hname => nomatch hname
  le := fun _ _ hname => nomatch hname
  bare := fun _ _ _ hentry => nomatch hentry

/-- A use whose name is not written like an entry is never miscounted. -/
theorem not_miscounted (h : q.Gives names given) {name : String} (hname : name ∈ names)
    (hbare : IsBare name) (avoidAlias : Bool) : ¬ q.Miscounted name table avoidAlias := by
  rintro ⟨-, hentry, hmem⟩
  exact lt_irrefl _ ((h.bare name hname hbare hentry).2 _ hmem)

section Told

variable (hnames : ToldApart names) (h : q.Gives names given)

include hnames h

/-- A name of a use was given exactly if it was given to this use. -/
theorem mem_given_iff (ht : table ∈ names) (hb : IsNameOf table b) : b ∈ given ↔ b ∈ q.aliases table := by
  rw [h.mem_iff]
  refine ⟨fun ⟨other, hother⟩ => ?_, fun hmem => ⟨table, hmem⟩⟩
  have heq := hnames.table_eq ht (h.mem_names hother) hb (h.isNameOf other b hother)
  rwa [heq]

/-- **The name that a step gives is new, unless it is one of those that are given again.** -/
theorem given_again_iff (hs : s.counted ∈ names) (hnew : s.new? q = some b) : b ∈ given ↔ s.Repeats q := by
  rw [h.mem_given_iff hnames hs (Naming.isNameOf hnew)]
  cases s with
  | join table1 kind table2 clause name =>
    obtain ⟨-, rfl⟩ := Naming.new?_join hnew
    exact iff_of_false (joinAlias_not_mem q table2) not_false
  | use name table avoidAlias =>
    cases hnew
    show q.newAlias name table avoidAlias ∈ q.aliases name ↔ _ ∨ _
    rcases newAlias_cases name table avoidAlias q with ⟨hbare, heq⟩ | ⟨hbare, ⟨hentry, heq⟩ | ⟨hentry, heq⟩⟩
    · rw [heq, or_iff_left fun hmiscounted => hmiscounted.1 hbare]
      exact (and_iff_right hbare).symm
    · rw [heq, or_iff_right fun hgiven => hbare hgiven.1]
      exact ⟨fun hmem => ⟨hbare, hentry, hmem⟩, fun hmiscounted => hmiscounted.2.2⟩
    · rw [heq]
      refine iff_of_false (fun hmem => ?_) ?_
      · have := h.le name _ hmem
        omega
      · rintro (hgiven | hmiscounted)
        · exact hbare hgiven.1
        · exact hentry hmiscounted.2.1

/-- The number that a step gives is at most one larger than the number of uses, and no larger where an
entry has the bare name. -/
theorem number_le (hs : s.counted ∈ names) {n : Nat} (hnew : s.new? q = some (numbered s.counted n)) :
    n ≤ (q.aliases s.counted).length + 1 ∧
      (IsBare s.counted → s.counted ∈ q.tables → n ≤ (q.aliases s.counted).length) := by
  cases s with
  | use name table avoidAlias =>
    have heq : q.newAlias name table avoidAlias = numbered name n := Option.some.inj hnew
    show n ≤ (q.aliases name).length + 1 ∧ (_ → name ∈ q.tables → n ≤ (q.aliases name).length)
    rcases newAlias_cases name table avoidAlias q with ⟨-, hcase⟩ | ⟨-, ⟨-, hcase⟩ | ⟨hentry, hcase⟩⟩
    · exact absurd (heq.symm.trans hcase) (hnames.unnumbered name hs n)
    · have hn := numbered_inj (heq.symm.trans hcase)
      exact ⟨by omega, fun _ _ => by omega⟩
    · have hn := numbered_inj (heq.symm.trans hcase)
      exact ⟨by omega, fun _ hmem => absurd hmem hentry⟩
  | join table1 kind table2 clause name =>
    obtain ⟨-, heq⟩ := Naming.new?_join hnew
    replace heq : q.joinAlias table2 = numbered table2 n := heq.symm
    show n ≤ (q.aliases table2).length + 1 ∧ (_ → table2 ∈ q.tables → n ≤ (q.aliases table2).length)
    rcases joinAlias_cases q table2 with ⟨-, -, hcase⟩ | ⟨m, -, hcase, -, hbefore⟩
    · exact absurd (heq.symm.trans hcase) (hnames.unnumbered table2 hs n)
    · obtain rfl := numbered_inj (heq.symm.trans hcase)
      constructor
      -- the number behind that of the uses is free, so the first free one is not above it
      · by_contra hlt
        have := h.le table2 _ (hbefore ((q.aliases table2).length + 1) (by omega) (by omega))
        omega
      · intro hbare hentry
        obtain ⟨hmem, hbelow⟩ := h.bare table2 hs hbare hentry
        have hpos := List.length_pos_of_mem hmem
        by_contra hlt
        exact lt_irrefl _ (hbelow _ (hbefore (q.aliases table2).length (by omega) (by omega)))

/-- **A step that gives a name keeps what is known of the names given.** -/
theorem run (hs : s.counted ∈ names) (hnew : s.new? q = some b) : (s.run q).Gives names (given ++ [b]) := by
  have hsame := Naming.aliases_run hnew
  have hother {other : String} (hne : s.counted ≠ other) := Naming.aliases_run_of_ne hnew hne
  have hb := Naming.isNameOf hnew
  have hnumber {n : Nat} (heq : b = numbered s.counted n) := h.number_le hnames hs (n := n) (heq ▸ hnew)
  have htables {entry : String} : entry ∈ (s.run q).tables ↔ _ := Naming.mem_tables_run hnew
  constructor
  · intro name
    rw [List.mem_append, List.mem_singleton, h.mem_iff]
    constructor
    · rintro (⟨table, hname⟩ | rfl)
      · refine ⟨table, ?_⟩
        by_cases heq : s.counted = table
        · subst heq
          rw [hsame]
          exact List.mem_append_left _ hname
        · rwa [hother heq]
      · exact ⟨s.counted, by simp [hsame]⟩
    · rintro ⟨table, hname⟩
      by_cases heq : s.counted = table
      · subst heq
        rw [hsame, List.mem_append, List.mem_singleton] at hname
        exact hname.imp_left fun hname => ⟨_, hname⟩
      · rw [hother heq] at hname
        exact .inl ⟨table, hname⟩
  · intro table hunknown
    rw [hother (by rintro rfl; exact hunknown hs)]
    exact h.known table hunknown
  · intro table name hname
    by_cases heq : s.counted = table
    · subst heq
      rw [hsame, List.mem_append, List.mem_singleton] at hname
      rcases hname with hname | rfl
      · exact h.isNameOf _ _ hname
      · exact hb
    · rw [hother heq] at hname
      exact h.isNameOf _ _ hname
  · intro table n hname
    by_cases heq : s.counted = table
    · subst heq
      rw [hsame, List.mem_append, List.mem_singleton] at hname
      rw [hsame, List.length_append, List.length_singleton]
      rcases hname with hname | hname
      · have := h.le _ _ hname
        omega
      · exact (hnumber hname.symm).1
    · rw [hother heq] at hname ⊢
      exact h.le _ _ hname
  · intro table ht hbare hentry
    have hnew : table ∈ q.tables ∨ b = table := by
      refine (htables.1 hentry).imp_right ?_
      rintro ⟨-, other, -, -, heq⟩
      exact ((write_eq_bare_iff hbare).1 heq.symm).2
    by_cases heq : s.counted = table
    · subst heq
      rw [hsame, List.length_append, List.length_singleton]
      simp only [List.mem_append, List.mem_singleton]
      refine ⟨hnew.imp (fun hold => (h.bare _ ht hbare hold).1) Eq.symm, fun n hname => ?_⟩
      rcases hname with hname | hname
      · have := h.le _ _ hname
        omega
      · rcases hnew with hold | rfl
        · have := (hnumber hname.symm).2 hbare hold
          omega
        · exact absurd hname (hnames.unnumbered _ ht n)
    · rw [hother heq]
      refine h.bare table ht hbare (hnew.resolve_right fun heq' => heq ?_)
      exact hnames.table_eq hs ht hb (.inl heq')

end Told

end Gives

/-! ## What a query declares -/

/-- A join clause: its kind, the table under its alias, and its condition. -/
structure JoinPart where
  kind : String
  reference : TableReference
  condition : String

/-- The text of a join clause. -/
def JoinPart.text (part : JoinPart) : String :=
  part.kind ++ " JOIN " ++ part.reference.write ++ " ON " ++ part.condition

/-- The join clauses of a query. -/
def clauses (q : Query) : List String :=
  q.joinTables.entries.flatMap Prod.snd

/-- The entries and the join clauses of the query declare these aliases, each as often as it is listed. -/
def Declaring (names : List String) (q : Query) : Prop :=
  ∃ (uses : List TableReference) (joins : List JoinPart),
    q.tables = uses.map TableReference.write ∧ q.clauses.Perm (joins.map JoinPart.text) ∧
      (uses.map TableReference.name ++ joins.map fun part => part.reference.name).Perm names

/-- Another item in the list of a key is one more item in all lists together. -/
theorem perm_flatMap_insertIn {entries : List (String × List String)}
    (hascending : entries.Pairwise fun a b => a.1 < b.1) (key item : String) :
    ((Dictionary.insertIn key ((Dictionary.findIn key entries).getD [] ++ [item]) entries).flatMap
      Prod.snd).Perm (entries.flatMap Prod.snd ++ [item]) := by
  induction entries with
  | nil => exact .refl _
  | cons entry entries ih =>
    obtain ⟨k, items⟩ := entry
    obtain ⟨hfirst, hrest⟩ := List.pairwise_cons.1 hascending
    rw [Dictionary.insertIn, Dictionary.findIn]
    split
    · next hlt =>
      -- the key comes before all others, so it has no list yet
      have hnone : Dictionary.findIn key entries = none :=
        Dictionary.findIn_eq_none fun entry hentry => String.lt_trans hlt (hfirst entry hentry)
      have hne : k ≠ key := fun heq => String.lt_irrefl key (heq ▸ hlt)
      rw [if_neg hne, hnone]
      have hswap : ([item] ++ ((k, items) :: entries).flatMap Prod.snd).Perm _ := List.perm_append_comm
      exact hswap
    · split
      · next heq =>
        rw [if_pos heq.symm, List.flatMap_cons, List.flatMap_cons, Option.getD_some, List.append_assoc,
          List.append_assoc]
        exact List.perm_append_comm.append_left items
      · next hne =>
        rw [if_neg (Ne.symm hne), List.flatMap_cons, List.flatMap_cons, List.append_assoc]
        exact (ih hrest).append_left items

theorem perm_clauses_addClause (first clause : String) (q : Query) :
    (q.addClause first clause).clauses.Perm (q.clauses ++ [clause]) :=
  perm_flatMap_insertIn q.joinTables.ascending first clause

/-- **A step declares the name that it gives.** -/
theorem Declaring.run {names : List String} {q : Query} {s : Naming} {b : String} (h : q.Declaring names)
    (hnew : s.new? q = some b) : (s.run q).Declaring (names ++ [b]) := by
  obtain ⟨uses, joins, htables, hclauses, hdeclared⟩ := h
  cases s with
  | use name table avoidAlias =>
    cases hnew
    refine ⟨uses ++ [⟨table, q.newAlias name table avoidAlias⟩], joins, ?_, hclauses, ?_⟩
    · rw [Naming.run, tables_addTable, htables, List.map_append]
      rfl
    · rw [List.map_append, List.append_assoc]
      refine (List.perm_append_comm.append_left _).trans ?_
      rw [← List.append_assoc]
      exact hdeclared.append_right _
  | join table1 kind table2 clause name =>
    obtain ⟨hneeded, rfl⟩ := Naming.new?_join hnew
    refine ⟨uses, joins ++ [⟨kind, ⟨table2, q.joinAlias table2⟩,
      joinCondition clause (q.joinOnto table1 table2) (q.joinAlias table2)⟩], ?_, ?_, ?_⟩
    · rw [Naming.run, addJoin_of_new hneeded]
      exact htables
    · rw [Naming.run, addJoin_of_new hneeded, List.map_append]
      exact (perm_clauses_addClause _ _ _).trans (hclauses.append_right _)
    · rw [List.map_append, ← List.append_assoc]
      exact hdeclared.append_right _

/-! ## Runs -/

section Runs

variable {names start : List String} {steps : List Naming} {q : Query}

/-- **A run keeps what is known of the names given.** -/
theorem Gives.runAll (hnames : ToldApart names) (hsteps : ∀ s ∈ steps, s.counted ∈ names)
    (h : q.Gives names start) : (runAll steps q).Gives names (start ++ given steps q) := by
  induction steps generalizing q start with
  | nil =>
    rw [given, List.append_nil]
    exact h
  | cons s steps ih =>
    rw [List.forall_mem_cons] at hsteps
    show (Query.runAll steps (s.run q)).Gives names (start ++ ((s.new? q).toList ++ given steps (s.run q)))
    cases hnew : s.new? q with
    | none =>
      rw [Naming.run_of_none hnew]
      exact ih hsteps.2 h
    | some b =>
      rw [← List.append_assoc]
      exact ih hsteps.2 (h.run hnames hsteps.1 hnew)

/-- **A run declares the names that it gives.** -/
theorem Declaring.runAll (h : q.Declaring start) :
    (runAll steps q).Declaring (start ++ given steps q) := by
  induction steps generalizing q start with
  | nil =>
    rw [given, List.append_nil]
    exact h
  | cons s steps ih =>
    show (Query.runAll steps (s.run q)).Declaring (start ++ ((s.new? q).toList ++ given steps (s.run q)))
    cases hnew : s.new? q with
    | none =>
      rw [Naming.run_of_none hnew]
      exact ih h
    | some b =>
      rw [← List.append_assoc]
      exact ih (h.run hnew)

/-- A step of a run is its first one or one of those behind it. -/
theorem forall_step_cons {P : List Naming → Naming → Prop} {s : Naming} :
    (∀ front t back, s :: steps = front ++ t :: back → P front t) ↔
      P [] s ∧ ∀ front t back, steps = front ++ t :: back → P (s :: front) t := by
  constructor
  · intro h
    exact ⟨h [] s steps rfl, fun front t back heq => h (s :: front) t back (heq ▸ rfl)⟩
  · rintro ⟨hfirst, hrest⟩ front t back heq
    cases front with
    | nil =>
      cases heq
      exact hfirst
    | cons first front =>
      obtain ⟨rfl, hback⟩ := List.cons.inj heq
      exact hrest front t back hback

/-- Behind names that differ, the names of a run differ exactly if no step gives one again. -/
theorem Gives.nodup_given_iff (hnames : ToldApart names) (hsteps : ∀ s ∈ steps, s.counted ∈ names)
    (h : q.Gives names start) (hstart : start.Nodup) :
    (start ++ given steps q).Nodup ↔
      ∀ front s back, steps = front ++ s :: back → ¬ s.Repeats (Query.runAll front q) := by
  induction steps generalizing q start with
  | nil =>
    rw [given, List.append_nil]
    exact iff_of_true hstart fun front s back heq => by simp at heq
  | cons s steps ih =>
    rw [List.forall_mem_cons] at hsteps
    rw [forall_step_cons (P := fun front s => ¬ s.Repeats (Query.runAll front q))]
    show (start ++ ((s.new? q).toList ++ given steps (s.run q))).Nodup ↔ ¬ s.Repeats q ∧ _
    cases hnew : s.new? q with
    | none =>
      have hfresh : ¬ s.Repeats q := by
        cases s with
        | use name table avoidAlias => cases hnew
        | join table1 kind table2 clause name => exact not_false
      rw [and_iff_right hfresh, Naming.run_of_none hnew]
      refine (ih hsteps.2 h hstart).trans ?_
      simp only [Query.runAll, List.foldl_cons, Naming.run_of_none hnew]
    | some b =>
      have hagain := h.given_again_iff hnames hsteps.1 hnew
      rw [← List.append_assoc]
      by_cases hb : b ∈ start
      · refine iff_of_false (fun hnodup => ?_) fun hfresh => hfresh.1 (hagain.1 hb)
        exact (List.nodup_append.1 (List.nodup_append.1 hnodup).1).2.2 b hb b (by simp) rfl
      · rw [and_iff_right (mt hagain.2 hb)]
        refine ih hsteps.2 (h.run hnames hsteps.1 hnew) ?_
        rw [Option.toList_some, ← List.concat_eq_append]
        exact hstart.concat hb

end Runs

/-- **The names given in turn.** In a run of uses and joins from an empty query each name that a step gives
is new exactly if the step does not repeat one. The entries and join clauses of the query declare the names
as often as they were given, so no alias is declared twice exactly if no step repeats one. Only a use under
its bare name can do so, as long as no name is written like an entry. -/
theorem names_given {names : List String} (hnames : ToldApart names) {steps : List Naming}
    (hsteps : ∀ s ∈ steps, s.counted ∈ names) (dialect : Dialect) (mainTable mainClass : String) :
    (∀ front s back, steps = front ++ s :: back →
      ∀ b ∈ s.new? (runAll front (new dialect mainTable mainClass)),
        (b ∈ given front (new dialect mainTable mainClass) ↔
          s.Repeats (runAll front (new dialect mainTable mainClass)))) ∧
    (runAll steps (new dialect mainTable mainClass)).Declaring
      (given steps (new dialect mainTable mainClass)) ∧
    ((given steps (new dialect mainTable mainClass)).Nodup ↔
      ∀ front s back, steps = front ++ s :: back →
        ¬ s.Repeats (runAll front (new dialect mainTable mainClass))) ∧
    ((∀ name ∈ names, IsBare name) → ∀ name ∈ names, ∀ table avoidAlias,
      ¬ (runAll steps (new dialect mainTable mainClass)).Miscounted name table avoidAlias) := by
  have hempty := Gives.new names dialect mainTable mainClass
  have hdeclares : (new dialect mainTable mainClass).Declaring [] := ⟨[], [], rfl, .refl _, .refl _⟩
  refine ⟨?_, hdeclares.runAll, hempty.nodup_given_iff hnames hsteps List.nodup_nil, ?_⟩
  · rintro front s back rfl b hnew
    rw [List.forall_mem_append, List.forall_mem_cons] at hsteps
    exact (hempty.runAll hnames hsteps.1).given_again_iff hnames hsteps.2.1 hnew
  · intro hbare name hname table avoidAlias
    exact (hempty.runAll hnames hsteps).not_miscounted hname (hbare name hname) avoidAlias

/-! ## Links between objects -/

/-- Two uses of the objects with their tags, and two uses of the links under another name. -/
def linked : List Naming :=
  [.use "objects" "objects" false, .join "objects" "INNER" "tags" "TABLE1.id = TABLE2.node_id" none,
    .use "lk" "links" true, .use "objects" "objects" true,
    .join "objects" "INNER" "tags" "TABLE1.id = TABLE2.node_id" none, .use "lk" "links" false]

theorem toldApart_linked : ToldApart ["objects", "tags", "lk"] where
  long := by decide
  apart := by decide
  unnumbered := by
    rw [List.forall_mem_cons, List.forall_mem_cons, List.forall_mem_singleton]
    exact ⟨numbered_ne fun _ => ⟨'j', by decide, rfl⟩, numbered_ne fun _ => ⟨'g', by decide, rfl⟩,
      numbered_ne fun h => absurd rfl h⟩

/-- Joins and uses that do not ask for a bare name again all get names of their own. -/
theorem linked_names_differ :
    ToldApart ["objects", "tags", "lk"] ∧ (∀ s ∈ linked, s.counted ∈ ["objects", "tags", "lk"]) ∧
      given linked (new .generic "objects" "Node") = ["ob1", "tags", "lk", "objects", "ta1", "lk2"] ∧
      (runAll linked (new .generic "objects" "Node")).Declaring
        (given linked (new .generic "objects" "Node")) ∧
      ∀ front s back, linked = front ++ s :: back →
        ¬ s.Repeats (runAll front (new .generic "objects" "Node")) := by
  have hsteps : ∀ s ∈ linked, s.counted ∈ ["objects", "tags", "lk"] := by decide
  obtain ⟨-, hdeclares, hnodup, -⟩ := names_given toldApart_linked hsteps .generic "objects" "Node"
  exact ⟨toldApart_linked, hsteps, by decide +kernel, hdeclares, hnodup.1 (by decide +kernel)⟩

/-- Two uses of the links, both under the bare name `lk`. -/
def linkedTwice : List Naming :=
  [.use "objects" "objects" false, .use "lk" "links" true, .use "objects" "objects" true,
    .use "lk" "links" true]

/-- **A use under another name than that of its table is given its bare name again**, since no entry is ever
written `links`. The query declares the alias `lk` twice. -/
theorem renamed_use_given_again :
    ToldApart ["objects", "tags", "lk"] ∧ (∀ s ∈ linkedTwice, s.counted ∈ ["objects", "tags", "lk"]) ∧
      given linkedTwice (new .generic "objects" "Node") = ["ob1", "lk", "objects", "lk"] ∧
      ¬ (given linkedTwice (new .generic "objects" "Node")).Nodup ∧
      (runAll linkedTwice (new .generic "objects" "Node")).tables =
        ["objects AS ob1", "links AS lk", "objects", "links AS lk"] :=
  ⟨toldApart_linked, by decide, by decide +kernel, by decide +kernel, by decide +kernel⟩

/-- A use asks for the bare name that a join has. -/
example :
    given [.use "objects" "objects" true, .join "objects" "INNER" "tags" "TABLE1.id = TABLE2.node_id" none,
      .use "tags" "tags" true] (new .generic "objects" "Node") = ["objects", "tags", "tags"] := by
  decide +kernel

end RelationSql.Query
