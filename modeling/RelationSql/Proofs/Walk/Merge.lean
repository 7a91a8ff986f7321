import Mathlib.Data.List.Forall2
import Mathlib.Tactic.Common
import RelationSql.Catalog
import RelationSql.Proofs.Walk.Yields

/-!
# Merged alternatives

The branches of an alternative are walked one after the other, but each from the state before the
alternative (`branches_eq_ok`): the query is set back in front of a branch, the context and the active
domain behind it. So the query of a branch does not depend on the other branches, and the merge
(`merge_of_run`) is a function of the queries that the branches have alone.
-/

namespace RelationSql

open RelationSql.Part WalkM

/-! ## The branches of an alternative -/

namespace Tree

mutual

/-- The branches of a child of an alternative: nested alternatives are taken apart. -/
def orBranches : Tree → List Tree
  | .node .clauseOr children => orBranchesOf children
  | tree => [tree]

/-- The branches of the children of an alternative, in the order of the source. -/
def orBranchesOf : List Tree → List Tree
  | [] => []
  | tree :: trees => orBranches tree ++ orBranchesOf trees

end

end Tree

mutual

/-- The branches of a part are the parts of the branches of its tree. -/
theorem branchesOf_ofTree (node : Tag → List Part → WalkM String) :
    ∀ tree : Tree, Alternative.branchesOf (ofTree node tree) = tree.orBranches.map (ofTree node)
  | .atom _ => rfl
  | .node tag children => by
    by_cases htag : tag = .clauseOr
    · subst htag
      exact branchesOfAll_ofTrees node children
    · have hpart : Alternative.branchesOf (ofTree node (.node tag children)) =
          [ofTree node (.node tag children)] := by
        rw [ofTree, Alternative.branchesOf]
        rintro _ _ _ ⟨⟩
        exact htag rfl
      have htree : (Tree.node tag children).orBranches = [.node tag children] := by
        rw [Tree.orBranches]
        rintro _ ⟨⟩
        exact htag rfl
      rw [hpart, htree]
      rfl

/-- The branches of parts are the parts of the branches of their trees. -/
theorem branchesOfAll_ofTrees (node : Tag → List Part → WalkM String) :
    ∀ trees : List Tree,
      Alternative.branchesOfAll (ofTrees node trees) =
        (Tree.orBranchesOf trees).map (ofTree node)
  | [] => rfl
  | tree :: trees => by
    rw [ofTrees, Alternative.branchesOfAll, branchesOf_ofTree node tree,
      branchesOfAll_ofTrees node trees, Tree.orBranchesOf, List.map_append]

end

/-! ## Walking the branches -/

/-- The steps succeed on their own and leave a state with this query. -/
def Leaves (steps : WalkM String) (w : Walk) (q : Query) : Prop :=
  ∃ text left, steps.runFrom w = (.ok text, left) ∧ left.query = q

/-- Steps whose context and domain are brought back keep nothing but the query. -/
theorem runFrom_restoring (steps : WalkM String) (w : Walk) :
    (restoringDomain (within id steps)).runFrom w =
      ((steps.runFrom w).1, { w with query := (steps.runFrom w).2.query }) :=
  rfl

/-- A branch is walked from the query before the alternative; nothing but its query is kept. -/
theorem branch_eq_ok {base q : Query} {part : Part} {w left : Walk}
    (h : (Alternative.branch base part).runFrom w = (.ok q, left)) :
    Leaves part.render { w with query := base } q ∧ left = { w with query := q } := by
  have hbase : (modifyQuery fun _ => base).runFrom w = (.ok (), { w with query := base }) := rfl
  rw [Alternative.branch, runFrom_bind_of_ok hbase] at h
  obtain ⟨text, after, hpart, hquery⟩ := runFrom_bind_eq_ok h
  rw [runFrom_restoring, Prod.mk.injEq] at hpart
  obtain ⟨hok, rfl⟩ := hpart
  cases hquery
  exact ⟨⟨text, _, Prod.ext hok rfl, rfl⟩, rfl⟩

/-- **Each branch is walked from the state before the alternative**, whatever the branches before it
did. -/
theorem branches_eq_ok {base : Query} {parts : List Part} :
    ∀ {w left : Walk} {queries : List Query},
      (Alternative.branches base parts).runFrom w = (.ok queries, left) →
        List.Forall₂ (fun part q => Leaves part.render { w with query := base } q) parts queries ∧
          ∃ q, left = { w with query := q } := by
  induction parts with
  | nil =>
    intro w left queries h
    cases h
    exact ⟨.nil, w.query, rfl⟩
  | cons part parts ih =>
    intro w left queries h
    obtain ⟨q, middle, hbranch, hrest⟩ := runFrom_bind_eq_ok h
    obtain ⟨more, last, hmore, hlast⟩ := runFrom_bind_eq_ok hrest
    cases hlast
    obtain ⟨hleaves, rfl⟩ := branch_eq_ok hbranch
    obtain ⟨hall, hquery⟩ := ih hmore
    exact ⟨.cons hleaves hall, hquery⟩

/-- The active profile is that of the active domain. -/
theorem activeProfile_eq_ok {host : Host} {profile : Profile} {w left : Walk}
    (h : host.activeProfile.runFrom w = (.ok profile, left)) :
    host.profile? w.domain = some profile ∧ left = w := by
  obtain ⟨read, middle, hread, hrest⟩ := runFrom_bind_eq_ok h
  cases hread
  dsimp only at hrest
  split at hrest
  · next hprofile =>
    cases hrest
    exact ⟨hprofile, rfl⟩
  · cases hrest

/-- An alternative merges the queries that its branches leave, each walked from the state before it, with
the domain that is active there. Nothing but the query changes. -/
theorem clause_eq_ok {host : Host} {parts : List Part} {w left : Walk}
    (h : (Alternative.clause host parts).runFrom w = (.ok (), left)) :
    ∃ queries profile merged,
      List.Forall₂ (fun part q => Leaves part.render w q) (Alternative.branchesOfAll parts) queries ∧
      host.profile? w.domain = some profile ∧
      Query.mergeBranches profile w.query queries = .ok merged ∧
      left = { w with query := merged } := by
  obtain ⟨base, middle, hbase, hrest⟩ := runFrom_bind_eq_ok h
  cases hbase
  obtain ⟨queries, after, hqueries, hmerge⟩ := runFrom_bind_eq_ok hrest
  obtain ⟨hall, q, rfl⟩ := branches_eq_ok hqueries
  have hreset : (modifyQuery fun _ => w.query).runFrom { w with query := q } = (.ok (), w) := rfl
  rw [runFrom_bind_of_ok hreset] at hmerge
  obtain ⟨profile, known, hprofile, hmerge⟩ := runFrom_bind_eq_ok hmerge
  obtain ⟨hprofile, rfl⟩ := activeProfile_eq_ok hprofile
  split at hmerge
  · next merged hmerged =>
    cases hmerge
    exact ⟨queries, profile, merged, hall, hprofile, hmerged, rfl⟩
  · cases hmerge

/-! ## Merging the queries -/

/-- Adding what is missing appends the first occurrences of the items that are not known yet. -/
theorem addMissing_eq (items : List String) : ∀ known : List String,
    addMissing known items = known ++ (items.filter fun item => !known.contains item).eraseDups := by
  induction items with
  | nil =>
    intro known
    simp [addMissing]
  | cons item items ih =>
    intro known
    by_cases hknown : known.contains item
    · rw [addMissing, if_pos hknown, ih, List.filter_cons_of_neg (by simpa using hknown)]
    · rw [addMissing, if_neg hknown, ih, List.filter_cons_of_pos (by simpa using hknown),
        List.eraseDups_cons, List.append_assoc, List.singleton_append, List.filter_filter]
      congr 3
      apply List.filter_congr
      intro other _
      simp [Bool.and_comm, beq_eq_decide]

theorem mem_addMissing_iff {known items : List String} {item : String} :
    item ∈ addMissing known items ↔ item ∈ known ∨ item ∈ items := by
  rw [addMissing_eq, List.mem_append, List.mem_eraseDups, List.mem_filter]
  simp only [Bool.not_eq_true', List.contains_eq_mem, decide_eq_false_iff_not]
  tauto

/-- **The tables of a merge are those of the branches, each once, in the order of their first
occurrence.** -/
theorem unionTables_eq (queries : List Query) :
    Query.unionTables queries = (queries.flatMap Query.tables).eraseDups := by
  rw [Query.unionTables, addMissing_eq]
  simp

/-- Does the domain mend a query by adding conditions, and in no other way? -/
def Profile.OnlyAddsFilters (profile : Profile) : Prop :=
  ∀ name table q mended, profile.missingTable name table q = .ok mended →
    ∃ filters, mended = { q with filters := q.filters ++ filters }

/-- Mends a branch: one call for each of the tables that it lacks, in their order. -/
def Query.mendLacking (profile : Profile) (tables : List String) (q : Query) :
    Except CompileError Query :=
  (tables.filter fun table => !q.tables.contains table).foldlM
    (fun q table =>
      let reference := Fragment.TableReference.split table
      profile.missingTable reference.name reference.table q) q

/-- If mending only adds conditions, it does not change what is still lacking. -/
theorem mend_eq_mendLacking {profile : Profile} (h : profile.OnlyAddsFilters)
    (tables : List String) (q : Query) :
    Query.mend profile tables q = Query.mendLacking profile tables q := by
  induction tables generalizing q with
  | nil => rfl
  | cons table tables ih =>
    by_cases hknown : q.tables.contains table
    · rw [Query.mend, if_pos hknown, ih, Query.mendLacking, Query.mendLacking,
        List.filter_cons_of_neg (by simpa using hknown)]
    · rw [Query.mend, if_neg hknown, Query.mendLacking,
        List.filter_cons_of_pos (by simpa using hknown), List.foldlM_cons]
      dsimp only
      cases hmend : profile.missingTable (Fragment.TableReference.split table).name
          (Fragment.TableReference.split table).table q with
      | error fault => rfl
      | ok mended =>
        obtain ⟨filters, rfl⟩ := h _ _ _ _ hmend
        exact ih _

/-- All branches are mended, each on its own. -/
theorem forall₂_of_mendAll {profile : Profile} {tables : List String} {queries : List Query} :
    ∀ {mended : List Query}, Query.mendAll profile tables queries = .ok mended →
      List.Forall₂ (fun q m => Query.mend profile tables q = .ok m) queries mended := by
  induction queries with
  | nil =>
    intro mended h
    cases h
    exact .nil
  | cons q queries ih =>
    intro mended h
    rw [Query.mendAll] at h
    split at h
    · cases h
    · next m hm =>
      split at h
      · cases h
      · next more hmore =>
        cases h
        exact .cons hm (ih hmore)

/-- A merge that succeeds mends all branches for the tables of their union. -/
theorem mergeBranches_eq_ok {profile : Profile} {base merged : Query} {queries : List Query}
    (h : Query.mergeBranches profile base queries = .ok merged) :
    ∃ mended, Query.mendAll profile (Query.unionTables queries) queries = .ok mended ∧
      merged = Query.mergeMended base (Query.unionTables queries) mended := by
  rw [Query.mergeBranches] at h
  cases hmended : Query.mendAll profile (Query.unionTables queries) queries with
  | error fault =>
    rw [hmended] at h
    cases h
  | ok mended =>
    rw [hmended] at h
    cases h
    exact ⟨mended, rfl, rfl⟩

/-- The condition of a merge: the conditions of the mended branches, each in parentheses. -/
def Query.orOf (mended : List Query) : String :=
  let condition (q : Query) :=
    if q.filters = [] then "1 = 1" else Text.joinWith " AND " q.filters.reverse
  "((" ++ Text.joinWith ") OR (" (mended.map condition) ++ "))"

/-- What a merge must be: the tables of the branches, the condition of the mended branches, and all
else that belongs to the walk as it was before. -/
structure IsMerged (before : Walk) (queries mended : List Query) (after : Walk) : Prop where
  tables : after.query.tables = (queries.flatMap Query.tables).eraseDups
  filters : after.query.filters = [Query.orOf mended]
  distinct : after.query.distinct = true
  mainTable : after.query.mainTable = before.query.mainTable
  mainClass : after.query.mainClass = before.query.mainClass
  domain : after.domain = before.domain
  context : after.context = before.context

/-- The condition of a merge is the alternative of the conditions of its branches. -/
theorem alternative_eq_orOf (mended : List Query) :
    Query.alternative (mended.map Query.branchCondition) = Query.orOf mended := by
  have hcondition : Query.branchCondition = fun q : Query =>
      if q.filters = [] then "1 = 1" else Text.joinWith " AND " q.filters.reverse := by
    funext q
    simp only [Query.branchCondition, Query.joinedFilters, List.isEmpty_iff]
  rw [Query.alternative, Query.orOf, hcondition]

/-- Merged branches, if there is one. -/
theorem isMerged_mergeMended {w : Walk} {queries mended : List Query} (hne : mended ≠ []) :
    IsMerged w queries mended
      { w with query := Query.mergeMended w.query (Query.unionTables queries) mended } := by
  cases mended with
  | nil => exact absurd rfl hne
  | cons q more =>
    exact {
      tables := unionTables_eq queries
      filters := congrArg (fun filter => [filter]) (alternative_eq_orOf (q :: more))
      distinct := rfl
      mainTable := rfl
      mainClass := rfl
      domain := rfl
      context := rfl }

/-- **An alternative of clauses is the merge of its branches.** Each branch has the query that it has
when it alone is walked from the state before the alternative. An alternative without branches changes
nothing. -/
theorem alternative_merges {host : Host} {atEnd : WalkM Unit} {trees : List Tree} {w left : Walk}
    {text : String} (hmends : ∀ profile, host.profile? w.domain = some profile → profile.OnlyAddsFilters)
    (hrun : (renderWith host atEnd (.node .clauseOr trees)).runFrom w = (.ok text, left)) :
    (Tree.orBranchesOf trees = [] → left = w) ∧
      (Tree.orBranchesOf trees ≠ [] →
        ∃ queries mended profile, host.profile? w.domain = some profile ∧
          List.Forall₂ (fun tree q => Leaves (renderWith host atEnd tree) w q)
            (Tree.orBranchesOf trees) queries ∧
          List.Forall₂ (fun q m => Query.mendLacking profile
            (queries.flatMap Query.tables).eraseDups q = .ok m) queries mended ∧
          IsMerged w queries mended left) := by
  have hclause : (Alternative.clause host (ofTrees (renderNode host atEnd) trees)).runFrom w =
      (.ok (), left) := by
    obtain ⟨done, after, hsteps, hsilent⟩ := runFrom_bind_eq_ok hrun
    cases hsilent
    exact hsteps
  obtain ⟨queries, profile, merged, hall, hprofile, hmerged, rfl⟩ := clause_eq_ok hclause
  rw [branchesOfAll_ofTrees, List.forall₂_map_left_iff] at hall
  obtain ⟨mended, hmended, rfl⟩ := mergeBranches_eq_ok hmerged
  have hmend := forall₂_of_mendAll hmended
  simp only [mend_eq_mendLacking (hmends profile hprofile)] at hmend
  constructor
  · intro hnone
    rw [hnone] at hall
    cases hall
    cases hmend
    rfl
  · intro hsome
    have hne : mended ≠ [] := by
      rintro rfl
      cases hmend
      exact hsome (List.forall₂_nil_right_iff.1 hall)
    refine ⟨queries, mended, profile, hprofile, hall, ?_, isMerged_mergeMended hne⟩
    rw [← unionTables_eq]
    exact hmend

/-! ## A domain that mends its branches -/

/-- A domain of books. The lent ones are those with a loan; a book without one has no loan to be joined
with, so a branch without loans is mended by a condition on the missing table. -/
def books : Domain where
  profile :=
    { name := "books", mainTable := "books", mainClass := "Book"
      missingTable := fun name _ q => .ok (q.addFilter (name ++ ".id IS NULL")) }
  relation := fun host kind name =>
    if kind ≠ .filter then return false
    else do
      host.addTable "books"
      if name = "lent" then
        modifyQuery (Query.addTable "loans" "loans" true)
        addFilter "loans.book_id = books.id"
      else addFilter "books.year < 1900"
      return true

/-- The compile of a source over books, as it is seen by the walk. -/
def bookHost : Host :=
  (Catalog.addDomain books {}).host {} Catalog.maxDepth

/-- The walk before a source over books is looked at. -/
def atBooks : Walk :=
  (Catalog.addDomain books {}).start {} books

theorem books_onlyAddsFilters (profile : Profile)
    (h : bookHost.profile? atBooks.domain = some profile) : profile.OnlyAddsFilters := by
  cases h
  rintro name table q mended ⟨⟩
  exact ⟨[name ++ ".id IS NULL"], rfl⟩

/-- The state behind `(old) or (lent)`. -/
def afterOldOrLent : Walk :=
  ((renderWith bookHost (pure ())
    (.node .clauseOr [.leaf .relation "old", .leaf .relation "lent"])).runFrom atBooks).2

/-- Two branches are merged, and the one without a loan is mended. -/
theorem old_or_lent_merged :
    (∃ queries mended profile, bookHost.profile? atBooks.domain = some profile ∧
      List.Forall₂ (fun tree q => Leaves (renderWith bookHost (pure ()) tree) atBooks q)
        [.leaf .relation "old", .leaf .relation "lent"] queries ∧
      List.Forall₂ (fun q m => Query.mendLacking profile
        (queries.flatMap Query.tables).eraseDups q = .ok m) queries mended ∧
      IsMerged atBooks queries mended afterOldOrLent) ∧
    afterOldOrLent.query.tables = ["books", "loans"] ∧
    afterOldOrLent.query.filters =
      ["((loans.id IS NULL AND books.year < 1900) OR (loans.book_id = books.id))"] := by
  have hrun : (renderWith bookHost (pure ())
      (.node .clauseOr [.leaf .relation "old", .leaf .relation "lent"])).runFrom atBooks =
        (.ok "", afterOldOrLent) := rfl
  refine ⟨(alternative_merges books_onlyAddsFilters hrun).2 (List.cons_ne_nil _ _), ?_, ?_⟩
  · rfl
  · rfl

/-- **An alternative without branches is no merge.** It succeeds and changes nothing, so there is no
condition and duplicates are kept. -/
theorem no_branches_not_merged :
    (renderWith bookHost (pure ()) (.node .clauseOr [])).runFrom atBooks = (.ok "", atBooks) ∧
      atBooks.query.filters = [] ∧ atBooks.query.distinct = false ∧
      ¬ ∃ queries mended, IsMerged atBooks queries mended atBooks := by
  refine ⟨rfl, rfl, rfl, ?_⟩
  rintro ⟨queries, mended, hmerged⟩
  have hdistinct : false = true := hmerged.distinct
  cases hdistinct

end RelationSql
