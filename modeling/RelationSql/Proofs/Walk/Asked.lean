import RelationSql.Proofs.Query.Caches

/-!
# What a domain is asked when branches are merged

A merged statement ranges over the tables of all branches. For a branch, the domain is asked about each
entry of the others that the branch lacks (`mend_eq_foldlM`), so no entry is added to a branch without
the domain's knowing (`known_of_mem`).

Join clauses are merged as well, and the domain is not asked about those. A branch has all joins that any
branch attaches to one of its own entries, whether it made them or not. This is the one way in which an
alternative narrows a branch behind the domain's back (`alternative_asks`, `joined_branch_narrows`).
-/

namespace RelationSql

open Fragment (TableReference declaredName)

namespace Query

/-! ## Questions -/

/-- The domain's answer about an entry that a branch lacks. -/
def ask (profile : Profile) (q : Query) (reference : String) : Except CompileError Query :=
  let missing := TableReference.split reference
  profile.missingTable missing.name missing.table q

/-- The entries that the domain is asked about when a branch is mended: those which the branch lacks at
their turn. A refusal ends the questions. -/
def asked (profile : Profile) : List String → Query → List String
  | [], _ => []
  | reference :: references, q =>
    if q.tables.contains reference then asked profile references q
    else
      match ask profile q reference with
      | .ok answered => reference :: asked profile references answered
      | .error _ => [reference]

/-- The domain knows that the branch is to have the entry: it was asked about it, or it had added it to
the branch itself when it was asked about another one. -/
def Known (profile : Profile) (references : List String) (q : Query) (reference : String) : Prop :=
  reference ∈ asked profile references q ∨
    reference ∉ q.tables ∧ ∃ earlier answered, earlier <+: asked profile references q ∧
      earlier.foldlM (ask profile) q = .ok answered ∧ reference ∈ answered.tables

variable {profile : Profile} {references : List String} {q mended : Query} {reference join : String}

theorem mend_cons (profile : Profile) (reference : String) (references : List String) (q : Query) :
    mend profile (reference :: references) q =
      if q.tables.contains reference then mend profile references q
      else ask profile q reference >>= mend profile references := by
  rw [mend]
  refine ite_congr rfl (fun _ => rfl) fun _ => ?_
  show (match ask profile q reference with
    | .ok answered => mend profile references answered
    | .error fault => .error fault) = _
  cases ask profile q reference <;> rfl

/-- **A branch is mended by the domain's answers**, one after the other, and by nothing else. -/
theorem mend_eq_foldlM (profile : Profile) (references : List String) (q : Query) :
    mend profile references q = (asked profile references q).foldlM (ask profile) q := by
  induction references generalizing q with
  | nil => rfl
  | cons reference references ih =>
    rw [mend_cons, asked]
    split
    · exact ih q
    · cases hask : ask profile q reference with
      | error fault => simp [hask, bind, Except.bind]
      | ok answered => simp [hask, ih, bind, Except.bind]

/-- What is done about one entry when a branch is mended: nothing, or the domain is asked about it. -/
theorem mend_cons_cases (h : mend profile (reference :: references) q = .ok mended) :
    reference ∈ q.tables ∧ mend profile references q = .ok mended ∧
        asked profile (reference :: references) q = asked profile references q ∨
      reference ∉ q.tables ∧ ∃ answered, ask profile q reference = .ok answered ∧
        mend profile references answered = .ok mended ∧
        asked profile (reference :: references) q = reference :: asked profile references answered := by
  rw [mend_cons] at h
  by_cases hcontains : q.tables.contains reference = true
  · rw [if_pos hcontains] at h
    exact .inl ⟨List.contains_iff_mem.1 hcontains, h, by rw [asked, if_pos hcontains]⟩
  · rw [if_neg hcontains] at h
    obtain ⟨answered, hask, h⟩ : ∃ answered, ask profile q reference = .ok answered ∧
        mend profile references answered = .ok mended := by
      cases hask : ask profile q reference with
      | error fault =>
        rw [hask] at h
        cases h
      | ok answered =>
        rw [hask] at h
        exact ⟨answered, rfl, h⟩
    exact .inr ⟨fun hmem => hcontains (List.contains_iff_mem.2 hmem), answered, hask, h,
      by rw [asked, if_neg hcontains, hask]⟩

/-- **Each entry of the merge is one of the branch, or the domain knows of it.** -/
theorem known_of_mem (hmend : mend profile references q = .ok mended) (hmem : reference ∈ references) :
    reference ∈ q.tables ∨ q.Known profile references reference := by
  suffices hfound : reference ∈ asked profile references q ∨
      ∃ earlier answered, earlier <+: asked profile references q ∧
        earlier.foldlM (ask profile) q = .ok answered ∧ reference ∈ answered.tables by
    by_cases hown : reference ∈ q.tables
    · exact .inl hown
    · exact .inr (hfound.imp_right fun hadded => ⟨hown, hadded⟩)
  induction references generalizing q with
  | nil => cases hmem
  | cons first references ih =>
    rcases mend_cons_cases hmend with ⟨htable, hrest, hasked⟩ | ⟨-, answered, hask, hrest, hasked⟩
    · rw [hasked]
      rcases List.mem_cons.1 hmem with rfl | hmem
      · exact .inr ⟨[], q, List.nil_prefix, rfl, htable⟩
      · exact ih hrest hmem
    · rw [hasked]
      rcases List.mem_cons.1 hmem with rfl | hmem
      · exact .inl List.mem_cons_self
      · -- what answers add after this one, they add after this one and those before it
        refine (ih hrest hmem).imp (List.mem_cons_of_mem first) ?_
        rintro ⟨earlier, later, hearlier, hlater, htable⟩
        refine ⟨first :: earlier, later, List.cons_prefix_cons.2 ⟨rfl, hearlier⟩, ?_, htable⟩
        rw [List.foldlM_cons, hask]
        exact hlater

/-- Where answers only add conditions, the domain is asked about each entry that the branch lacks. -/
theorem asked_eq_filter (hprofile : profile.OnlyAddsFilters)
    (hmend : mend profile references q = .ok mended) :
    asked profile references q = references.filter fun reference => !q.tables.contains reference := by
  induction references generalizing q with
  | nil => rfl
  | cons first references ih =>
    rcases mend_cons_cases hmend with ⟨htable, hrest, hasked⟩ | ⟨hlacks, answered, hask, hrest, hasked⟩
    · rw [hasked, List.filter_cons_of_neg (by simpa using htable)]
      exact ih hrest
    · obtain ⟨filters, rfl⟩ := hprofile _ _ _ _ hask
      rw [hasked, List.filter_cons_of_pos (by simpa using hlacks)]
      exact congrArg (first :: ·) (ih hrest)

/-! ## Joins of a merge -/

/-- The join clauses that the statement has behind an entry. -/
def joinsOf (q : Query) (reference : String) : List String :=
  q.joinTables.findD (declaredName reference) []

/-- The statement ranges over the join. -/
def Ranges (q : Query) (reference join : String) : Prop :=
  reference ∈ q.tables ∧ join ∈ q.joinsOf reference

/-- A branch may have the join: it has made it itself, or the domain knows of the entry that it is attached
to, or of the one that it joins. -/
def Admits (profile : Profile) (references : List String) (q : Query) (reference join : String) : Prop :=
  q.Ranges reference join ∨ q.Known profile references reference ∨
    ∃ joined, JoinsTo join joined ∧ q.Known profile references joined

/-- The clauses of absorbed queries are all there. -/
theorem mem_joinsOf_foldl {queries : List Query} :
    join ∈ (queries.foldl absorb q).joinsOf reference ↔ ∃ b ∈ q :: queries, join ∈ b.joinsOf reference := by
  induction queries generalizing q with
  | nil => simp
  | cons other queries ih =>
    rw [List.foldl_cons, ih, List.exists_mem_cons_iff, List.exists_mem_cons_iff, List.exists_mem_cons_iff,
      ← or_assoc]
    exact or_congr_left mem_joins_absorb

/-- **A merge ranges over all joins that its branches attach to its entries.** -/
theorem ranges_mergeMended {base : Query} {queries : List Query} (hne : queries ≠ []) :
    (mergeMended base references queries).Ranges reference join ↔
      reference ∈ references ∧ ∃ m ∈ queries, join ∈ m.joinsOf reference := by
  cases queries with
  | nil => exact absurd rfl hne
  | cons q more => exact and_congr_right' mem_joinsOf_foldl

/-- **A branch admits all joins if it admits those at its own entries.** The domain knows of all other
entries. -/
theorem admits_iff {merged : Query} {queries : List Query}
    (hranges : ∀ reference join, merged.Ranges reference join ↔
      reference ∈ references ∧ ∃ m ∈ queries, join ∈ m.joinsOf reference)
    (hmend : mend profile references q = .ok mended) (hown : q.tables ⊆ references) :
    (∀ reference join, merged.Ranges reference join → q.Admits profile references reference join) ↔
      ∀ reference ∈ q.tables, ∀ m ∈ queries, ∀ join ∈ m.joinsOf reference,
        q.Admits profile references reference join := by
  constructor
  · intro h reference hreference m hm join hjoin
    exact h reference join ((hranges reference join).2 ⟨hown hreference, m, hm, hjoin⟩)
  · intro h reference join hjoin
    obtain ⟨hreference, m, hm, hjoin⟩ := (hranges reference join).1 hjoin
    rcases known_of_mem hmend hreference with htable | hknown
    · exact h reference htable m hm join hjoin
    · exact .inr (.inl hknown)

end Query

/-! ## Alternatives -/

open Query WalkM RelationSql.Part

/-- **The domain knows of every entry that an alternative adds to a branch, but not of every join.** In
each branch it is asked about the entries of the merge, and the branch is mended by its answers and by
nothing else. So each entry is the branch's own, or the domain was asked about it or added it by an answer.
If its answers only add conditions, it is asked about exactly those entries that the branch lacks. All
joins of the merge are the branch's own or known to the domain if and only if this is so for the joins that
other branches attach to entries of the branch itself. -/
theorem alternative_asks {host : Host} {atEnd : WalkM Unit} {trees : List Tree} {w left : Walk}
    {text : String} (hrun : (renderWith host atEnd (.node .clauseOr trees)).runFrom w = (.ok text, left)) :
    ∃ queries mended profile, host.profile? w.domain = some profile ∧
      List.Forall₂ (fun tree q => Leaves (renderWith host atEnd tree) w q)
        (Tree.orBranchesOf trees) queries ∧
      List.Forall₂ (fun q m => (asked profile left.query.tables q).foldlM (ask profile) q = .ok m)
        queries mended ∧
      ∀ q ∈ queries,
        (∀ reference ∈ left.query.tables,
          reference ∈ q.tables ∨ q.Known profile left.query.tables reference) ∧
        (profile.OnlyAddsFilters → asked profile left.query.tables q =
          left.query.tables.filter fun reference => !q.tables.contains reference) ∧
        ((∀ reference join, left.query.Ranges reference join →
            q.Admits profile left.query.tables reference join) ↔
          ∀ reference ∈ q.tables, ∀ m ∈ mended, ∀ join ∈ m.joinsOf reference,
            q.Admits profile left.query.tables reference join) := by
  have hclause : (Alternative.clause host (ofTrees (renderNode host atEnd) trees)).runFrom w =
      (.ok (), left) := by
    obtain ⟨done, after, hsteps, hsilent⟩ := runFrom_bind_eq_ok hrun
    cases hsilent
    exact hsteps
  obtain ⟨queries, profile, merged, hall, hprofile, hmerged, rfl⟩ := clause_eq_ok hclause
  rw [branchesOfAll_ofTrees, List.forall₂_map_left_iff] at hall
  obtain ⟨mended, hmended, rfl⟩ := mergeBranches_eq_ok hmerged
  have hmend := forall₂_of_mendAll hmended
  have htables : mended ≠ [] →
      (mergeMended w.query (unionTables queries) mended).tables = unionTables queries := by
    intro hne
    cases mended with
    | nil => exact absurd rfl hne
    | cons m more => rfl
  refine ⟨queries, mended, profile, hprofile, hall, ?_, fun q hq => ?_⟩
  · have hanswers := hmend.imp fun q m hm => (mend_eq_foldlM profile _ q).symm.trans hm
    cases mended with
    | nil =>
      -- without a branch the query is that of the base, and there is nothing to ask
      cases hanswers
      exact .nil
    | cons m more => exact hanswers
  · obtain ⟨m, hm, hmended⟩ := exists_rel_of_mem hmend hq
    have hne : mended ≠ [] := List.ne_nil_of_mem hm
    have hown : q.tables ⊆ unionTables queries := fun reference hreference =>
      mem_addMissing_iff.2 (.inr (List.mem_flatMap.2 ⟨q, hq, hreference⟩))
    rw [htables hne]
    exact ⟨fun reference hreference => known_of_mem hmended hreference,
      fun hfilters => asked_eq_filter hfilters hmended,
      admits_iff (fun reference join => ranges_mergeMended hne) hmended hown⟩

/-- The branch of the old books is asked for its missing loan. -/
theorem old_or_lent_asks :
    afterOldOrLent.query.tables = ["books", "loans"] ∧
      ∃ queries mended profile, bookHost.profile? atBooks.domain = some profile ∧
        List.Forall₂ (fun tree q => Leaves (renderWith bookHost (pure ()) tree) atBooks q)
          [.leaf .relation "old", .leaf .relation "lent"] queries ∧
        List.Forall₂ (fun q m => (asked profile ["books", "loans"] q).foldlM (ask profile) q = .ok m)
          queries mended ∧
        ∀ q ∈ queries, asked profile ["books", "loans"] q =
          ["books", "loans"].filter fun reference => !q.tables.contains reference := by
  have hrun : (renderWith bookHost (pure ())
      (.node .clauseOr [.leaf .relation "old", .leaf .relation "lent"])).runFrom atBooks =
        (.ok "", afterOldOrLent) := rfl
  have htables : afterOldOrLent.query.tables = ["books", "loans"] := rfl
  obtain ⟨queries, mended, profile, hprofile, hqueries, hmended, hasks⟩ := alternative_asks hrun
  rw [htables] at hmended hasks
  exact ⟨htables, queries, mended, profile, hprofile, hqueries, hmended,
    fun q hq => (hasks q hq).2.1 (books_onlyAddsFilters profile hprofile)⟩

/-! ## A join of one branch -/

/-- A domain of books that mends no branch. The tagged ones are found by a join. -/
def taggedBooks : Domain where
  profile := { name := "books", mainTable := "books", mainClass := "Book" }
  relation := fun host kind name =>
    if kind ≠ .filter then return false
    else do
      host.addTable "books"
      if name = "tagged" then
        modifyQuery fun q => (q.addJoin "books" "INNER" "tags" "TABLE1.id = TABLE2.book_id" none).2
        addFilter "tags.name = 'rare'"
      else addFilter "books.year < 1900"
      return true

/-- The compile of a source over tagged books, as it is seen by the walk. -/
def taggedHost : Host :=
  (Catalog.addDomain taggedBooks {}).host {} Catalog.maxDepth

/-- The walk before a source over tagged books is looked at. -/
def atTaggedBooks : Walk :=
  (Catalog.addDomain taggedBooks {}).start {} taggedBooks

/-- The state behind a source over tagged books. -/
def afterTagged (t : Tree) : Walk :=
  ((renderWith taggedHost (pure ()) t).runFrom atTaggedBooks).2

/-- The domain knows of nothing if it is asked about nothing. -/
theorem not_known_of_asked_eq_nil {profile : Profile} {references : List String} {q : Query}
    (h : asked profile references q = []) (reference : String) : ¬ q.Known profile references reference := by
  rintro (hasked | ⟨hlacks, earlier, answered, hearlier, hanswered, htable⟩)
  · rw [h] at hasked
    cases hasked
  · rw [h] at hearlier
    obtain rfl := List.prefix_nil.1 hearlier
    cases hanswered
    exact hlacks htable

/-- **A join narrows the other branches behind the domain's back.** `(tagged) or (old)` compiles although
the domain mends no branch: it is asked about nothing. Its statement joins the old books to their tags, and
so drops those without one. -/
theorem joined_branch_narrows :
    let merged := afterTagged (.node .clauseOr [.leaf .relation "tagged", .leaf .relation "old"])
    let old := afterTagged (.leaf .relation "old")
    let join := "INNER JOIN tags ON books.id = tags.book_id"
    (renderWith taggedHost (pure ())
        (.node .clauseOr [.leaf .relation "tagged", .leaf .relation "old"])).runFrom atTaggedBooks =
      (.ok "", merged) ∧
    Leaves (renderWith taggedHost (pure ()) (.leaf .relation "old")) atTaggedBooks old.query ∧
    merged.query.tableList = "books " ++ join ∧ old.query.tableList = "books" ∧
    asked taggedBooks.profile merged.query.tables old.query = [] ∧
    merged.query.Ranges "books" join ∧
    ¬ old.query.Admits taggedBooks.profile merged.query.tables "books" join := by
  intro merged old join
  have hasked : asked taggedBooks.profile merged.query.tables old.query = [] := rfl
  have hjoins : old.query.joinsOf "books" = [] := rfl
  refine ⟨rfl, ⟨"", old, rfl, rfl⟩, rfl, rfl, hasked, ⟨List.mem_singleton_self _, ?_⟩, ?_⟩
  · show join ∈ [join]
    exact List.mem_singleton_self _
  · rintro (⟨-, hown⟩ | hknown | ⟨joined, -, hknown⟩)
    · rw [hjoins] at hown
      cases hown
    · exact not_known_of_asked_eq_nil hasked _ hknown
    · exact not_known_of_asked_eq_nil hasked _ hknown

end RelationSql
