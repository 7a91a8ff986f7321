import RelationSql.Proofs.Query.Gauge

/-!
# Weighed queries

The weight of a query lies in its conditions, and it is kept in a ledger (`Ledger`). What a source adds is
read off its tree: a filter adds its condition, a `having` takes the place of the one before it, and an
alternative unites the ledgers of its branches (`Scale.after`). A query that is written by the ledger
(`Gauge.Written`) holds names everywhere else, so its statements weigh what the ledger says
(`Gauge.Written.find`, `Gauge.Written.count`).
-/

namespace RelationSql

open Grammar RelationSql.Fragment

/-- The weights of the conditions of a query, and of its condition on groups. -/
@[ext]
structure Ledger (W : Type) where
  filters : W
  having_ : W
  deriving DecidableEq

namespace Ledger

variable {W : Type} [AddCommMonoid W]

instance : Zero (Ledger W) := ⟨⟨0, 0⟩⟩

/-- A further condition. -/
def filter (x : W) (l : Ledger W) : Ledger W :=
  { l with filters := l.filters + x }

/-- The ledgers of branches: their conditions stand side by side, and the first branch says which condition
on groups is kept. -/
def unite (l : Ledger W) : List (Ledger W) → Ledger W
  | [] => l
  | b :: bs => ⟨((b :: bs).map Ledger.filters).sum, b.having_⟩

end Ledger

namespace Scale

variable {W : Type} [AddCommMonoid W] (scale : Scale W)

mutual

/-- The ledger behind a tree. -/
def after : Tree → Ledger W → Ledger W
  | .node .from_ [outer, inner], l => after outer (after inner l)
  | .node .clauseOr ts, l => l.unite (branchesAfter ts l)
  | .node .filter [t, u], l => (after t l).filter (scale.weigh u)
  | .node .having [t, u], l => { after u (after t l) with having_ := scale.weigh u }
  | .node _ (t :: _), l => after t l
  | _, l => l

/-- The ledgers behind the branches of an alternative, each of them taken on its own. -/
def branchesAfter : List Tree → Ledger W → List (Ledger W)
  | [], _ => []
  | .node .clauseOr ts :: more, l => branchesAfter ts l ++ branchesAfter more l
  | t :: more, l => after t l :: branchesAfter more l

end

end Scale

namespace Gauge

variable {W : Type} [AddCommMonoid W] (g : Gauge W)

/-- A query whose conditions weigh what the ledger says, while all else that it holds weighs nothing. -/
structure Written (l : Ledger W) (q : Query) : Prop where
  dialect : g.dialects q.dialect
  names : q.Over g.excluded (g.weighs 0)
  keys : g.signed → q.attributes.All (fun text => text ≠ "") ∧
    q.rebuildAttributes.attributes.All fun text => text ≠ ""
  filters : ∃ xs, List.Forall₂ g.weighs xs q.filters ∧ xs.sum = l.filters
  having_ : g.weighs l.having_ (q.having.getD "")

variable {g} {l : Ledger W} {q other base : Query}

/-- The empty query over a table. -/
theorem written_new (h : g.Lawful) {dialect : Dialect} (hdialect : g.dialects dialect)
    {mainTable : String} (hmain : g.Word mainTable) (mainClass : String) :
    g.Written 0 (Query.new dialect mainTable mainClass) where
  dialect := hdialect
  names := Query.over_new hmain dialect mainClass
  keys := fun _ => ⟨.empty, .empty⟩
  filters := ⟨[], .nil, rfl⟩
  having_ := h.word (show Lacks reserved "" by decide)

namespace Written

variable (h : g.Lawful) (hq : g.Written l q)

/-! ## Additions -/

include hq

theorem addFilter {x : W} {filter : String} (hfilter : g.weighs x filter) :
    g.Written (l.filter x) (q.addFilter filter) where
  dialect := hq.dialect
  names := hq.names.addFilter filter
  keys := hq.keys
  filters := by
    obtain ⟨xs, hxs, hsum⟩ := hq.filters
    refine ⟨xs ++ [x], List.rel_append hxs (.cons hfilter .nil), ?_⟩
    rw [List.sum_append, List.sum_singleton, hsum]
    rfl
  having_ := hq.having_

/-- A condition that weighs nothing. -/
theorem addLight {filter : String} (hfilter : g.weighs 0 filter) : g.Written l (q.addFilter filter) := by
  have hsame : l.filter 0 = l := by
    rw [Ledger.filter, add_zero]
  rw [← hsame]
  exact hq.addFilter hfilter

theorem setHaving {x : W} {text : String} (htext : g.weighs x text) :
    g.Written { l with having_ := x } { q with having := some text } :=
  { hq with names := { hq.names with }, having_ := htext }

theorem setOrder {text : String} (htext : g.Word text) : g.Written l { q with order := some text } :=
  { hq with names := { hq.names with order := fun _ hmem => Option.some.inj hmem ▸ htext } }

theorem setGroup {text : String} (htext : g.Word text) : g.Written l { q with group := some text } :=
  { hq with names := { hq.names with group := fun _ hmem => Option.some.inj hmem ▸ htext } }

theorem setLimit {text : String} (htext : g.Word text) : g.Written l { q with limit := some text } :=
  { hq with names := { hq.names with limit := fun _ hmem => Option.some.inj hmem ▸ htext } }

theorem setOffset {text : String} (htext : g.weighs 0 text) :
    g.Written l { q with offset := some text } :=
  { hq with names := { hq.names with offset := fun _ hmem => Option.some.inj hmem ▸ htext } }

theorem setPage (key : Option String) (size : Option Nat) :
    g.Written l { q with pageKey := key, pageSize := size } :=
  { hq with names := { hq.names with } }

theorem setDistinct (distinct : Bool) : g.Written l { q with distinct := distinct } :=
  { hq with names := { hq.names with } }

include h

theorem addTable {use table : String} (huse : g.Word use) (htable : g.Word table) (avoidAlias : Bool) :
    g.Written l (q.addTable use table avoidAlias) :=
  { hq with names := hq.names.addTable h.isClass huse htable avoidAlias }

end Written

/-! ## Custom queries -/

section Replaced

variable {α : Type} {R : α → Prop} {new old : Option α}

theorem of_mem_orElse (hnew : ∀ a ∈ new, R a) (hold : ∀ a ∈ old, R a) : ∀ a ∈ new <|> old, R a := by
  cases new with
  | none => exact hold
  | some a => exact hnew

theorem of_getD (hnew : ∀ a ∈ new, R a) {a : α} (ha : R a) : R (new.getD a) := by
  cases new with
  | none => exact ha
  | some a => exact hnew a rfl

end Replaced

/-- A clause of the custom query stands in the place of the one before it. -/
theorem clauses_applyCustom (custom : CustomQuery) (q : Query) :
    (q.applyCustom custom).order = (custom.order.map (" ORDER BY " ++ ·) <|> q.order) ∧
      (q.applyCustom custom).group = (custom.group.map (" GROUP BY " ++ ·) <|> q.group) ∧
      (q.applyCustom custom).having = (custom.having.map (" HAVING " ++ ·) <|> q.having) := by
  unfold Query.applyCustom
  dsimp only [Query.rebuildAttributes, Query.rebuildAliases]
  refine ⟨?_, ?_, ?_⟩
  · cases custom.order <;> rfl
  · cases custom.group <;> rfl
  · cases custom.having <;> rfl

/-- A query without weight stays one where a custom query replaces its parts. -/
theorem Written.applyCustom (h : g.Lawful) (hq : g.Written 0 q) {custom : CustomQuery}
    (hcustom : g.Light custom) : g.Written 0 (q.applyCustom custom) := by
  obtain ⟨horder, hgroup, hhaving⟩ := clauses_applyCustom custom q
  have hclause {R : String → Prop} {word : String} {new old : Option String}
      (hnew : ∀ text ∈ new, R (word ++ text)) (hold : ∀ text ∈ old, R text) :
      ∀ text ∈ new.map (word ++ ·) <|> old, R text := by
    refine of_mem_orElse (fun text htext => ?_) hold
    obtain ⟨body, hbody, rfl⟩ := Option.mem_map.1 htext
    exact hnew body hbody
  have hselect : ∀ items ∈ custom.select <|> q.select, ∀ item ∈ items, g.Word item :=
    of_mem_orElse hcustom.select hq.names.select
  have htables : ∀ table ∈ custom.tables.getD q.tables, g.Word table :=
    of_getD (R := fun tables : List String => ∀ table ∈ tables, g.Word table) hcustom.tables
      hq.names.tables
  have hkeys (hsigned : g.signed) : (Dictionary.ofList (((custom.select <|> q.select).getD []).filterMap
      selectedKey?)).All fun text => text ≠ "" := by
    cases hreplaced : custom.select with
    | none => exact (hq.keys hsigned).2
    | some items => exact hcustom.keys hsigned items hreplaced
  exact {
    dialect := hq.dialect
    names := {
      mainTable := of_getD (R := g.Word) hcustom.mainTable hq.names.mainTable
      tables := htables
      aliases := by
        refine Dictionary.All.foldl (fun known text htext hknown => ?_) .empty
        refine hknown.insert _ ?_
        simp only [List.forall_mem_append, List.forall_mem_singleton]
        exact ⟨hknown.findD _ (by simp), lacks_read (htables text htext)⟩
      joins := of_getD (R := fun joins : Dictionary (List String) =>
        joins.All fun texts => ∀ text ∈ texts, g.weighs 0 text) hcustom.joins hq.names.joins
      neededJoins := hq.names.neededJoins
      keyValues := hq.names.keyValues
      select := hselect
      order := by
        rw [horder]
        exact hclause (fun text htext => (h.isClass.word (by decide)).append (hcustom.order text htext))
          hq.names.order
      group := by
        rw [hgroup]
        exact hclause (fun text htext => (h.isClass.word (by decide)).append (hcustom.group text htext))
          hq.names.group
      limit := hq.names.limit
      offset := hq.names.offset
      attributes := by
        refine .ofList fun entry hentry => ?_
        obtain ⟨item, hitem, hkey⟩ := List.mem_filterMap.1 hentry
        exact lacks_of_selectedKey?
          (of_getD (R := fun items : List String => ∀ item ∈ items, g.Word item) hselect (by simp)
            item hitem) hkey }
    keys := fun hsigned => ⟨hkeys hsigned, hkeys hsigned⟩
    filters := by
      show ∃ xs, List.Forall₂ g.weighs xs (custom.filters.getD q.filters) ∧ xs.sum = 0
      cases hreplaced : custom.filters with
      | none => exact hq.filters
      | some filters =>
        exact ⟨_, Lawful.forall₂_light (hcustom.filters filters hreplaced), by simp⟩
    having_ := by
      rw [hhaving]
      cases hreplaced : custom.having with
      | none => exact hq.having_
      | some body => exact h.light_append (h.word (by decide)) (hcustom.having_ body hreplaced) }

/-! ## Alternatives -/

/-- A domain that mends branches without adding to their weight. -/
def Mends (g : Gauge W) (profile : Profile) : Prop :=
  ∀ name table l q, g.Word name → g.Word table → g.Written l q →
    Outcome g.faults (g.Written l) (profile.missingTable name table q)

namespace Written

theorem absorb {l' : Ledger W} (hq : g.Written l q) (hother : g.Written l' other) :
    g.Written l (q.absorb other) where
  dialect := hq.dialect
  names := hq.names.absorb hother.names
  keys := fun hsigned =>
    ⟨Query.all_absorbNew (hq.keys hsigned).1 (hother.keys hsigned).1, (hq.keys hsigned).2⟩
  filters := hq.filters
  having_ := hq.having_

theorem foldl_absorb {ls : List (Ledger W)} {queries : List Query} (hq : g.Written l q)
    (hqueries : List.Forall₂ g.Written ls queries) : g.Written l (queries.foldl Query.absorb q) := by
  induction hqueries generalizing q with
  | nil => exact hq
  | cons hother _ ih => exact ih (hq.absorb hother)

/-- The conditions of a query, joined. -/
theorem joinedFilters (h : g.Lawful) (hq : g.Written l q) : g.weighs l.filters q.joinedFilters := by
  obtain ⟨xs, hxs, hsum⟩ := hq.filters
  rw [← hsum, ← List.sum_reverse]
  exact h.joinWith (h.word (by decide)) (List.rel_reverse hxs)

/-- A query without conditions has no weight. -/
theorem filters_eq_zero (hq : g.Written l q) (hempty : q.filters.isEmpty = true) : l.filters = 0 := by
  obtain ⟨xs, hxs, hsum⟩ := hq.filters
  rw [List.isEmpty_iff.1 hempty, List.forall₂_nil_right_iff] at hxs
  rw [← hsum, hxs, List.sum_nil]

theorem branchCondition (h : g.Lawful) (hq : g.Written l q) :
    g.weighs l.filters q.branchCondition := by
  unfold Query.branchCondition
  split
  · next hempty =>
    rw [hq.filters_eq_zero hempty]
    exact h.word (by decide)
  · exact hq.joinedFilters h

end Written

section Merge

variable {ls : List (Ledger W)} {queries : List Query} {profile : Profile} {tables : List String}

theorem word_of_mem_unionTables (hqueries : List.Forall₂ g.Written ls queries) :
    ∀ table ∈ Query.unionTables queries, g.Word table := by
  intro table htable
  rw [unionTables_eq, List.mem_eraseDups, List.mem_flatMap] at htable
  obtain ⟨q, hq, htable⟩ := htable
  induction hqueries with
  | nil => cases hq
  | cons hfirst _ ih =>
    rcases List.mem_cons.1 hq with rfl | hq
    · exact hfirst.names.tables table htable
    · exact ih hq

theorem outcome_mend (hmends : g.Mends profile) (htables : ∀ table ∈ tables, g.Word table)
    (hq : g.Written l q) : Outcome g.faults (g.Written l) (Query.mend profile tables q) := by
  induction tables generalizing q with
  | nil => exact hq
  | cons table tables ih =>
    rw [List.forall_mem_cons] at htables
    rw [Query.mend]
    split
    · exact ih htables.2 hq
    · obtain ⟨hname, htable⟩ := lacks_split htables.1
      have hmended := hmends _ _ l q hname htable hq
      dsimp only
      split
      · next mended hok =>
        rw [hok] at hmended
        exact ih htables.2 hmended
      · next fault herror =>
        rw [herror] at hmended
        exact hmended

theorem outcome_mendAll (hmends : g.Mends profile) (htables : ∀ table ∈ tables, g.Word table)
    (hqueries : List.Forall₂ g.Written ls queries) :
    Outcome g.faults (List.Forall₂ g.Written ls) (Query.mendAll profile tables queries) := by
  induction hqueries with
  | nil => exact .nil
  | @cons l q ls queries hq _ ih =>
    have hmended := outcome_mend hmends htables hq
    rw [Query.mendAll]
    split
    · next fault herror =>
      rw [herror] at hmended
      exact hmended
    · next mended hok =>
      rw [hok] at hmended
      split
      · next fault herror =>
        rw [herror] at ih
        exact ih
      · next more hmore =>
        rw [hmore] at ih
        exact .cons hmended ih

theorem written_mergeMended (h : g.Lawful) (hbase : g.Written l base)
    (htables : ∀ table ∈ tables, g.Word table) (hqueries : List.Forall₂ g.Written ls queries) :
    g.Written (l.unite ls) (Query.mergeMended base tables queries) := by
  cases hqueries with
  | nil => exact hbase
  | @cons first q ls queries hq hqueries =>
    have hfolded := hq.foldl_absorb hqueries
    have hconditions : List.Forall₂ g.weighs ((first :: ls).map Ledger.filters)
        ((q :: queries).map Query.branchCondition) := by
      rw [List.forall₂_map_left_iff, List.forall₂_map_right_iff]
      exact (List.Forall₂.cons hq hqueries).imp fun _ _ hq => hq.branchCondition h
    have hjoined := h.joinWith (h.word (show Lacks reserved ") OR (" by decide)) hconditions
    have halternative := h.append_light (h.light_append (h.word (show Lacks reserved "((" by decide)) hjoined)
      (h.word (show Lacks reserved "))" by decide))
    exact { hfolded with
      names := { hfolded.names with mainTable := hbase.names.mainTable, tables := htables }
      filters := ⟨[_], .cons halternative .nil, List.sum_singleton⟩ }

/-- **Merged branches weigh what the branches weigh together**, or the merge ends in an allowed error. -/
theorem outcome_mergeBranches (h : g.Lawful) (hmends : g.Mends profile) (hbase : g.Written l base)
    (hqueries : List.Forall₂ g.Written ls queries) :
    Outcome g.faults (g.Written (l.unite ls)) (Query.mergeBranches profile base queries) := by
  have htables := word_of_mem_unionTables hqueries
  have hmended := outcome_mendAll hmends htables hqueries
  unfold Query.mergeBranches
  cases hmerged : Query.mendAll profile (Query.unionTables queries) queries with
  | error fault =>
    rw [hmerged] at hmended
    exact hmended
  | ok mended =>
    rw [hmerged] at hmended
    exact written_mergeMended h hbase htables hmended

end Merge

/-! ## Statements -/

namespace Written

variable (h : g.Lawful) (hq : g.Written l q)
include h hq

theorem tableList : g.weighs 0 q.tableList :=
  hq.names.tableList h.name (fun _ _ htext hrest => h.append_light htext hrest) h.isClass

theorem whereClause : g.weighs l.filters q.whereClause := by
  unfold Query.whereClause
  split
  · next hempty =>
    rw [hq.filters_eq_zero hempty]
    exact h.word (by decide)
  · exact h.light_append (h.word (by decide)) (hq.joinedFilters h)

/-- **The conditions of a query make up the weight of its finding statement.** -/
theorem find : g.weighs (l.filters + l.having_) (q.statement .find) := by
  have hlight {text : String} (htext : Lacks reserved text) : g.weighs 0 text := h.word htext
  have hselect : g.weighs 0 (Text.joinWith "," q.selectItems) :=
    h.name _ (lacks_joinWith (h.isClass.word (by decide)) (hq.names.selectItems h.isClass))
  have hgroup := h.name _ (hq.names.groupClause h.isClass)
  have horder := h.name _ (Query.Over.lacks_getD h.isClass hq.names.order)
  have hlimit := h.name _ (Query.Over.lacks_getD h.isClass hq.names.limit)
  have hoffset : g.weighs 0 (q.offset.getD "") := of_getD hq.names.offset (hlight (by decide))
  have hdistinct := h.name _ (hq.names.distinctClause h.isClass)
  have hfront := h.append_light (h.append_light (h.append_light (h.append_light
    (hlight (show Lacks reserved "SELECT" by decide)) hdistinct)
    (hlight (show Lacks reserved " " by decide))) hselect) (hlight (show Lacks reserved " FROM " by decide))
  have hwhere := h.light_append (h.append_light hfront (hq.tableList h)) (hq.whereClause h)
  exact h.append_light (h.append_light (h.append_light
    (h.append _ _ _ _ (h.append_light hwhere hgroup) hq.having_) horder) hlimit) hoffset

/-- **The conditions of a query, but for the one on groups, make up the weight of its counting
statement.** -/
theorem count : g.weighs l.filters (q.statement .count) := by
  have hcounted := h.name _ (hq.names.counted h.isClass)
  have hfront := h.append_light (h.append_light (h.word (show Lacks reserved "SELECT " by decide)) hcounted)
    (h.word (show Lacks reserved " FROM " by decide))
  exact h.light_append (h.append_light hfront (hq.tableList h)) (hq.whereClause h)

end Written

end Gauge

end RelationSql
