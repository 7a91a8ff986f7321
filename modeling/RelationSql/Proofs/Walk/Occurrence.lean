import Mathlib.Tactic.Common
import RelationSql.Proofs.Walk.Registered

/-!
# The use that duplicates are recognised by

A query that has to remove duplicates is grouped by the id of one use of its main table and counts the ids
of one. The find statement takes the use with the bare name, the count statement the newest one. So the
statements mean the same records exactly where the newest name is the bare one, or the query has one entry
(`compile_sameOccurrence_iff`), and which names there are can be read off the source. The bare name is not
the newest behind a join in a scope (`Register.newest_useMain`), and not if a later branch of an
alternative uses the table under a name that the first one does not know (`Register.newest_unite`).
-/

namespace RelationSql

open Grammar WalkM RelationSql.Part
open RelationSql.Fragment (TableReference)

/-! ## The newest name -/

namespace Register

variable {r : Register} {place : Place} {kind : Option RelationKind}

/-- The newest name of the main table. -/
def newest? (r : Register) : Option String :=
  (r.names r.profile.mainTable).getLast?

/-- The outermost relation uses the main table under its bare name. -/
theorem mem_useMain (hfirst : place.first = true) :
    r.profile.mainTable ∈ (r.useMain place kind).names r.profile.mainTable := by
  have honce : r.profile.mainTable ∈ (r.use r.profile.mainTable true).names r.profile.mainTable := by
    rw [names_use, Query.nextName]
    by_cases hused : r.profile.mainTable ∈ r.names r.profile.mainTable
    · exact List.mem_append_left _ hused
    · simp [hused]
  by_cases htwice : kind = some .join ∧ (place.scope.filter r.profile.needsJoinScope).isSome
  · rw [htwice.1, useMain_twice htwice.2, hfirst, names_use]
    exact List.mem_append_left _ honce
  · rw [useMain_once htwice, hfirst]
    exact honce

/-- **The outermost relation leaves the bare name as the newest one**, unless it is a join in a scope,
which uses the table twice. -/
theorem newest_useMain (hfirst : place.first = true)
    (hunused : r.profile.mainTable ∉ r.names r.profile.mainTable)
    (hnumbered : ∀ n, Query.numbered r.profile.mainTable n ≠ r.profile.mainTable) :
    (r.useMain place kind).newest? = some r.profile.mainTable ↔
      ¬ (kind = some .join ∧ (place.scope.filter r.profile.needsJoinScope).isSome) := by
  have hbare : Query.nextName r.profile.mainTable (r.names r.profile.mainTable) true =
      r.profile.mainTable := by
    simp [Query.nextName, hunused]
  have honce := names_use r.profile.mainTable true r
  rw [hbare] at honce
  rw [newest?, profile_useMain]
  by_cases htwice : kind = some .join ∧ (place.scope.filter r.profile.needsJoinScope).isSome
  · refine iff_of_false ?_ (not_not_intro htwice)
    -- the second use finds the bare name taken, so it is numbered
    rw [htwice.1, useMain_twice htwice.2, hfirst, names_use, honce, List.getLast?_concat, Query.nextName]
    simpa using hnumbered _
  · refine iff_of_true ?_ htwice
    rw [useMain_once htwice, hfirst, honce, List.getLast?_concat]

/-- **An alternative keeps the newest name of its first branch** if no later one knows another. -/
theorem newest_unite {first : Register} {later : List Register} {name : String}
    (hname : (first.names r.profile.mainTable).getLast? = some name) :
    (r.unite (first :: later)).newest? = some name ↔
      ∀ branch ∈ later, branch.names r.profile.mainTable ⊆ first.names r.profile.mainTable := by
  have hunited : (r.unite (first :: later)).newest? =
      ((later.map fun branch => branch.names r.profile.mainTable).foldl addMissing
        (first.names r.profile.mainTable)).getLast? := by
    have hnames : (r.unite (first :: later)).names r.profile.mainTable =
        ((later.map names).map fun names => names r.profile.mainTable).foldl addMissing
          (first.names r.profile.mainTable) := rfl
    rw [List.map_map] at hnames
    exact congrArg List.getLast? hnames
  rw [hunited, Query.getLast?_foldl_addMissing hname, List.forall_mem_map]

end Register

/-! ## Chains -/

/-- No relation hands the walk over to another domain. -/
def Stays (moves : String → RelationKind → String → Option (List TableMove)) : Prop :=
  ∀ domain kind name steps, moves domain kind name = some steps → ∀ move ∈ steps, ∃ table, move = .use table

/-- No use of the table of the domain has the bare name. -/
structure Register.IsFree (profile : Profile) (r : Register) : Prop where
  profile_eq : r.profile = profile
  free : profile.mainTable ∉ r.names profile.mainTable

section Chains

variable {catalog : Catalog} {moves : String → RelationKind → String → Option (List TableMove)}
  {profile : Profile} {place last : Place} {r : Register}
  (hnumbered : ∀ n, Query.numbered profile.mainTable n ≠ profile.mainTable)

namespace Register.IsFree

theorem use_other (h : r.IsFree profile) {table : String} (hother : table ≠ profile.mainTable)
    (avoidAlias : Bool) : (r.use table avoidAlias).IsFree profile := by
  refine ⟨h.profile_eq, ?_⟩
  rw [names_use_of_ne (Ne.symm hother)]
  exact h.free

include hnumbered

/-- An inner relation takes a number. -/
theorem use_inner (h : r.IsFree profile) : (r.use profile.mainTable false).IsFree profile := by
  refine ⟨h.profile_eq, ?_⟩
  rw [names_use, List.mem_append, not_or, List.mem_singleton, Query.nextName]
  refine ⟨h.free, ?_⟩
  split
  · simp_all
  · split <;> exact (hnumbered _).symm

theorem useMain_inner (h : r.IsFree profile) (hfirst : place.first = false) (kind : Option RelationKind) :
    (r.useMain place kind).IsFree profile := by
  have honce := h.use_inner hnumbered
  by_cases htwice : kind = some .join ∧ (place.scope.filter r.profile.needsJoinScope).isSome
  · rw [htwice.1, useMain_twice htwice.2, hfirst, h.profile_eq]
    exact honce.use_inner hnumbered
  · rw [useMain_once htwice, hfirst, h.profile_eq]
    exact honce

theorem foldl_move (hfirst : place.first = false) {steps : List TableMove}
    (hsteps : ∀ move ∈ steps, ∃ table, move = .use table) {state : Option RelationKind × Register}
    (h : state.2.IsFree profile) :
    (steps.foldl (Register.move catalog place) state).2.IsFree profile := by
  induction steps generalizing state with
  | nil => exact h
  | cons move steps ih =>
    rw [List.forall_mem_cons] at hsteps
    obtain ⟨⟨table, rfl⟩, hsteps⟩ := hsteps
    refine ih hsteps ?_
    rw [Register.move]
    split
    · exact h.useMain_inner hnumbered hfirst state.1
    · next hother => exact h.use_other (h.profile_eq ▸ hother) true

variable (hstays : Stays moves)

include hstays

theorem resolveAs (h : r.IsFree profile) (hfirst : place.first = false) (name : String)
    (kinds : List RelationKind) : (r.resolveAs catalog moves place name kinds).IsFree profile := by
  induction kinds with
  | nil => exact h
  | cons kind kinds ih =>
    rw [Register.resolveAs]
    split
    · next steps hsteps => exact foldl_move hnumbered hfirst (hstays _ _ _ _ hsteps) h
    · exact ih

end Register.IsFree

/-- An inner clause leaves the bare name to the relations around it, and so do its branches. -/
structure LeavesFree (catalog : Catalog) (moves : String → RelationKind → String → Option (List TableMove))
    (profile : Profile) (t : Tree) : Prop where
  clause : ∀ {place : Place} {r : Register}, place.first = false → r.IsFree profile →
    (t.register catalog moves place r).IsFree profile
  branches : ∀ {place : Place} {r : Register}, place.first = false → r.IsFree profile →
    ∀ branch ∈ Tree.branchRegisters catalog moves place [t] r, branch.IsFree profile

theorem LeavesFree.of_clause {t : Tree} (ht : t.tag? ≠ some .clauseOr)
    (h : ∀ {place : Place} {r : Register}, place.first = false → r.IsFree profile →
      (t.register catalog moves place r).IsFree profile) : LeavesFree catalog moves profile t := by
  refine ⟨h, fun {place r} hfirst hr => ?_⟩
  rw [branchRegisters_singleton ht]
  exact List.forall_mem_singleton.2 (h hfirst hr)

theorem LeavesFree.all {ts : List Tree} (h : ∀ t ∈ ts, LeavesFree catalog moves profile t)
    (hfirst : place.first = false) (hr : r.IsFree profile) :
    ∀ branch ∈ Tree.branchRegisters catalog moves place ts r, branch.IsFree profile := by
  induction ts with
  | nil => simp [Tree.branchRegisters]
  | cons t ts ih =>
    rw [List.forall_mem_cons] at h
    rw [branchRegisters_cons, List.forall_mem_append]
    exact ⟨h.1.branches hfirst hr, ih h.2⟩

/-- A merge leaves the bare name free if its branches do. -/
theorem Register.IsFree.unite (h : r.IsFree profile) {branches : List Register}
    (hbranches : ∀ branch ∈ branches, branch.IsFree profile) : (r.unite branches).IsFree profile := by
  refine ⟨h.profile_eq, ?_⟩
  show profile.mainTable ∉ Query.unite r.names (branches.map Register.names) profile.mainTable
  cases branches with
  | nil => exact h.free
  | cons branch branches =>
    rw [Query.mem_unite (by simp)]
    rintro ⟨names, hnames, hmem⟩
    obtain ⟨branch, hbranch, rfl⟩ := List.mem_map.1 hnames
    exact (hbranches branch hbranch).free hmem

include hnumbered in
/-- **Only outermost relations take the bare name.** -/
theorem leavesFree_of_isClausal (hstays : Stays moves) {t : Tree} (ht : IsClausal t) :
    LeavesFree catalog moves profile t := by
  induction ht with
  | relation name =>
    exact .of_clause (by simp [Tree.leaf, Tree.tag?]) fun hfirst hr =>
      hr.resolveAs hnumbered hstays hfirst name _
  | scope _ name ih => exact .of_clause (by simp [Tree.tag?]) fun hfirst hr => ih.clause hfirst hr
  | from_ _ _ houter hinner =>
    exact .of_clause (by simp [Tree.tag?]) fun hfirst hr => houter.clause hfirst (hinner.clause rfl hr)
  | clausePar _ ih => exact .of_clause (by simp [Tree.tag?]) fun hfirst hr => ih.clause hfirst hr
  | clauseOr _ ih =>
    refine ⟨fun hfirst hr => hr.unite (LeavesFree.all ih hfirst hr), fun {place r} hfirst hr => ?_⟩
    rw [Tree.branchRegisters, Tree.branchRegisters, List.append_nil]
    exact LeavesFree.all ih hfirst hr
  | behind htag _ _ ih =>
    refine .of_clause ?_ fun hfirst hr => ?_
    · rintro ⟨⟩
      cases htag
    · rw [register_behind htag]
      exact ih.clause hfirst hr

/-- A clause without alternatives around its outermost relation, which stands at the place. -/
inductive EndsIn : Place → Tree → Place → String → Prop where
  | relation (place : Place) (name : String) : EndsIn place (.leaf .relation name) place name
  | scope {place last : Place} {t : Tree} {name : String} (scope : String)
      (h : EndsIn { place with scope := some scope } t last name) :
      EndsIn place (.node .scope [t, .atom scope]) last name
  | from_ {place last : Place} {outer inner : Tree} {name : String} (h : EndsIn place outer last name)
      (hinner : IsClausal inner) : EndsIn place (.node .from_ [outer, inner]) last name
  | clausePar {place last : Place} {t : Tree} {name : String} (h : EndsIn place t last name) :
      EndsIn place (.node .clausePar [t]) last name
  | behind {place last : Place} {tag : Tag} (htag : tag.isBehind = true) {t : Tree} {name : String}
      (h : EndsIn place t last name) {items : List Tree} (hitems : ∀ item ∈ items, item.IsPlain) :
      EndsIn place (.node tag (t :: items)) last name

theorem EndsIn.isClausal {t : Tree} {name : String} (h : EndsIn place t last name) : IsClausal t := by
  induction h with
  | relation place name => exact .relation name
  | scope scope _ ih => exact .scope ih scope
  | from_ _ hinner ih => exact .from_ ih hinner
  | clausePar _ ih => exact .clausePar ih
  | behind htag _ hitems ih => exact .behind htag ih hitems

include hnumbered in
/-- The outermost relation comes last, and finds the bare name free. -/
theorem EndsIn.register (catalog : Catalog) (hstays : Stays moves) {t : Tree} {name : String}
    (h : EndsIn place t last name) (hr : r.IsFree profile) :
    last.first = place.first ∧ ∃ before : Register, before.IsFree profile ∧
      t.register catalog moves place r = before.resolveAs catalog moves last name RelationKind.all := by
  induction h generalizing r with
  | relation place name => exact ⟨rfl, r, hr, rfl⟩
  | scope scope _ ih => exact ih hr
  | from_ _ hinner ih =>
    exact ih ((leavesFree_of_isClausal hnumbered hstays hinner).clause rfl hr)
  | clausePar _ ih => exact ih hr
  | behind htag _ _ ih =>
    rw [register_behind htag]
    exact ih hr

/-- The first kind by which the domain knows a relation. -/
def KnownBy (moves : String → RelationKind → String → Option (List TableMove)) (domain name : String)
    (kind : RelationKind) (steps : List TableMove) : Prop :=
  ∃ before after, RelationKind.all = before ++ kind :: after ∧
    (∀ other ∈ before, moves domain other name = none) ∧ moves domain kind name = some steps

theorem resolveAs_of_knownBy {name : String} {kind : RelationKind} {steps : List TableMove}
    (h : KnownBy moves r.profile.name name kind steps) :
    r.resolveAs catalog moves place name RelationKind.all =
      (steps.foldl (Register.move catalog place) (if kind = .class_ then none else some kind, r)).2 := by
  obtain ⟨before, after, hall, hnone, hsteps⟩ := h
  rw [hall]
  clear hall
  induction before with
  | nil => rw [List.nil_append, Register.resolveAs, hsteps]
  | cons other before ih =>
    rw [List.forall_mem_cons] at hnone
    rw [List.cons_append, Register.resolveAs, hnone.1]
    exact ih hnone.2

include hnumbered in
/-- **A chain that ends in one use of the table leaves the bare name as the newest one**, unless the use is
a join in a scope. -/
theorem EndsIn.newest (catalog : Catalog) (hstays : Stays moves) {t : Tree} {name : String}
    {kind : RelationKind} (h : EndsIn {} t last name) (hr : r.IsFree profile)
    (hkind : KnownBy moves profile.name name kind [.use profile.mainTable]) :
    (t.register catalog moves {} r).profile = profile ∧
    profile.mainTable ∈ (t.register catalog moves {} r).names profile.mainTable ∧
    ((t.register catalog moves {} r).newest? = some profile.mainTable ↔
      ¬ (kind = .join ∧ (last.scope.filter profile.needsJoinScope).isSome)) := by
  obtain ⟨hfirst, before, hbefore, hregister⟩ := h.register hnumbered catalog hstays hr
  have hprofile := hbefore.profile_eq
  subst hprofile
  rw [hregister, resolveAs_of_knownBy hkind, List.foldl_cons, List.foldl_nil, Register.move, if_pos rfl]
  refine ⟨Register.profile_useMain .., Register.mem_useMain hfirst, ?_⟩
  refine (Register.newest_useMain hfirst hbefore.free hnumbered).trans ?_
  cases kind <;> simp

end Chains

/-! ## Statements -/

theorem Query.deduplicates_of_distinct {q : Query} (hdistinct : q.distinct = true) (hgroup : q.group = none) :
    q.deduplicates = true := by
  rw [deduplicates, hgroup, hdistinct]
  rfl

/-- The find statement removes duplicates by the key, in the way of the dialect. -/
theorem Query.groups_by_distinctKey {q : Query} (hdistinct : q.distinct = true) (hgroup : q.group = none) :
    if q.dialect.distinctOn then q.distinctClause = " DISTINCT ON (" ++ q.distinctOnKeys ++ ")"
    else q.groupClause = " GROUP BY " ++ q.distinctKey := by
  have hdeduplicates := deduplicates_of_distinct hdistinct hgroup
  split
  · next hon => rw [distinctClause, hdeduplicates, hon, Bool.and_self, if_pos rfl]
  · next hon => rw [groupClause, hdeduplicates, if_pos (by simpa using hon)]

/-- **The statements of a compiled query remove and count duplicates by the same use of its main table
exactly if the newest use is the bare one, or is the only entry.** Where relations add uses and nothing
else does, the names of the uses are those of the register of the source. -/
theorem compile_sameOccurrence_iff {catalog : Catalog} {options : Options} {name source : String} {q : Query}
    (hcompile : catalog.compile options name source = .ok q) (hdistinct : q.distinct = true)
    (hgroup : q.group = none) :
    (if q.dialect.distinctOn then q.distinctClause = " DISTINCT ON (" ++ q.distinctOnKeys ++ ")"
      else q.groupClause = " GROUP BY " ++ q.distinctKey) ∧
    q.counted = "COUNT(DISTINCT " ++ q.currentTable ++ ".id)" ∧
    (q.SameOccurrence ↔ ∃ newest, (q.aliases q.mainTable).getLast? = some newest ∧
      (1 < q.tables.length ∧ newest = q.mainTable ∨
        q.tables = [TableReference.write ⟨q.mainTable, newest⟩])) ∧
    ∀ {moves : String → RelationKind → String → Option (List TableMove)} {start : Domain} {tree t : Tree},
      catalog.Adds options moves → catalog.domains.find? name = some start → parse source = .ok tree →
        Catalog.wholeTree start.profile.mainTable tree = .node .query [t] → IsClausal t →
          q.mainTable = (t.register catalog moves {} (.start start.profile)).profile.mainTable ∧
            q.aliases q.mainTable = (t.register catalog moves {} (.start start.profile)).names q.mainTable := by
  refine ⟨Query.groups_by_distinctKey hdistinct hgroup, Query.counted_of_distinct hdistinct hgroup,
    Query.sameOccurrence_iff hdistinct hgroup, ?_⟩
  intro moves start tree t hadds hstart hparse htree ht
  obtain ⟨w, rfl, hholds⟩ := hadds.register_holds hstart hparse htree ht hcompile
  refine ⟨hholds.mainTable, hholds.lists.aliases _ ?_⟩
  rw [hholds.mainTable]
  exact hholds.isMain

/-- **A chain without alternatives around its outermost relation removes and counts duplicates by the same
use exactly if this relation is no join in a scope.** The relations within the chain may be what they
want, as long as they stay in the domain. -/
theorem compile_chain_sameOccurrence_iff {catalog : Catalog} {options : Options}
    {moves : String → RelationKind → String → Option (List TableMove)} {start : Domain}
    {name source relation : String} {kind : RelationKind} {tree t : Tree} {last : Place} {q : Query}
    (hadds : catalog.Adds options moves) (hstays : Stays moves)
    (hstart : catalog.domains.find? name = some start)
    (hnumbered : ∀ n, Query.numbered start.profile.mainTable n ≠ start.profile.mainTable)
    (hparse : parse source = .ok tree)
    (htree : Catalog.wholeTree start.profile.mainTable tree = .node .query [t])
    (hends : EndsIn {} t last relation)
    (hkind : KnownBy moves start.profile.name relation kind [.use start.profile.mainTable])
    (hcompile : catalog.compile options name source = .ok q) (hdistinct : q.distinct = true)
    (hgroup : q.group = none) :
    q.SameOccurrence ↔ ¬ (kind = .join ∧ (last.scope.filter start.profile.needsJoinScope).isSome) := by
  obtain ⟨w, rfl, hholds⟩ := hadds.register_holds hstart hparse htree hends.isClausal hcompile
  have hunused : (Register.start start.profile).IsFree start.profile :=
    ⟨rfl, List.not_mem_nil⟩
  obtain ⟨hprofile, hused, hnewest⟩ := hends.newest hnumbered catalog hstays hunused hkind
  have hmain : w.query.mainTable = start.profile.mainTable := hholds.mainTable.trans (by rw [hprofile])
  have htable := hholds.isMain
  rw [hprofile] at htable
  have hentry := (hholds.lists.bare _ htable).2 hused
  rw [← hnewest, Query.sameOccurrence_iff hdistinct hgroup, hmain, Register.newest?, hprofile,
    hholds.lists.aliases _ htable]
  constructor
  · rintro ⟨newest, hlast, ⟨-, rfl⟩ | htables⟩
    · exact hlast
    -- the only entry has the bare name, since the outermost relation used the table under it
    · rw [htables, List.mem_singleton] at hentry
      obtain ⟨-, rfl⟩ := (Query.write_eq_bare_iff (hadds.bare _ htable)).1 hentry.symm
      exact hlast
  · intro hlast
    refine ⟨_, hlast, ?_⟩
    have hwrite : TableReference.write ⟨start.profile.mainTable, start.profile.mainTable⟩ =
        start.profile.mainTable := if_pos rfl
    rw [hwrite]
    by_cases hmany : 1 < w.query.tables.length
    · exact .inl ⟨hmany, rfl⟩
    · right
      obtain ⟨entry, hone⟩ := List.length_eq_one_iff.1
        (le_antisymm (not_lt.1 hmany) (List.length_pos_of_mem hentry))
      rw [hone, List.mem_singleton] at hentry
      rw [hone, hentry]

/-! ## Boxes in boxes -/

/-- Lids are reached by a join, whatever else stands in a box by a condition. -/
def boxKind (name : String) : RelationKind :=
  if name = "lids" then .join else .filter

/-- Boxes, which stand in boxes. Each relation uses them once more. -/
def boxes : Domain where
  profile :=
    { name := "boxes", mainTable := "boxes", mainClass := "Box"
      default := fun key => if key = "scope" then some "within" else none
      scope := fun name _ => .ok (if name = "within" then some (.compare "box_id" "id") else none)
      missingTable := fun name _ q => .ok (q.addFilter (name ++ ".id = 0")) }
  relation := fun host kind name =>
    if kind = boxKind name then do
      host.addTable "boxes"
      return true
    else return false
  field := fun _ name => do
    return some (Host.currentTable (← get) ++ "." ++ name)

/-- The boxes and no other domain. -/
def boxCatalog : Catalog :=
  Catalog.addDomain boxes {}

/-- The moves of the relations of boxes. -/
def boxMoves (_ : String) (kind : RelationKind) (name : String) : Option (List TableMove) :=
  if kind = boxKind name then some [.use "boxes"] else none

/-- The only domain of the catalog. -/
theorem eq_boxes {name : String} {domain : Domain} (h : boxCatalog.domains.find? name = some domain) :
    name = "boxes" ∧ domain = boxes := by
  rw [show boxCatalog.domains = Dictionary.empty.insert "boxes" boxes from rfl, Dictionary.find?_insert] at h
  split at h
  · next hname =>
    cases h
    exact ⟨hname.symm, rfl⟩
  · cases h

/-- The name of the boxes is not that of a use of another table. -/
theorem isBare_boxes : Query.IsBare "boxes" := by
  intro other name heq
  have hmem : ' ' ∈ "boxes".toList := by
    rw [heq]
    simp
  exact absurd hmem (by decide)

theorem adds_boxCatalog : boxCatalog.Adds {} boxMoves where
  named name domain h := by
    obtain ⟨rfl, rfl⟩ := eq_boxes h
    rfl
  bare table := by
    rintro ⟨name, domain, h, rfl⟩
    obtain ⟨rfl, rfl⟩ := eq_boxes h
    exact isBare_boxes
  declines name domain h kind relation hmoves host w := by
    obtain ⟨rfl, rfl⟩ := eq_boxes h
    rw [boxMoves, ite_eq_right_iff] at hmoves
    have hkind : kind ≠ boxKind relation := fun hkind => absurd (hmoves hkind) (by simp)
    have hhook : boxes.relation host kind relation = pure false := if_neg hkind
    rw [hhook, runFrom_pure]
  performs name domain h kind relation steps hmoves host _ := by
    obtain ⟨rfl, rfl⟩ := eq_boxes h
    obtain ⟨hkind, rfl⟩ : kind = boxKind relation ∧ [TableMove.use "boxes"] = steps := by
      simpa [boxMoves] using hmoves
    have hhook : boxes.relation host kind relation = (do
        let _ ← (pure () : WalkM Unit)
        TableMove.run host (.use "boxes")
        pure true) := if_pos hkind
    rw [hhook]
    exact .move (.pure ()) fun _ => .done (.pure true) fun w => by simp [runFrom_pure]
  expressions name domain h := by
    obtain ⟨rfl, rfl⟩ := eq_boxes h
    exact ⟨fun _ _ _ => .bind .get fun _ => .pure _, fun _ _ _ _ => .pure _, fun _ _ _ _ => .pure _⟩
  mends name domain h := by
    obtain ⟨rfl, rfl⟩ := eq_boxes h
    rintro name table q mended ⟨⟩
    exact ⟨_, rfl⟩
  before name domain h host w := by
    obtain ⟨rfl, rfl⟩ := eq_boxes h
    exact Yields.pure () w
  after name domain h host _ := by
    obtain ⟨rfl, rfl⟩ := eq_boxes h
    exact .pure ()
  custom := .inl rfl

/-- A relation in parentheses that reaches boxes. -/
def someBoxes : Tree :=
  .node .clausePar [.leaf .relation "boxes"]

/-- Boxes in boxes, in parentheses. -/
def innerBoxes : Tree :=
  .node .clausePar [.node .from_ [.leaf .relation "boxes", .leaf .relation "boxes"]]

/-- The query for the boxes of an alternative. -/
def boxQuery (tables names : List String) (filter : String) : Query :=
  { Query.new .generic "boxes" "Box" with
    tables, tableAlias := Dictionary.empty.insert "boxes" names, filters := [filter], distinct := true }

/-- The query for boxes in boxes, or for boxes. -/
def innerOrBoxes : Query :=
  boxQuery ["boxes AS bo1", "boxes"] ["bo1", "boxes"]
    "((boxes.box_id = bo1.id AND bo1.box_id = [[id]]) OR (bo1.id = 0 AND boxes.box_id = [[id]]))"

/-- The query for boxes, or for boxes in boxes. -/
def boxesOrInner : Query :=
  boxQuery ["boxes", "boxes AS bo1"] ["boxes", "bo1"]
    "((bo1.id = 0 AND boxes.box_id = [[id]]) OR (boxes.box_id = bo1.id AND bo1.box_id = [[id]]))"

/-- A source that compiles, from its tree and its walk. -/
theorem compile_boxes {source : String} {tree : Tree} {q : Query} (hparse : parse source = .ok tree)
    (hwalk : ((boxCatalog.walk {} tree).runFrom (boxCatalog.start {} boxes)).1 = .ok ())
    (hquery : ((boxCatalog.walk {} tree).runFrom (boxCatalog.start {} boxes)).2.query = q) :
    boxCatalog.compile {} "boxes" source = .ok q := by
  have hdomain : boxCatalog.domains.find? "boxes" = some boxes := rfl
  have hrun : (boxCatalog.walk {} tree).runFrom (boxCatalog.start {} boxes) =
      (.ok (), ((boxCatalog.walk {} tree).runFrom (boxCatalog.start {} boxes)).2) := Prod.ext hwalk rfl
  rw [Catalog.compile_of_run hdomain hparse hrun, hquery]

theorem isClausal_boxes : IsClausal someBoxes ∧ IsClausal innerBoxes :=
  ⟨.clausePar (.relation "boxes"), .clausePar (.from_ (.relation "boxes") (.relation "boxes"))⟩

/-- A later branch that uses boxes less often than the first one leaves the bare name as the newest. -/
theorem inner_or_boxes_sameOccurrence :
    boxCatalog.compile {} "boxes" "(boxes from boxes) or (boxes)" = .ok innerOrBoxes ∧
      innerOrBoxes.aliases "boxes" = ["bo1", "boxes"] ∧ innerOrBoxes.SameOccurrence := by
  have hparse : parse "(boxes from boxes) or (boxes)" =
      .ok (.node .query [.node .clauseOr [innerBoxes, someBoxes]]) := by decide +kernel
  have hcompile : boxCatalog.compile {} "boxes" "(boxes from boxes) or (boxes)" = .ok innerOrBoxes :=
    compile_boxes hparse (by decide +kernel) (by decide +kernel)
  have hclausal : IsClausal (.node .clauseOr [innerBoxes, someBoxes]) :=
    .clauseOr (by simp [isClausal_boxes])
  obtain ⟨-, -, hsame, hregister⟩ := compile_sameOccurrence_iff hcompile rfl rfl
  obtain ⟨-, hnames⟩ := hregister adds_boxCatalog rfl hparse rfl hclausal
  have haliases : innerOrBoxes.aliases "boxes" = ["bo1", "boxes"] := hnames.trans (by decide +kernel)
  refine ⟨hcompile, haliases, hsame.2 ⟨"boxes", ?_, .inl ⟨by decide, rfl⟩⟩⟩
  exact (congrArg List.getLast? haliases).trans rfl

/-- **A later branch that uses boxes once more has the newest name.** The boxes are found by their bare
name, and counted by the use that holds them. -/
theorem boxes_or_inner_not_sameOccurrence :
    boxCatalog.compile {} "boxes" "(boxes) or (boxes from boxes)" = .ok boxesOrInner ∧
      boxesOrInner.distinct = true ∧ boxesOrInner.group = none ∧
      boxesOrInner.groupClause = " GROUP BY boxes.id" ∧ boxesOrInner.counted = "COUNT(DISTINCT bo1.id)" ∧
      ¬ boxesOrInner.SameOccurrence := by
  have hparse : parse "(boxes) or (boxes from boxes)" =
      .ok (.node .query [.node .clauseOr [someBoxes, innerBoxes]]) := by decide +kernel
  have hcompile : boxCatalog.compile {} "boxes" "(boxes) or (boxes from boxes)" = .ok boxesOrInner :=
    compile_boxes hparse (by decide +kernel) (by decide +kernel)
  refine ⟨hcompile, rfl, rfl, by decide +kernel, by decide +kernel, ?_⟩
  rw [Query.sameOccurrence_iff rfl rfl]
  rintro ⟨newest, hnewest, ⟨-, rfl⟩ | htables⟩
  · exact absurd hnewest (by decide +kernel)
  · exact absurd (congrArg List.length htables) (by simp [boxesOrInner, boxQuery])

end RelationSql
