import RelationSql.Proofs.Query.Register
import RelationSql.Proofs.Walk.FromChain
import RelationSql.Proofs.Walk.Keeps
import RelationSql.Proofs.Walk.Merge

/-!
# The names that a source gives to its tables

Which names a table is used under depends on little of a source: on the relations, where they stand in
their chains, and in which branches. A register holds the names and the active domain, and
`Tree.register` takes it through a tree. It is what a walk over the tree arrives at
(`Catalog.Adds.register_holds`), as long as relations add uses of tables by `addTable` and nothing else
does.
-/

namespace RelationSql

open Grammar WalkM RelationSql.Part

/-! ## Registers -/

/-- What a relation does with tables: it adds a use of one, or hands the walk over to a domain. -/
inductive TableMove where
  | use (table : String)
  | enter (domain : String)
  deriving DecidableEq, Repr

/-- The active domain, and the names under which each table is used so far. -/
structure Register where
  profile : Profile
  names : String → List String

/-- Where a relation stands: is it the outermost of its chain, and in which scope? -/
structure Place where
  first : Bool := true
  scope : Option String := none

namespace Register

/-- A further use of a table. -/
def use (table : String) (avoidAlias : Bool) (r : Register) : Register :=
  { r with
    names := Function.update r.names table
      (r.names table ++ [Query.nextName table (r.names table) avoidAlias]) }

@[simp] theorem profile_use (table : String) (avoidAlias : Bool) (r : Register) :
    (r.use table avoidAlias).profile = r.profile := rfl

theorem names_use (table : String) (avoidAlias : Bool) (r : Register) :
    (r.use table avoidAlias).names table =
      r.names table ++ [Query.nextName table (r.names table) avoidAlias] :=
  Function.update_self ..

theorem names_use_of_ne {table other : String} (h : other ≠ table) (avoidAlias : Bool) (r : Register) :
    (r.use table avoidAlias).names other = r.names other :=
  Function.update_of_ne h ..

/-- A further use of the main table, and one before it for the scope of a join that needs one. -/
def useMain (place : Place) (kind : Option RelationKind) (r : Register) : Register :=
  let once := r.use r.profile.mainTable place.first
  if kind = some .join ∧ (place.scope.filter r.profile.needsJoinScope).isSome then
    once.use r.profile.mainTable place.first
  else once

theorem useMain_twice {place : Place} {r : Register}
    (h : (place.scope.filter r.profile.needsJoinScope).isSome) : r.useMain place (some .join) =
      (r.use r.profile.mainTable place.first).use r.profile.mainTable place.first :=
  if_pos ⟨rfl, h⟩

theorem useMain_once {place : Place} {kind : Option RelationKind} {r : Register}
    (h : ¬ (kind = some .join ∧ (place.scope.filter r.profile.needsJoinScope).isSome)) :
    r.useMain place kind = r.use r.profile.mainTable place.first :=
  if_neg h

@[simp] theorem profile_useMain (place : Place) (kind : Option RelationKind) (r : Register) :
    (r.useMain place kind).profile = r.profile := by
  by_cases h : kind = some .join ∧ (place.scope.filter r.profile.needsJoinScope).isSome
  · rw [h.1, useMain_twice h.2, profile_use, profile_use]
  · rw [useMain_once h, profile_use]

/-- The kind of relation that is left to be considered after a use of the main table. -/
def kindAfter : Option RelationKind → Option RelationKind
  | some .join | some .filter => none
  | kind => kind

/-- A move of a relation, whose kind is considered at its first use of the main table. -/
def move (catalog : Catalog) (place : Place) (state : Option RelationKind × Register) :
    TableMove → Option RelationKind × Register
  | .use table =>
    if table = state.2.profile.mainTable then (kindAfter state.1, state.2.useMain place state.1)
    else (state.1, state.2.use table true)
  | .enter name =>
    match catalog.domains.find? name with
    | some domain => (state.1, { state.2 with profile := domain.profile })
    | none => state

variable (catalog : Catalog) (moves : String → RelationKind → String → Option (List TableMove))

/-- A relation of one of these kinds: the first kind that the domain knows it by counts. -/
def resolveAs (place : Place) (name : String) (r : Register) : List RelationKind → Register
  | [] => r
  | kind :: kinds =>
    match moves r.profile.name kind name with
    | some steps =>
      (steps.foldl (move catalog place) (if kind = .class_ then none else some kind, r)).2
    | none => resolveAs place name r kinds

/-- The register behind the branches of an alternative. -/
def unite (r : Register) (branches : List Register) : Register :=
  { r with names := Query.unite r.names (branches.map names) }

end Register

namespace Tree

variable (catalog : Catalog) (moves : String → RelationKind → String → Option (List TableMove))

mutual

/-- The register behind a tree. -/
def register (place : Place) : Tree → Register → Register
  | .node .relation [.atom name], r => r.resolveAs catalog moves place name RelationKind.all
  | .node .scope [t, .atom name], r => register { place with scope := some name } t r
  | .node .from_ [outer, inner], r =>
    register place outer (register { place with first := false } inner r)
  | .node .clauseOr ts, r => r.unite (branchRegisters place ts r)
  | .node _ (t :: _), r => register place t r
  | _, r => r

/-- The registers behind the branches of an alternative, each of them taken on its own. -/
def branchRegisters (place : Place) : List Tree → Register → List Register
  | [], _ => []
  | .node .clauseOr ts :: more, r => branchRegisters place ts r ++ branchRegisters place more r
  | t :: more, r => register place t r :: branchRegisters place more r

end

end Tree

/-! ## Steps from one property to another -/

/-- From a state with the first property, the steps succeed in states with the second one only. -/
def Leads {α : Type} (P : Walk → Prop) (steps : WalkM α) (Q : α → Walk → Prop) : Prop :=
  ∀ w, P w → ∀ a left, steps.runFrom w = (.ok a, left) → Q a left

namespace Leads

variable {α β : Type} {P : Walk → Prop} {Q : α → Walk → Prop} {S : β → Walk → Prop} {steps : WalkM α}
  {next : α → WalkM β}

theorem bind (h : Leads P steps Q) (hnext : ∀ a, Leads (Q a) (next a) S) :
    Leads P (steps >>= next) S := by
  intro w hw b left hrun
  obtain ⟨a, middle, hsteps, hrest⟩ := runFrom_bind_eq_ok hrun
  exact hnext a middle (h w hw a middle hsteps) b left hrest

theorem pure {a : α} (h : ∀ w, P w → Q a w) : Leads P (Pure.pure a) Q := by
  intro w hw b left hrun
  rw [runFrom_pure] at hrun
  cases hrun
  exact h w hw

theorem throw (fault : CompileError) : Leads P (MonadExcept.throw fault : WalkM α) Q := by
  intro w _ a left hrun
  rw [runFrom_throw] at hrun
  cases hrun

/-- A step that only reads. What it yields may be used, and the state is as it was. -/
theorem read {p : α → Prop} (h : ∀ w, P w → ∃ a, Yields steps w a ∧ p a)
    (hnext : ∀ a, p a → Leads P (next a) S) : Leads P (steps >>= next) S := by
  intro w hw b left hrun
  obtain ⟨a, hsteps, ha⟩ := h w hw
  rw [runFrom_bind_of_ok hsteps] at hrun
  exact hnext a ha w hw b left hrun

theorem imp {P' : Walk → Prop} {Q' : α → Walk → Prop} (h : Leads P steps Q)
    (hP : ∀ w, P' w → P w) (hQ : ∀ a w, Q a w → Q' a w) : Leads P' steps Q' :=
  fun w hw a left hrun => hQ a left (h w (hP w hw) a left hrun)

/-- Steps that keep a relation keep every property that lasts under it. -/
theorem of_keeps {R : Walk → Walk → Prop} (h : Keeps R steps)
    (hP : ∀ w w', P w → R w w' → P w') : Leads P steps fun _ => P := by
  intro w hw a left hrun
  have hkept := h w
  rw [hrun] at hkept
  exact hP w left hw hkept

/-- Steps that are run in a context of their own. -/
theorem within {change : Context → Context} {C : Context → Prop} {H : Walk → Prop} {K : α → Walk → Prop}
    (h : ∀ context, C context → Leads (fun w => H w ∧ w.context = change context) steps K)
    (hH : ∀ w context, H w → H { w with context := context })
    (hK : ∀ a w context, K a w → K a { w with context := context }) :
    Leads (fun w => H w ∧ C w.context) (WalkM.within change steps) fun a w => K a w ∧ C w.context := by
  rintro w ⟨hw, hcontext⟩ a left hrun
  rw [runFrom_within] at hrun
  obtain ⟨hok, rfl⟩ := Prod.mk.inj hrun
  exact ⟨hK _ _ _ (h w.context hcontext _ ⟨hH w _ hw, rfl⟩ a _ (Prod.ext hok rfl)), hcontext⟩

end Leads

/-! ## What a register says of a walk -/

/-- The table is the main table of a domain. -/
def Catalog.IsMain (catalog : Catalog) (table : String) : Prop :=
  ∃ name domain, catalog.domains.find? name = some domain ∧ domain.profile.mainTable = table

/-- The walk is in the hands of the domain of the register, and uses the main tables of all domains under
its names. -/
structure Register.Holds (catalog : Catalog) (r : Register) (w : Walk) : Prop where
  domain : w.domain = r.profile.name
  mainTable : w.query.mainTable = r.profile.mainTable
  known : (catalog.domains.find? r.profile.name).map Domain.profile = some r.profile
  lists : w.query.Lists catalog.IsMain r.names

/-- The walk uses the tables as it did before, and it is still at the same relation. -/
structure Walk.SameUses (tables : String → Prop) (w w' : Walk) : Prop where
  domain : w'.domain = w.domain
  mainTable : w'.query.mainTable = w.query.mainTable
  aliases : ∀ table, tables table → w'.query.aliases table = w.query.aliases table
  bare : ∀ table, tables table → (table ∈ w'.query.tables ↔ table ∈ w.query.tables)
  relation : w.context.SameRelation w'.context

instance lasting_sameUses (tables : String → Prop) : Lasting (Walk.SameUses tables) where
  refl := fun _ => ⟨rfl, rfl, fun _ _ => rfl, fun _ _ => Iff.rfl, rfl, rfl, rfl⟩
  trans := fun h h' =>
    ⟨h'.domain.trans h.domain, h'.mainTable.trans h.mainTable,
      fun table ht => (h'.aliases table ht).trans (h.aliases table ht),
      fun table ht => (h'.bare table ht).trans (h.bare table ht),
      h'.relation.first.trans h.relation.first, h'.relation.scope.trans h.relation.scope,
      h'.relation.scopeType.trans h.relation.scopeType⟩
  context := fun _ _ h => ⟨rfl, rfl, fun _ _ => rfl, fun _ _ => Iff.rfl, h⟩
  within := fun h => ⟨h.domain, h.mainTable, h.aliases, h.bare, rfl, rfl, rfl⟩
  query := fun w q h => by
    refine ⟨rfl, h.mainTable, fun table _ => ?_, fun table _ => ?_, rfl, rfl, rfl⟩
    · show q.aliases table = _
      rw [Query.aliases, Query.aliases, h.tableAlias]
    · show table ∈ q.tables ↔ _
      rw [h.tables]

variable {catalog : Catalog} {r : Register} {w w' : Walk}

theorem Register.Holds.keep (h : r.Holds catalog w) (hw : w.SameUses catalog.IsMain w') :
    r.Holds catalog w' where
  domain := hw.domain.trans h.domain
  mainTable := hw.mainTable.trans h.mainTable
  known := h.known
  lists :=
    ⟨fun table ht => (hw.aliases table ht).trans (h.lists.aliases table ht),
      fun table ht => (hw.bare table ht).trans (h.lists.bare table ht)⟩

/-- A register says nothing of the context. -/
theorem Register.Holds.inContext (h : r.Holds catalog w) (context : Context) :
    r.Holds catalog { w with context := context } :=
  ⟨h.domain, h.mainTable, h.known, h.lists⟩

theorem Register.Holds.isMain (h : r.Holds catalog w) : catalog.IsMain r.profile.mainTable := by
  obtain ⟨domain, hfound, hprofile⟩ := Option.map_eq_some_iff.1 h.known
  exact ⟨_, domain, hfound, by rw [hprofile]⟩

theorem Register.Holds.use (h : r.Holds catalog w) (hbare : ∀ table, catalog.IsMain table → Query.IsBare table)
    (table : String) (avoidAlias : Bool) :
    (r.use table avoidAlias).Holds catalog
      { w with query := w.query.addTable table table avoidAlias } :=
  ⟨h.domain, h.mainTable, h.known, h.lists.addTable hbare table avoidAlias⟩

/-! ## Domains that add uses -/

/-- The steps of a move. -/
def TableMove.run (host : Host) : TableMove → WalkM Unit
  | use table => host.addTable table
  | enter domain => host.changeDomain domain

/-- A hook that makes these moves and knows the relation: between them there is nothing that uses a table.
A relation that is no join may ask for the default scope. -/
inductive Performs (catalog : Catalog) (host : Host) (kind : RelationKind) :
    List TableMove → WalkM Bool → Prop where
  | done {steps : WalkM Bool} (h : Keeps (Walk.SameUses catalog.IsMain) steps)
      (haccepts : ∀ w, (steps.runFrom w).1 ≠ .ok false) : Performs catalog host kind [] steps
  | move {α : Type} {before : WalkM α} {move : TableMove} {moves : List TableMove} {next : α → WalkM Bool}
      (hbefore : Keeps (Walk.SameUses catalog.IsMain) before)
      (hnext : ∀ a, Performs catalog host kind moves (next a)) :
      Performs catalog host kind (move :: moves) (do
        let a ← before
        move.run host
        next a)
  | inDefaultScope {moves : List TableMove} {next : WalkM Bool} (hkind : kind ≠ .join)
      (hnext : Performs catalog host kind moves next) :
      Performs catalog host kind moves (do
        host.useDefaultScope
        next)

/-- The relations of all domains make these moves, or are declined where there are none, and nothing else
adds tables: no custom query takes part, no hook runs before a walk, and branches are mended by
conditions. -/
structure Catalog.Adds (catalog : Catalog) (options : Options)
    (moves : String → RelationKind → String → Option (List TableMove)) : Prop where
  named : ∀ name domain, catalog.domains.find? name = some domain → domain.profile.name = name
  bare : ∀ table, catalog.IsMain table → Query.IsBare table
  declines : ∀ name domain, catalog.domains.find? name = some domain → ∀ kind relation,
    moves name kind relation = none →
      ∀ host w, (domain.relation host kind relation).runFrom w = (.ok false, w)
  performs : ∀ name domain, catalog.domains.find? name = some domain → ∀ kind relation steps,
    moves name kind relation = some steps → ∀ host, host.Keeps (Walk.SameUses catalog.IsMain) →
      Performs catalog host kind steps (domain.relation host kind relation)
  expressions : ∀ name domain, catalog.domains.find? name = some domain →
    domain.Keeps (Walk.SameUses catalog.IsMain)
  mends : ∀ name domain, catalog.domains.find? name = some domain → domain.profile.OnlyAddsFilters
  before : ∀ name domain, catalog.domains.find? name = some domain →
    ∀ host w, Yields (domain.before host) w ()
  after : ∀ name domain, catalog.domains.find? name = some domain → ∀ host : Host,
    host.Keeps (Walk.SameUses catalog.IsMain) → Keeps (Walk.SameUses catalog.IsMain) (domain.after host)
  custom : options.group = none ∨ catalog.customQueries = .empty

/-! ## One relation -/

/-- The walk is at a relation at this place. Its kind is still to be considered if there is one; a join is
considered in the scope of the place. -/
structure Register.During (catalog : Catalog) (place : Place) (state : Option RelationKind × Register)
    (w : Walk) : Prop where
  holds : state.2.Holds catalog w
  first : w.context.first = place.first
  kind : w.context.scopeType = state.1
  scope : state.1 = some .join → w.context.scope = place.scope

theorem Register.During.keep {place : Place} {state : Option RelationKind × Register}
    (h : During catalog place state w) (hw : w.SameUses catalog.IsMain w') :
    During catalog place state w' where
  holds := h.holds.keep hw
  first := hw.relation.first.trans h.first
  kind := hw.relation.scopeType.trans h.kind
  scope := fun hkind => hw.relation.scope.trans (h.scope hkind)

section Relation

variable {options : Options} {depth : Nat} {place : Place} {state : Option RelationKind × Register}
  {moves : String → RelationKind → String → Option (List TableMove)} (h : catalog.Adds options moves)

include h in
theorem Catalog.Adds.host_keeps (depth : Nat) :
    (catalog.host options depth).Keeps (Walk.SameUses catalog.IsMain) :=
  Catalog.host_keeps h.expressions options depth

/-- The profile of the active domain is that of the register. -/
theorem Register.Holds.activeProfile (h : r.Holds catalog w) :
    Yields (catalog.host options depth).activeProfile w r.profile := by
  have hprofile : (catalog.host options depth).profile? w.domain = some r.profile := by
    rw [h.domain]
    cases depth <;> exact h.known
  refine (yields_get w).bind ?_
  dsimp only
  rw [hprofile]
  exact Yields.pure _ w

include h in
/-- A use is added while the kind of the relation has been considered or does not count. -/
theorem leads_use {table : String} :
    Leads (Register.During catalog place state)
      (modifyQuery (Query.addTable table table place.first)) fun _ =>
        Register.During catalog place (state.1, state.2.use table place.first) := by
  rintro w hw _ _ ⟨⟩
  exact ⟨hw.holds.use h.bare table place.first, hw.first, hw.kind, hw.scope⟩

/-- Steps that keep the uses of tables stay at the relation. -/
theorem leads_of_keeps {α : Type} {steps : WalkM α} (h : Keeps (Walk.SameUses catalog.IsMain) steps) :
    Leads (Register.During catalog place state) steps fun _ => Register.During catalog place state :=
  .of_keeps h fun _ _ => Register.During.keep

/-- The kind of the relation has been considered. The scope of the place is still there. -/
theorem leads_considered :
    Leads (Register.During catalog place state) (modifyContext fun c => { c with scopeType := none })
      fun _ w => Register.During catalog place (none, state.2) w ∧
        (state.1 = some .join → w.context.scope = place.scope) := by
  rintro w hw _ _ ⟨⟩
  exact ⟨⟨hw.holds.inContext _, hw.first, rfl, nofun⟩, hw.scope⟩

/-- The scope that is applied before a join. -/
theorem yields_joinScope (hw : Register.During catalog place (none, r) w)
    (hscope : w.context.scope = place.scope) :
    Yields (catalog.host options depth).joinScope w (place.scope.filter r.profile.needsJoinScope) := by
  refine hw.holds.activeProfile.bind ((yields_context w).bind ?_)
  rw [← hscope]
  exact Yields.pure _ w

include h in
/-- **What a use of the main table adds to the register.** -/
theorem leads_addMainTable :
    Leads (Register.During catalog place state)
      ((catalog.host options depth).addMainTable state.2.profile.mainTable state.2.profile.mainTable)
      fun _ => Register.During catalog place
        (Register.kindAfter state.1, state.2.useMain place state.1) := by
  refine .read (p := fun c => c.first = place.first) (fun w hw => ⟨_, yields_context w, hw.first⟩)
    fun c hfirst => ?_
  rw [hfirst]
  have halias : Leads (Register.During catalog place state)
      (modifyContext fun c => { c with tableAlias := some state.2.profile.mainTable }) fun _ =>
        Register.During catalog place state :=
    leads_of_keeps (.modifyContext fun _ => ⟨rfl, rfl, rfl⟩)
  -- the override of the alias uses no table, so both cases go on in the same way
  dsimp only
  split
  refine halias.bind fun _ => ?_
  all_goals
    refine .read (p := fun c => c.scopeType = state.1) (fun w hw => ⟨_, yields_context w, hw.kind⟩)
      fun c hkind => ?_
    rw [hkind]
    obtain ⟨kind, r⟩ := state
    dsimp only
    split
    -- a join in a scope uses the table twice, with the scope applied in between
    · refine leads_considered.bind fun _ => ?_
      refine .read (p := fun found => found = place.scope.filter r.profile.needsJoinScope)
        (fun w hw => ⟨_, yields_joinScope hw.1 (hw.2 rfl), rfl⟩) fun found hfound => ?_
      refine .imp (P := Register.During catalog place (none, r)) ?_ (fun w hw => hw.1) fun _ _ => id
      cases found with
      | none =>
        rw [Register.useMain_once (by simp [← hfound])]
        exact leads_use h
      | some scope =>
        rw [Register.useMain_twice (by simp [← hfound])]
        refine (leads_use h).bind fun _ => ?_
        exact (leads_of_keeps (Host.keeps_applyScope (h.host_keeps depth).field scope)).bind fun _ => leads_use h
    · refine leads_considered.bind fun _ => ?_
      refine .imp (P := Register.During catalog place (none, r)) ?_ (fun w hw => hw.1) fun _ _ => id
      refine (leads_use h).bind fun _ => leads_of_keeps ?_
      refine .bind .context fun c => ?_
      split
      · exact Host.keeps_applyScope (h.host_keeps depth).field _
      · exact .bind (Host.keeps_defaultScope _) fun _ => Host.keeps_applyScope? (h.host_keeps depth).field _
    · next hjoin hfilter =>
      have hafter : Register.kindAfter kind = kind := by
        unfold Register.kindAfter
        split
        · exact absurd rfl hjoin
        · exact absurd rfl hfilter
        · rfl
      rw [Register.useMain_once fun hboth => hjoin hboth.1, hafter]
      exact leads_use h

/-! ### Hooks -/

include h in
/-- **What a move adds to the register.** -/
theorem leads_move (move : TableMove) :
    Leads (Register.During catalog place state) (move.run (catalog.host options depth)) fun _ =>
      Register.During catalog place (Register.move catalog place state move) := by
  cases move with
  | use table =>
    refine .read (p := fun q => q.mainTable = state.2.profile.mainTable)
      (fun w hw => ⟨_, yields_query w, hw.holds.mainTable⟩) fun q hmain => ?_
    rw [hmain, Register.move]
    split
    · next heq =>
      rw [heq]
      exact leads_addMainTable h
    · rintro w hw _ _ ⟨⟩
      exact ⟨hw.holds.use h.bare table true, hw.first, hw.kind, hw.scope⟩
  | enter name =>
    have hprofile : (catalog.host options depth).profile? name =
        (catalog.domains.find? name).map Domain.profile := by
      cases depth <;> rfl
    show Leads _ ((catalog.host options depth).changeDomain name) _
    rw [Host.changeDomain, hprofile, Register.move]
    cases hfound : catalog.domains.find? name with
    | none => exact .throw _
    | some domain =>
      rintro w hw _ _ ⟨⟩
      have hknown : (catalog.domains.find? domain.profile.name).map Domain.profile =
          some domain.profile := by
        rw [h.named name domain hfound, hfound]
        rfl
      exact ⟨⟨rfl, rfl, hknown, hw.holds.lists.aliases, hw.holds.lists.bare⟩, hw.first, hw.kind, hw.scope⟩

/-- A use of the default scope keeps all that counts for a relation that is no join. -/
theorem leads_useDefaultScope (hkind : state.1 ≠ some .join) :
    Leads (Register.During catalog place state) (catalog.host options depth).useDefaultScope fun _ =>
      Register.During catalog place state := by
  refine .read (p := fun _ => True) (fun w _ => ⟨_, yields_context w, trivial⟩) fun c _ => ?_
  split
  · refine (leads_of_keeps (Host.keeps_defaultScope _)).bind fun scope => ?_
    rintro w hw _ _ ⟨⟩
    exact ⟨hw.holds.inContext _, hw.first, hw.kind, fun hjoin => absurd hjoin hkind⟩
  · exact .pure fun _ => id

/-- A move leaves the kind of the relation or has considered it. -/
theorem Register.move_kind (move : TableMove) {kind : RelationKind}
    (hkind : state.1 = none ∨ state.1 = some kind) :
    (Register.move catalog place state move).1 = none ∨
      (Register.move catalog place state move).1 = some kind := by
  unfold Register.move
  cases move with
  | use table =>
    dsimp only
    split
    · unfold Register.kindAfter
      split
      · exact .inl rfl
      · exact .inl rfl
      · exact hkind
    · exact hkind
  | enter name =>
    dsimp only
    split <;> exact hkind

include h in
/-- **What a hook adds to the register**: move by move. -/
theorem leads_of_performs {kind : RelationKind} {steps : List TableMove} {hook : WalkM Bool}
    (hhook : Performs catalog (catalog.host options depth) kind steps hook)
    (hkind : state.1 = none ∨ state.1 = some kind) :
    Leads (Register.During catalog place state) hook fun known w =>
      known = true ∧ (steps.foldl (Register.move catalog place) state).2.Holds catalog w := by
  induction hhook generalizing state with
  | done hkeeps haccepts =>
    intro w hw known left hrun
    have hknown : known = true := by
      have haccepts := haccepts w
      rw [hrun] at haccepts
      simpa using haccepts
    exact ⟨hknown, (leads_of_keeps hkeeps w hw known left hrun).holds⟩
  | @move _ _ move _ _ hbefore _ ih =>
    refine (leads_of_keeps hbefore).bind fun a => ?_
    exact (leads_move h move).bind fun _ => ih a (Register.move_kind move hkind)
  | inDefaultScope hjoin _ ih =>
    have hstate : state.1 ≠ some .join := by
      rcases hkind with hkind | hkind
      · simp [hkind]
      · simpa [hkind] using hjoin
    exact (leads_useDefaultScope hstate).bind fun _ => ih hkind

/-! ### Asking -/

/-- The walk is about to resolve a relation at this place. -/
structure Register.Before (catalog : Catalog) (place : Place) (r : Register) (w : Walk) : Prop where
  holds : r.Holds catalog w
  first : w.context.first = place.first
  scope : w.context.scope = place.scope

/-- The hook of a domain of the catalog. -/
theorem runFrom_relation_of_find? {domain : Domain} {name : String}
    (hfound : catalog.domains.find? name = some domain) (kind : RelationKind) (relation : String)
    (w : Walk) :
    ((catalog.host options (depth + 1)).relation name kind relation).runFrom w =
      (domain.relation (catalog.host options depth) kind relation).runFrom w :=
  runFrom_bind_of_ok (yields_domain hfound w) fun found =>
    found.relation (catalog.host options depth) kind relation

include h in
/-- **The first kind by which the domain knows a relation counts.** -/
theorem leads_askDomain (name : String) (kinds : List RelationKind) (htail : .class_ ∉ kinds.tail) :
    Leads (fun w => Register.Before catalog place r w ∧ (.class_ ∈ kinds → w.context.scopeType = none))
      (Clause.askDomain (catalog.host options (depth + 1)) r.profile.name name kinds) fun _ =>
        (r.resolveAs catalog moves place name kinds).Holds catalog := by
  induction kinds with
  | nil => exact .throw _
  | cons kind kinds ih =>
    rw [List.tail_cons] at htail
    have hrest : Leads (fun w => Register.Before catalog place r w ∧
          w.context.scopeType = if kind = .class_ then none else some kind)
        (do
          if ← (catalog.host options (depth + 1)).relation r.profile.name kind name then return
          else Clause.askDomain (catalog.host options (depth + 1)) r.profile.name name kinds) fun _ =>
        (r.resolveAs catalog moves place name (kind :: kinds)).Holds catalog := by
      rintro w ⟨hw, hkind⟩ _ left hrun
      obtain ⟨domain, hfound, hprofile⟩ := Option.map_eq_some_iff.1 hw.holds.known
      obtain ⟨known, middle, hhook, hrest⟩ := runFrom_bind_eq_ok hrun
      rw [runFrom_relation_of_find? hfound] at hhook
      rw [Register.resolveAs]
      cases hmoves : moves r.profile.name kind name with
      | none =>
        rw [h.declines _ domain hfound kind name hmoves] at hhook
        cases hhook
        -- a domain that declines leaves the walk as it was, so the next kind is asked from the same state
        refine ih (fun hmem => htail (List.mem_of_mem_tail hmem)) w ⟨hw, fun hmem => ?_⟩ _ left hrest
        exact absurd hmem htail
      | some steps =>
        have hperforms := h.performs _ domain hfound kind name steps hmoves _ (h.host_keeps depth)
        have hduring : Register.During catalog place
            (if kind = .class_ then none else some kind, r) w :=
          ⟨hw.holds, hw.first, hkind, fun _ => hw.scope⟩
        have hstate : (if kind = .class_ then none else some kind) = none ∨
            (if kind = .class_ then none else some kind) = some kind := by
          split
          · exact .inl rfl
          · exact .inr rfl
        obtain ⟨rfl, hholds⟩ :=
          leads_of_performs h hperforms hstate w hduring known middle hhook
        cases hrest
        exact hholds
    rw [Clause.askDomain]
    dsimp only
    by_cases hclass : kind = .class_
    · rw [if_neg (by simpa using hclass)]
      refine hrest.imp ?_ fun _ _ => id
      rintro w ⟨hw, hkind⟩
      rw [if_pos hclass]
      exact ⟨hw, hkind (hclass ▸ List.mem_cons_self)⟩
    · rw [if_pos hclass]
      refine .bind ?_ fun _ => hrest
      rintro w ⟨hw, -⟩ _ _ ⟨⟩
      rw [if_neg hclass]
      exact ⟨⟨hw.holds.inContext _, hw.first, hw.scope⟩, rfl⟩

include h in
/-- **What a relation adds to the register.** -/
theorem leads_relation (name : String) :
    Leads (fun w => Register.Before catalog place r w ∧ w.context.scopeType = none)
      (Clause.relation (catalog.host options (depth + 1)) name) fun _ =>
        (r.resolveAs catalog moves place name RelationKind.all).Holds catalog := by
  rintro w ⟨hw, hkind⟩ a left hrun
  rw [Clause.relation, runFrom_bind_of_ok (yields_get w), customQuery?_eq_none h.custom,
    hw.holds.domain] at hrun
  exact leads_askDomain h name RelationKind.all (by decide) w ⟨hw, fun _ => hkind⟩ a left hrun

end Relation

/-! ## Trees -/

/-- Neither a relation nor an alternative of clauses stands in the tree. -/
def Tree.IsPlain (t : Tree) : Prop :=
  t.Within fun tag => tag ≠ .relation ∧ tag ≠ .clauseOr

/-- A clause is put behind a relation, with items or a condition of its own. -/
def Tag.isBehind (tag : Tag) : Bool :=
  isList tag || tag == .having || tag == .filter

/-- A clause whose conditions and items hold no relations. -/
inductive IsClausal : Tree → Prop where
  | relation (name : String) : IsClausal (.leaf .relation name)
  | scope {t : Tree} (h : IsClausal t) (name : String) : IsClausal (.node .scope [t, .atom name])
  | from_ {outer inner : Tree} (houter : IsClausal outer) (hinner : IsClausal inner) :
      IsClausal (.node .from_ [outer, inner])
  | clausePar {t : Tree} (h : IsClausal t) : IsClausal (.node .clausePar [t])
  | clauseOr {ts : List Tree} (h : ∀ t ∈ ts, IsClausal t) : IsClausal (.node .clauseOr ts)
  | behind {tag : Tag} (htag : tag.isBehind = true) {t : Tree} (h : IsClausal t) {items : List Tree}
      (hitems : ∀ item ∈ items, item.IsPlain) : IsClausal (.node tag (t :: items))

/-- The context of a relation at this place that has not been looked at. -/
structure Place.IsOf (place : Place) (context : Context) : Prop where
  first : context.first = place.first
  scope : context.scope = place.scope
  scopeType : context.scopeType = none

section Trees

variable {host : Host} {atEnd : WalkM Unit}

/-- A clause behind a relation renders the relation first, and then what it renders behind nothing. -/
theorem renderNode_behind {tag : Tag} (htag : tag.isBehind = true) (inner : Part) (parts : List Part) :
    renderNode host atEnd tag (inner :: parts) = (do
      let _ ← inner.render
      renderNode host atEnd tag (.mk (.atom "") (pure "") [] :: parts)) := by
  have hchild (tag : Tag) (p : Part) : renderChild tag (p :: parts) 0 = p.render := rfl
  have hpart : (Part.mk (.atom "") (pure "") []).render = pure "" := rfl
  cases tag with
  | order => simp only [renderNode, silently, Clause.order, Clause.items, bind_assoc, hpart, pure_bind]
  | group => simp only [renderNode, silently, Clause.group, Clause.items, bind_assoc, hpart, pure_bind]
  | having =>
    simp only [renderNode, silently, Clause.having, Clause.items, bind_assoc, hpart, pure_bind]
  | filter =>
    simp only [renderNode, silently, Clause.filter, hchild, bind_assoc, hpart, pure_bind]
    rfl
  | limit =>
    simp only [renderNode, silently, Clause.limit, hchild, bind_assoc, hpart, pure_bind]
    rfl
  | offset =>
    simp only [renderNode, silently, Clause.offset, hchild, bind_assoc, hpart, pure_bind]
    rfl
  | paginate =>
    simp only [renderNode, silently, Clause.paginate, hchild, bind_assoc, hpart, pure_bind]
    rfl
  | _ => cases htag

/-- A tree without relations and alternatives keeps what the hooks for expressions keep. -/
theorem kept_of_isPlain {R : Walk → Walk → Prop} [Lasting R] (hhost : host.Keeps R)
    (hatEnd : Keeps R atEnd) {t : Tree} (ht : t.IsPlain) :
    (ofTree (renderNode host atEnd) t).Kept R :=
  kept_ofTree ht fun _ htag _ hparts =>
    keeps_renderNode hhost hatEnd hparts (fun heq => absurd heq htag.1) fun heq => absurd heq htag.2

variable {options : Options} {depth : Nat} {moves : String → RelationKind → String → Option (List TableMove)}

/-- The register is what a walk over the tree arrives at, from a relation at this place. -/
def Arrives (catalog : Catalog) (options : Options) (depth : Nat) (atEnd : WalkM Unit) (place : Place)
    (r : Register) (t : Tree) (r' : Register) : Prop :=
  Leads (fun w => r.Holds catalog w ∧ place.IsOf w.context)
    (renderWith (catalog.host options (depth + 1)) atEnd t) fun _ => r'.Holds catalog

/-- A walk over the clause arrives at its register, and so does each of its branches. -/
structure Traced (catalog : Catalog) (options : Options) (depth : Nat) (atEnd : WalkM Unit)
    (moves : String → RelationKind → String → Option (List TableMove)) (t : Tree) : Prop where
  clause : ∀ place r,
    Arrives catalog options depth atEnd place r t (t.register catalog moves place r)
  branches : ∀ place r, List.Forall₂ (Arrives catalog options depth atEnd place r) t.orBranches
    (Tree.branchRegisters catalog moves place [t] r)

/-- What is no alternative is its only branch. -/
theorem branchRegisters_singleton {t : Tree} (ht : t.tag? ≠ some .clauseOr) (place : Place) (r : Register) :
    Tree.branchRegisters catalog moves place [t] r = [t.register catalog moves place r] := by
  cases t with
  | atom text => rfl
  | node tag ts =>
    cases tag with
    | clauseOr => exact absurd rfl ht
    | _ => rfl

theorem Traced.of_clause {t : Tree} (ht : t.tag? ≠ some .clauseOr) (h : ∀ place r,
    Arrives catalog options depth atEnd place r t (t.register catalog moves place r)) :
    Traced catalog options depth atEnd moves t := by
  refine ⟨h, fun place r => ?_⟩
  have hbranches : t.orBranches = [t] := by
    cases t with
    | atom text => rfl
    | node tag ts =>
      cases tag with
      | clauseOr => exact absurd rfl ht
      | _ => rfl
  rw [hbranches, branchRegisters_singleton ht]
  exact .cons (h place r) .nil

theorem branchRegisters_cons (t : Tree) (ts : List Tree) (place : Place) (r : Register) :
    Tree.branchRegisters catalog moves place (t :: ts) r =
      Tree.branchRegisters catalog moves place [t] r ++ Tree.branchRegisters catalog moves place ts r := by
  cases t with
  | atom text => rfl
  | node tag us =>
    cases tag with
    | clauseOr =>
      rw [Tree.branchRegisters, Tree.branchRegisters, Tree.branchRegisters, List.append_nil]
    | _ => rfl

theorem register_behind {tag : Tag} (htag : tag.isBehind = true) (t : Tree) (items : List Tree)
    (place : Place) (r : Register) : (Tree.node tag (t :: items)).register catalog moves place r =
      t.register catalog moves place r := by
  cases tag with
  | filter | order | group | having | limit | offset | paginate => rfl
  | _ => cases htag

/-- The branches of several trees are traced one after the other. -/
theorem branches_traced {ts : List Tree} (h : ∀ t ∈ ts, Traced catalog options depth atEnd moves t)
    (place : Place) (r : Register) :
    List.Forall₂ (Arrives catalog options depth atEnd place r) (Tree.orBranchesOf ts)
      (Tree.branchRegisters catalog moves place ts r) := by
  induction ts with
  | nil => exact .nil
  | cons t ts ih =>
    rw [List.forall_mem_cons] at h
    rw [branchRegisters_cons, Tree.orBranchesOf]
    exact List.rel_append (h.1.branches place r) (ih h.2)

/-- A step in a changed place. -/
theorem Arrives.within {place place' : Place} {r' : Register} {t : Tree}
    (h : Arrives catalog options depth atEnd place' r t r') {change : Context → Context}
    (hplace : ∀ context, place.IsOf context → place'.IsOf (change context)) :
    Leads (fun w => r.Holds catalog w ∧ place.IsOf w.context)
      (WalkM.within change (renderWith (catalog.host options (depth + 1)) atEnd t)) fun _ w =>
        r'.Holds catalog w ∧ place.IsOf w.context := by
  refine Leads.within (C := place.IsOf) (fun context hcontext => ?_)
    (fun w context hw => hw.inContext context) fun _ w context hw => hw.inContext context
  exact h.imp (fun w hw => ⟨hw.1, hw.2 ▸ hplace context hcontext⟩) fun _ _ => id

/-- The queries of branches use the tables under the names of their registers. -/
theorem lists_of_arrives {trees : List Tree} {registers : List Register} {queries : List Query}
    {place : Place} (hw : r.Holds catalog w) (hplace : place.IsOf w.context)
    (h : List.Forall₂ (Arrives catalog options depth atEnd place r) trees registers)
    (hqueries : List.Forall₂
      (fun t q => Leaves (renderWith (catalog.host options (depth + 1)) atEnd t) w q) trees queries) :
    List.Forall₂ (fun q names => q.Lists catalog.IsMain names) queries
      (registers.map Register.names) := by
  induction h generalizing queries with
  | nil =>
    cases hqueries
    exact .nil
  | cons harrives _ ih =>
    cases hqueries with
    | cons hleaves hmore =>
      obtain ⟨text, left, hrun, rfl⟩ := hleaves
      exact .cons (harrives w ⟨hw, hplace⟩ text left hrun).lists (ih hmore)

/-- A merge is over the main table of the state before it. -/
theorem mainTable_of_mergeBranches {profile : Profile} {base merged : Query} {queries : List Query}
    (h : Query.mergeBranches profile base queries = .ok merged) :
    merged.mainTable = base.mainTable := by
  obtain ⟨mended, -, rfl⟩ := mergeBranches_eq_ok h
  cases mended <;> rfl

/-- An alternative arrives at the union of the registers of its branches. -/
theorem arrives_clauseOr (h : catalog.Adds options moves) {ts : List Tree}
    (hts : ∀ t ∈ ts, Traced catalog options depth atEnd moves t) (place : Place) (r : Register) :
    Arrives catalog options depth atEnd place r (.node .clauseOr ts)
      ((Tree.node .clauseOr ts).register catalog moves place r) := by
  rintro w ⟨hw, hplace⟩ text left hrun
  obtain ⟨_, after, hclause, hsilent⟩ := runFrom_bind_eq_ok hrun
  cases hsilent
  obtain ⟨queries, profile, merged, hqueries, hprofile, hmerged, rfl⟩ := clause_eq_ok hclause
  rw [branchesOfAll_ofTrees, List.forall₂_map_left_iff] at hqueries
  have hmends : profile.OnlyAddsFilters := by
    obtain ⟨domain, hfound, rfl⟩ := Option.map_eq_some_iff.1 hprofile
    exact h.mends _ domain hfound
  have hlists := lists_of_arrives hw hplace (branches_traced hts place r) hqueries
  exact ⟨hw.domain, (mainTable_of_mergeBranches hmerged).trans hw.mainTable, hw.known,
    hw.lists.merge hmends hlists hmerged⟩

/-- **A walk over a clause arrives at its register**, and so does each branch of an alternative. -/
theorem traced_of_isClausal (h : catalog.Adds options moves)
    (hatEnd : Keeps (Walk.SameUses catalog.IsMain) atEnd) {t : Tree} (ht : IsClausal t) :
    Traced catalog options depth atEnd moves t := by
  induction ht with
  | relation name =>
    refine .of_clause (by simp [Tree.leaf, Tree.tag?]) fun place r => ?_
    rw [Arrives, renderWith_relation]
    refine .bind ((leads_relation h name).imp ?_ fun _ _ => id) fun _ => .pure fun _ => id
    exact fun w hw => ⟨⟨hw.1, hw.2.first, hw.2.scope⟩, hw.2.scopeType⟩
  | scope _ name ih =>
    refine .of_clause (by simp [Tree.tag?]) fun place r => ?_
    rw [Arrives, renderWith_scope]
    refine ((ih.clause { place with scope := some name } r).within ?_).imp (fun _ => id) fun _ _ hw => hw.1
    exact fun context hcontext => ⟨hcontext.first, rfl, hcontext.scopeType⟩
  | from_ _ _ houter hinner =>
    refine .of_clause (by simp [Tree.tag?]) fun place r => ?_
    rw [Arrives, renderWith_from]
    have hmark : Leads (fun w => r.Holds catalog w ∧ place.IsOf w.context)
        (modifyQuery fun q => { q with distinct := true }) fun _ w =>
          r.Holds catalog w ∧ place.IsOf w.context := by
      rintro w ⟨hw, hplace⟩ _ _ ⟨⟩
      exact ⟨⟨hw.domain, hw.mainTable, hw.known, hw.lists.aliases, hw.lists.bare⟩, hplace⟩
    refine .bind (hmark.bind fun _ => ?_) fun _ => .pure fun _ => id
    refine .bind ((hinner.clause { place with first := false } r).within ?_) fun _ => ?_
    · exact fun context hcontext => ⟨rfl, hcontext.scope, hcontext.scopeType⟩
    refine .bind ((houter.clause place _).within ?_) fun _ => .pure fun _ hw => hw.1
    exact fun context hcontext => ⟨hcontext.first, hcontext.scope, hcontext.scopeType⟩
  | clausePar _ ih =>
    refine .of_clause (by simp [Tree.tag?]) fun place r => ?_
    rw [Arrives, renderWith_clausePar]
    exact ih.clause place r
  | @clauseOr ts _ ih =>
    refine ⟨arrives_clauseOr h ih, fun place r => ?_⟩
    rw [Tree.orBranches, Tree.branchRegisters, Tree.branchRegisters, List.append_nil]
    exact branches_traced ih place r
  | @behind tag htag t _ items hitems ih =>
    refine .of_clause ?_ fun place r => ?_
    · rintro ⟨⟩
      cases htag
    · have hparts : ∀ p ∈ Part.mk (.atom "") (pure "") [] ::
          ofTrees (renderNode (catalog.host options (depth + 1)) atEnd) items,
            p.Kept (Walk.SameUses catalog.IsMain) := by
        refine List.forall_mem_cons.2 ⟨.mk (.pure "") (by simp), ?_⟩
        rw [ofTrees_eq_map]
        exact List.forall_mem_map.2 fun item hitem =>
          kept_of_isPlain (h.host_keeps (depth + 1)) hatEnd (hitems item hitem)
      have hrest : Keeps (Walk.SameUses catalog.IsMain)
          (renderNode (catalog.host options (depth + 1)) atEnd tag (.mk (.atom "") (pure "") [] ::
            ofTrees (renderNode (catalog.host options (depth + 1)) atEnd) items)) := by
        refine keeps_renderNode (h.host_keeps (depth + 1)) hatEnd hparts ?_ ?_
        · rintro rfl
          cases htag
        · rintro rfl
          cases htag
      have hrender : renderWith (catalog.host options (depth + 1)) atEnd (.node tag (t :: items)) = _ :=
        renderNode_behind htag _ _
      rw [register_behind htag, Arrives, hrender]
      exact .bind (ih.clause place r) fun _ => .of_keeps hrest fun _ _ => Register.Holds.keep

end Trees

/-! ## Sources -/

theorem Grammar.IsItem.isPlain {t : Tree} (h : IsItem t) : t.IsPlain := by
  have hleaf (tag : Tag) (htag : tag ≠ .relation ∧ tag ≠ .clauseOr) (text : String) :
      (Tree.leaf tag text).IsPlain :=
    .node htag (List.forall_mem_singleton.2 (.atom text))
  cases h with
  | field name => exact hleaf .field (by decide) name
  | param name => exact hleaf .param (by decide) name
  | integer digits => exact hleaf .integer (by decide) digits
  | asc name => exact .node (by decide) (List.forall_mem_singleton.2 (hleaf .field (by decide) name))
  | desc name => exact .node (by decide) (List.forall_mem_singleton.2 (hleaf .field (by decide) name))

/-- The default order keeps what the hooks for expressions keep. -/
theorem keeps_defaultOrder {R : Walk → Walk → Prop} [Lasting R] {host : Host} (hhost : host.Keeps R) :
    Keeps R (defaultOrder host) := by
  refine .bind .query fun q => ?_
  split
  · refine .bind (host.keeps_default _) fun order => ?_
    split
    · unfold renderOrder
      split
      · exact .throw _
      · next tree hparse =>
        split
        · next clause hclause =>
          obtain ⟨items, hitems, rfl⟩ := items_of_orderOnly? (shaped_of_parse hparse) hclause
          have hplain : (Tree.node .order (.node .void [] :: items)).IsPlain :=
            .node (by decide) (List.forall_mem_cons.2
              ⟨.node (by decide) (by simp), fun item hitem => (hitems item hitem).isPlain⟩)
          exact .bind (kept_of_isPlain hhost (.pure ()) hplain).render_ fun _ => .pure _
        · exact .pure _
    · exact .pure _
  · exact .pure _

/-- The register before a source is looked at. -/
def Register.start (profile : Profile) : Register where
  profile := profile
  names := fun _ => []

variable {options : Options} {moves : String → RelationKind → String → Option (List TableMove)}

/-- **A compiled query uses the main tables under the names of the register of its source.** -/
theorem Catalog.Adds.register_holds (h : catalog.Adds options moves) {start : Domain} {name source : String}
    {tree t : Tree} {q : Query} (hstart : catalog.domains.find? name = some start)
    (hparse : parse source = .ok tree)
    (htree : Catalog.wholeTree start.profile.mainTable tree = .node .query [t]) (ht : IsClausal t)
    (hcompile : catalog.compile options name source = .ok q) :
    ∃ w, w.query = q ∧ (t.register catalog moves {} (.start start.profile)).Holds catalog w := by
  have hname := h.named name start hstart
  obtain ⟨left, hrun, hquery⟩ := Catalog.run_of_compile hstart hparse hcompile
  refine ⟨left, hquery, ?_⟩
  have hfound : catalog.domains.find? start.profile.name = some start := by
    rw [hname]
    exact hstart
  have hactive : Yields catalog.activeDomain (catalog.start options start) start :=
    yields_activeDomain hfound
  have hholds : (Register.start start.profile).Holds catalog (catalog.start options start) := by
    refine ⟨rfl, rfl, ?_, fun _ _ => rfl, fun _ _ => Iff.rfl⟩
    show (catalog.domains.find? start.profile.name).map _ = _
    rw [hfound]
    rfl
  -- nothing runs before the tree is walked, and what runs behind it uses no table
  rw [Catalog.walk, runFrom_bind_of_ok hactive, runFrom_bind_of_ok (h.before name start hstart _ _),
    runFrom_bind_of_ok (yields_query _)] at hrun
  have hmain : (catalog.start options start).query.mainTable = start.profile.mainTable := rfl
  rw [hmain, htree, render, renderWith_query] at hrun
  have hhost := h.host_keeps Catalog.maxDepth
  have hrest : Leads (fun w => (Register.start start.profile).Holds catalog w ∧
        (Place.mk true none).IsOf w.context) (do
      let _ ← silently (do
        let _ ← renderWith (catalog.host options Catalog.maxDepth)
          (defaultOrder (catalog.host options Catalog.maxDepth)) t
        defaultOrder (catalog.host options Catalog.maxDepth))
      modifyQuery (Catalog.applyLimit options.limit)
      (← catalog.activeDomain).after (catalog.host options Catalog.maxDepth)) fun _ =>
        (t.register catalog moves {} (.start start.profile)).Holds catalog := by
    have htraced : Traced catalog options 9999 (defaultOrder (catalog.host options Catalog.maxDepth))
        moves t :=
      traced_of_isClausal h (keeps_defaultOrder hhost) ht
    have hlimit : Keeps (Walk.SameUses catalog.IsMain)
        (modifyQuery (Catalog.applyLimit options.limit)) := by
      refine .modifyQuery fun q => ?_
      unfold Catalog.applyLimit
      split <;> exact ⟨rfl, rfl, rfl, id⟩
    refine Leads.bind
      (Q := fun _ => (t.register catalog moves {} (.start start.profile)).Holds catalog) ?_ fun _ => ?_
    · refine .bind ((htraced.clause {} _).bind fun _ => ?_) fun _ => .pure fun _ => id
      exact .of_keeps (keeps_defaultOrder hhost) fun _ _ => Register.Holds.keep
    · refine .of_keeps (.bind hlimit fun _ => Catalog.keeps_activeDomain_bind ?_) fun _ _ =>
        Register.Holds.keep
      exact fun name domain hdomain => h.after name domain hdomain _ hhost
  exact hrest _ ⟨hholds, rfl, rfl, rfl⟩ _ _ hrun

end RelationSql
