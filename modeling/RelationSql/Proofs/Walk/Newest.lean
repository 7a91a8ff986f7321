import RelationSql.Proofs.Query.Given
import RelationSql.Proofs.Walk.Keeps

/-!
# Fields and the newest use

Fields are rendered with the newest use of the main table, or with the alias that the context names instead.
For the outermost relation this is the bare name. The two agree exactly if the use that the relation adds is
the bare one (`onNewest_addTableAs_iff`). A join that applies its scope first gives the bare name to the
occurrence of the scope, so the use behind it is numbered and no field is rendered with it: what the domain
compares next is that occurrence with itself (`joined_use_unnamed`).
-/

namespace RelationSql

open WalkM Query

/-! ## What steps leave as it is -/

/-- The context while a scope is rendered. -/
def Context.inScope (c : Context) : Context :=
  { c with phase := .scope }

/-- The steps leave a part of the state as it is, also where they fail. -/
def Fixes {α β : Type} (part : Walk → β) (steps : WalkM α) : Prop :=
  ∀ w, part (steps.runFrom w).2 = part w

namespace Fixes

variable {α β γ : Type} {part : Walk → γ}

theorem pure (a : α) : Fixes part (pure a : WalkM α) := fun _ => rfl

theorem throw (fault : CompileError) : Fixes part (throw fault : WalkM α) := fun _ => rfl

theorem get : Fixes part (get : WalkM Walk) := fun _ => rfl

theorem query : Fixes part query := fun _ => rfl

theorem context : Fixes part WalkM.context := fun _ => rfl

theorem bind {steps : WalkM α} {next : α → WalkM β} (h : Fixes part steps)
    (hnext : ∀ a, Fixes part (next a)) : Fixes part (steps >>= next) := by
  intro w
  have hleft := h w
  rw [runFrom_bind]
  revert hleft
  rcases steps.runFrom w with ⟨outcome, left⟩
  intro hleft
  cases outcome with
  | ok a => exact (hnext a left).trans hleft
  | error fault => exact hleft

/-- Steps in a changed context may do with it what they like. -/
theorem within (change : Context → Context) (steps : WalkM α) : Fixes Walk.context (within change steps) :=
  fun _ => rfl

theorem addFilter (filter : String) : Fixes Walk.context (addFilter filter) := fun _ => rfl

theorem enterPhase (phase : Phase) : Fixes (fun w => w.context.inScope) (enterPhase phase) :=
  fun _ => rfl

/-- What is read off a part stays with it. -/
theorem map {δ : Type} {steps : WalkM α} (h : Fixes part steps) (f : γ → δ) :
    Fixes (fun w => f (part w)) steps :=
  fun w => congrArg f (h w)

end Fixes

namespace Host

variable (host : Host) {γ : Type} {part : Walk → γ}

theorem fixes_activeProfile : Fixes part host.activeProfile := by
  refine .bind .get fun w => ?_
  dsimp only
  split
  · exact .pure _
  · exact .throw _

theorem fixes_defaultScope : Fixes part host.defaultScope := by
  refine .bind .context fun c => ?_
  split
  · exact .bind host.fixes_activeProfile fun _ => .pure _
  · exact .bind host.fixes_activeProfile fun _ => .pure _

theorem fixes_fieldOrAttrIn (name : String) (occurrence : Option String) :
    Fixes Walk.context (host.fieldOrAttrIn name occurrence) := by
  cases occurrence with
  | some use => exact .within _ _
  | none =>
    unfold fieldOrAttrIn attr
    dsimp only
    split
    · exact .pure _
    · split
      · exact .pure _
      · exact .throw _

theorem fixes_applyRule (rule : ScopeRule) : Fixes Walk.context (host.applyRule rule) := by
  cases rule with
  | unscoped => exact .pure _
  | compare current previous =>
    refine .bind (.bind .get fun _ => host.fixes_fieldOrAttrIn _ _) fun _ => ?_
    exact .bind .query fun _ => .bind (host.fixes_fieldOrAttrIn _ _) fun _ => .addFilter _

/-- **Applying a scope leaves the context as it is**, but for what is being rendered, whatever the hooks do
with theirs. -/
theorem fixes_applyScope (scope : String) :
    Fixes (fun w => w.context.inScope) (host.applyScope scope) := by
  refine .bind (.enterPhase _) fun _ => .bind host.fixes_activeProfile fun profile => .bind .get fun _ => ?_
  split
  · exact .throw _
  · exact .throw _
  · exact (host.fixes_applyRule _).map Context.inScope

/-! ## Adding a use -/

/-- The scope that is applied before a join, in the hands of a known domain. -/
def scopeBefore (w : Walk) : Option String :=
  if w.context.scopeType = some .join then
    (host.profile? w.domain).bind fun profile => w.context.scope.filter profile.needsJoinScope
  else none

/-- The scope, if there is one to apply, leads from one state to the other. -/
def Applies (before after : Walk) : Prop :=
  after = before ∨ ∃ scope, (host.applyScope scope).runFrom before = (.ok (), after)

variable {host} in
/-- The scope of a join is that of a known domain. -/
theorem joinScope_eq_ok {w left : Walk} {scope : Option String}
    (h : host.joinScope.runFrom w = (.ok scope, left)) :
    left = w ∧ scope =
      (host.profile? w.domain).bind fun profile => w.context.scope.filter profile.needsJoinScope := by
  obtain ⟨profile, middle, hprofile, hrest⟩ := runFrom_bind_eq_ok h
  rw [activeProfile, runFrom_bind_of_ok (yields_get w)] at hprofile
  dsimp only at hprofile
  split at hprofile
  · next found hfound =>
    cases hprofile
    cases hrest
    rw [hfound]
    exact ⟨rfl, rfl⟩
  · cases hprofile

end Host

/-- The walk while uses of the main table are added. The outermost relation names the alias of fields, and
the kind of the relation counts no longer. -/
def Walk.entering (use : String) (w : Walk) : Walk :=
  { w with context :=
    { w.context with
      tableAlias := if w.context.first then some use else w.context.tableAlias
      scopeType :=
        if w.context.scopeType = some .join ∨ w.context.scopeType = some .filter then none
        else w.context.scopeType } }

/-- The walk with another use, which the outermost relation wants to have its bare name. -/
def Walk.using (use table : String) (w : Walk) : Walk :=
  { w with query := w.query.addTable use table w.context.first }

/-- The walk before the use of a relation is added. A scope that is applied before a join has an occurrence
of its own. -/
def Walk.before (host : Host) (use : String) (w : Walk) : Walk :=
  if (host.scopeBefore w).isSome then (w.entering use).using use use else w.entering use

namespace Host

variable {host : Host} {use table : String} {w left : Walk}

namespace Applies

variable {before after : Walk} (h : host.Applies before after)

include h

/-- A scope takes the relation neither to another place nor to another alias. -/
theorem context : after.context.first = before.context.first ∧
    after.context.tableAlias = before.context.tableAlias := by
  rcases h with rfl | ⟨scope, hscope⟩
  · exact ⟨rfl, rfl⟩
  · have hleft := host.fixes_applyScope scope before
    rw [hscope] at hleft
    have hfirst := congrArg Context.first hleft
    have halias := congrArg Context.tableAlias hleft
    exact ⟨hfirst, halias⟩

end Applies

theorem applies_applyScope? {scope : Option String}
    (h : (host.applyScope? scope).runFrom w = (.ok (), left)) : host.Applies w left := by
  cases scope with
  | none =>
    cases h
    exact .inl rfl
  | some scope => exact .inr ⟨scope, h⟩

/-- Asking for the default scope changes nothing. -/
theorem state_of_defaultScope {scope : Option String}
    (h : host.defaultScope.runFrom w = (.ok scope, left)) : left = w := by
  have hleft : id (host.defaultScope.runFrom w).2 = id w := host.fixes_defaultScope w
  rwa [h] at hleft

/-- A join adds its use behind the occurrence of a scope that is applied before it, if there is one. -/
theorem addMainTable_join (hkind : w.context.scopeType = some .join)
    (h : (host.addMainTable use table).runFrom w = (.ok (), left)) :
    ∃ middle, host.Applies (w.before host use) middle ∧ left = middle.using use table := by
  obtain ⟨active, ⟨first, last, asked, kind, named, phase⟩, q⟩ := w
  obtain rfl : kind = some .join := hkind
  obtain ⟨_, _, ⟨⟩, h⟩ := runFrom_bind_eq_ok h
  -- the outermost relation names its alias first, then all go on in the same way
  cases first
  case' true => obtain ⟨_, _, ⟨⟩, h⟩ := runFrom_bind_eq_ok h
  all_goals
    obtain ⟨_, _, ⟨⟩, h⟩ := runFrom_bind_eq_ok h
    obtain ⟨_, _, ⟨⟩, h⟩ := runFrom_bind_eq_ok h
    obtain ⟨scope, middle, hscope, h⟩ := runFrom_bind_eq_ok h
    obtain ⟨rfl, hasked⟩ := joinScope_eq_ok hscope
    rw [Walk.before, scopeBefore, if_pos rfl, ← hasked]
    cases scope with
    | none =>
      cases h
      exact ⟨_, .inl rfl, rfl⟩
    | some scope =>
      obtain ⟨_, _, ⟨⟩, h⟩ := runFrom_bind_eq_ok h
      obtain ⟨_, middle, happly, ⟨⟩⟩ := runFrom_bind_eq_ok h
      have happlies : host.Applies _ middle := .inr ⟨scope, happly⟩
      refine ⟨middle, happlies, ?_⟩
      rw [Walk.using, happlies.context.1]

/-- A filter applies its scope, or the default one, after its use. -/
theorem addMainTable_filter (hkind : w.context.scopeType = some .filter)
    (h : (host.addMainTable use table).runFrom w = (.ok (), left)) :
    host.Applies ((w.entering use).using use table) left := by
  obtain ⟨active, ⟨first, last, asked, kind, named, phase⟩, q⟩ := w
  obtain rfl : kind = some .filter := hkind
  obtain ⟨_, _, ⟨⟩, h⟩ := runFrom_bind_eq_ok h
  cases first
  case' true => obtain ⟨_, _, ⟨⟩, h⟩ := runFrom_bind_eq_ok h
  all_goals
    obtain ⟨_, _, ⟨⟩, h⟩ := runFrom_bind_eq_ok h
    obtain ⟨_, _, ⟨⟩, h⟩ := runFrom_bind_eq_ok h
    obtain ⟨_, _, ⟨⟩, h⟩ := runFrom_bind_eq_ok h
    obtain ⟨_, _, ⟨⟩, h⟩ := runFrom_bind_eq_ok h
    cases asked with
    | some scope => exact .inr ⟨scope, h⟩
    | none =>
      obtain ⟨scope, middle, hscope, h⟩ := runFrom_bind_eq_ok h
      obtain rfl := state_of_defaultScope hscope
      exact applies_applyScope? h

/-- Other relations add their use alone. -/
theorem addMainTable_other (hjoin : w.context.scopeType ≠ some .join)
    (hfilter : w.context.scopeType ≠ some .filter)
    (h : (host.addMainTable use table).runFrom w = (.ok (), left)) :
    left = (w.entering use).using use table := by
  have hrun : (host.addMainTable use table).runFrom w = (.ok (), (w.entering use).using use table) := by
    obtain ⟨active, ⟨first, last, asked, kind, named, phase⟩, q⟩ := w
    cases first <;> rcases kind with _ | _ | _ | _ | _ <;> first | rfl | contradiction
  rw [hrun] at h
  cases h
  rfl

/-- **What adds a use**: a scope with an occurrence of its own, where it is applied before a join, then the
use, then the scope of a filter. -/
theorem addMainTable_eq_ok (h : (host.addMainTable use table).runFrom w = (.ok (), left)) :
    ∃ middle, host.Applies (w.before host use) middle ∧ host.Applies (middle.using use table) left := by
  by_cases hjoin : w.context.scopeType = some .join
  · obtain ⟨middle, hmiddle, rfl⟩ := addMainTable_join hjoin h
    exact ⟨middle, hmiddle, .inl rfl⟩
  · have hbefore : w.before host use = w.entering use := by
      rw [Walk.before, scopeBefore, if_neg hjoin]
      rfl
    rw [hbefore]
    by_cases hfilter : w.context.scopeType = some .filter
    · exact ⟨_, .inl rfl, addMainTable_filter hfilter h⟩
    · exact ⟨_, .inl rfl, .inl (addMainTable_other hjoin hfilter h)⟩

end Host

/-! ## Uses of the main table -/

/-- The second query has the uses of the main table that the first one has, and of these entries the same. -/
structure Query.SameUses (entries : List String) (q q' : Query) : Prop where
  mainTable : q'.mainTable = q.mainTable
  aliases : q'.aliases q.mainTable = q.aliases q.mainTable
  tables : ∀ entry ∈ entries, entry ∈ q'.tables ↔ entry ∈ q.tables

/-- The uses of the main table and these entries stay the same. -/
abbrev Walk.UsesLast (entries : List String) (w w' : Walk) : Prop :=
  w.query.SameUses entries w'.query

instance (entries : List String) : Lasting (Walk.UsesLast entries) where
  refl _ := ⟨rfl, rfl, fun _ _ => .rfl⟩
  trans h h' :=
    ⟨h'.mainTable.trans h.mainTable, (h.mainTable ▸ h'.aliases).trans h.aliases,
      fun entry hentry => (h'.tables entry hentry).trans (h.tables entry hentry)⟩
  context _ _ _ := ⟨rfl, rfl, fun _ _ => .rfl⟩
  within h := h
  query w q h := by
    refine ⟨h.mainTable, ?_, fun entry _ => ?_⟩
    · rw [aliases, aliases, h.tableAlias]
    · rw [h.tables]

namespace Query

variable {q q' : Query} {table : String}

/-- A further use has the same name where the uses before it are the same. -/
theorem SameUses.newAlias {main : String} (h : q.SameUses [main, table] q') (hmain : q.mainTable = main)
    (avoidAlias : Bool) : q'.newAlias main table avoidAlias = q.newAlias main table avoidAlias := by
  subst hmain
  have hcontains {entry : String} (hentry : entry ∈ [q.mainTable, table]) :
      q'.tables.contains entry = q.tables.contains entry := by
    rw [Bool.eq_iff_iff, List.contains_iff_mem, List.contains_iff_mem]
    exact h.tables entry hentry
  unfold Query.newAlias
  rw [h.aliases, hcontains (.head _), hcontains (.tail _ (.head _))]

/-- The numbers of the uses are those of counting, one less where an entry has the bare name. -/
def Counted (table : String) (q : Query) : Prop :=
  ∀ n, numbered table n ∈ q.aliases table →
    n ≤ (q.aliases table).length ∧ (table ∈ q.tables → n < (q.aliases table).length)

/-- A use that is counted has a name that no use before it has. -/
theorem Counted.newAlias_not_mem {use : String} (h : q.Counted use) (table : String) :
    q.newAlias use table false ∉ q.aliases use := by
  intro hmem
  rcases newAlias_cases use table false q with ⟨⟨hbare, -⟩, -⟩ | ⟨-, ⟨hentry, heq⟩ | ⟨-, heq⟩⟩
  · cases hbare
  · rw [heq] at hmem
    exact absurd ((h _ hmem).2 hentry) (lt_irrefl _)
  · rw [heq] at hmem
    have := (h _ hmem).1
    omega

/-- Another use that is counted keeps the count. -/
theorem Counted.addTable (h : q.Counted table) (hname : ∀ n, numbered table n ≠ table) :
    (q.addTable table table false).Counted table := by
  intro n hmem
  rw [aliases_addTable, List.mem_append, List.mem_singleton] at hmem
  rw [aliases_addTable, List.length_append, List.length_singleton, tables_addTable, List.mem_append,
    List.mem_singleton]
  rcases newAlias_cases table table false q with ⟨⟨hbare, -⟩, -⟩ | ⟨-, ⟨hentry, heq⟩ | ⟨hentry, heq⟩⟩
  · cases hbare
  · rw [heq] at hmem
    have hle : n ≤ (q.aliases table).length :=
      hmem.elim (fun hold => (h n hold).1) fun hnew => (numbered_inj hnew).le
    exact ⟨by omega, fun _ => by omega⟩
  · rw [heq] at hmem ⊢
    have hle : n ≤ (q.aliases table).length + 1 :=
      hmem.elim (fun hold => (h n hold).1.trans (Nat.le_succ _)) fun hnew => (numbered_inj hnew).le
    refine ⟨hle, fun hmem' => ?_⟩
    rcases hmem' with hold | hnew
    · exact absurd hold hentry
    · exact absurd hnew.symm (write_ne_bare (hname _))

end Query

namespace Host

variable {host : Host} {table : String} {w left : Walk} {entries : List String}

/-- Applying a scope adds no use if no field does. -/
theorem Applies.sameUses {before after : Walk} (h : host.Applies before after)
    (hfield : ∀ name, RelationSql.Keeps (Walk.UsesLast entries) (host.field name)) :
    before.query.SameUses entries after.query := by
  rcases h with rfl | ⟨scope, hscope⟩
  · exact Lasting.refl (R := Walk.UsesLast entries) after
  · -- a scope asks for fields only
    have hfields : Host.Keeps (Walk.UsesLast entries)
        { host with function := fun _ _ => pure none, equal := fun _ _ => pure none } :=
      ⟨hfield, fun _ _ => .pure _, fun _ _ => .pure _⟩
    have hleft : before.query.SameUses entries ((host.applyScope scope).runFrom before).2.query :=
      Host.keeps_applyScope hfields.field scope before
    rwa [hscope] at hleft

theorem before_first (host : Host) (use : String) (w : Walk) :
    (w.before host use).context.first = w.context.first := by
  unfold Walk.before
  split <;> rfl

theorem before_tableAlias (host : Host) (use : String) (w : Walk) :
    (w.before host use).context.tableAlias = if w.context.first then some use else w.context.tableAlias := by
  unfold Walk.before
  split <;> rfl

theorem before_query (host : Host) (use : String) (w : Walk) :
    (w.before host use).query =
      if (host.scopeBefore w).isSome then w.query.addTable use use w.context.first else w.query := by
  unfold Walk.before
  split <;> rfl

theorem before_mainTable (host : Host) (use : String) (w : Walk) :
    (w.before host use).query.mainTable = w.query.mainTable := by
  rw [before_query]
  split <;> rfl

/-- The context after a use was added names the bare alias for the outermost relation, and else what it
named before. -/
theorem context_addMainTable (h : (host.addMainTable use table).runFrom w = (.ok (), left)) :
    left.context.first = w.context.first ∧
      left.context.tableAlias = if w.context.first then some use else w.context.tableAlias := by
  obtain ⟨middle, hmiddle, hleft⟩ := addMainTable_eq_ok h
  obtain ⟨hfirst, halias⟩ := hmiddle.context
  obtain ⟨hfirst', halias'⟩ := hleft.context
  rw [before_first] at hfirst
  rw [before_tableAlias] at halias
  exact ⟨hfirst'.trans hfirst, halias'.trans halias⟩

/-- **A relation adds one use behind those before it**, and a scope adds none but its own occurrence. -/
theorem aliases_addMainTable (h : (host.addMainTable w.query.mainTable table).runFrom w = (.ok (), left))
    (hfield : ∀ name, RelationSql.Keeps (Walk.UsesLast [w.query.mainTable, table]) (host.field name)) :
    left.query.mainTable = w.query.mainTable ∧ left.query.aliases w.query.mainTable =
      (w.before host w.query.mainTable).query.aliases w.query.mainTable ++
        [(w.before host w.query.mainTable).query.newAlias w.query.mainTable table w.context.first] := by
  obtain ⟨middle, hmiddle, hleft⟩ := addMainTable_eq_ok h
  have hmain := before_mainTable host w.query.mainTable w
  have hbefore := hmiddle.sameUses hfield
  have hafter := hleft.sameUses hfield
  have hfirst : middle.context.first = w.context.first := hmiddle.context.1.trans (before_first ..)
  have hmiddleMain : middle.query.mainTable = w.query.mainTable := hbefore.mainTable.trans hmain
  have haliases : left.query.aliases middle.query.mainTable =
      (middle.query.addTable w.query.mainTable table middle.context.first).aliases middle.query.mainTable :=
    hafter.aliases
  rw [hmiddleMain, aliases_addTable, hfirst] at haliases
  refine ⟨hafter.mainTable.trans hmiddleMain, haliases.trans ?_⟩
  have hold := hbefore.aliases
  rw [hmain] at hold
  rw [hbefore.newAlias hmain, hold]

end Host

/-! ## The alias of fields -/

/-- Fields are rendered with the newest use of the main table, which for the outermost relation is the bare
one, and the use before it is another one. -/
structure Walk.OnNewest (w : Walk) : Prop where
  newest : Host.currentAlias w = w.query.alias? w.query.mainTable 0
  bare : w.context.first = true → Host.currentAlias w = some w.query.mainTable
  apart : w.query.alias? w.query.mainTable (-1) ≠ Host.currentAlias w

namespace Query

variable {q : Query} {table : String}

/-- A use that wants its bare name gets it where the table has no entry yet. -/
theorem newAlias_of_not_mem (h : table ∉ q.tables) (use : String) : q.newAlias use table true = use := by
  simp [newAlias, h]

/-- A use whose name is not a number gets it bare only there. -/
theorem newAlias_bare_iff {use : String} (hname : ∀ n, numbered use n ≠ use) :
    q.newAlias use table true = use ↔ table ∉ q.tables := by
  refine ⟨fun heq => ?_, fun h => newAlias_of_not_mem h use⟩
  rcases newAlias_cases use table true q with ⟨hbare, -⟩ | ⟨-, ⟨-, hnumbered⟩ | ⟨-, hnumbered⟩⟩
  · exact hbare.2
  · exact absurd (hnumbered.symm.trans heq) (hname _)
  · exact absurd (hnumbered.symm.trans heq) (hname _)

end Query

namespace Host

variable {host : Host} {table : String} {w left : Walk}

/-- The uses before a relation are counted if those of the query are, as the scope before a join adds a
numbered one. -/
theorem counted_before (hfirst : w.context.first = false) (h : w.query.Counted w.query.mainTable)
    (hname : ∀ n, numbered w.query.mainTable n ≠ w.query.mainTable) :
    (w.before host w.query.mainTable).query.Counted w.query.mainTable := by
  rw [before_query, hfirst]
  split
  · exact h.addTable hname
  · exact h

/-- Where the outermost relation has no bare use before it, the use before its own is not bare exactly if no
scope is applied before it. -/
theorem bare_before_iff (hfirst : w.context.first = true) (htables : w.query.mainTable ∉ w.query.tables)
    (haliases : w.query.mainTable ∉ w.query.aliases w.query.mainTable) :
    (w.before host w.query.mainTable).query.alias? w.query.mainTable 0 ≠ some w.query.mainTable ↔
      host.scopeBefore w = none := by
  rw [before_query, hfirst]
  cases host.scopeBefore w with
  | none => exact iff_of_true (alias?_zero_ne haliases) rfl
  | some scope =>
    refine iff_of_false (fun hne => hne ?_) nofun
    rw [Option.isSome_some, if_pos rfl, alias?_zero, aliases_addTable, List.getLast?_concat,
      newAlias_of_not_mem htables]

section Adding

variable (hadd : (host.addMainTable w.query.mainTable table).runFrom w = (.ok (), left))

include hadd

/-- The outermost relation has the bare name for its fields, all others the newest use. -/
theorem currentAlias_addMainTable (hnone : w.context.tableAlias = none) :
    currentAlias left =
      if w.context.first then some w.query.mainTable else left.query.alias? left.query.mainTable 0 := by
  rw [currentAlias, (context_addMainTable hadd).2, hnone]
  split <;> rfl

variable (hfield : ∀ name, RelationSql.Keeps (Walk.UsesLast [w.query.mainTable, table]) (host.field name))

include hfield

/-- The newest use is that of the relation. -/
theorem newest_addMainTable : left.query.alias? left.query.mainTable 0 =
    some ((w.before host w.query.mainTable).query.newAlias w.query.mainTable table w.context.first) := by
  obtain ⟨hmain, hused⟩ := aliases_addMainTable hadd hfield
  rw [hmain, alias?_zero, hused, List.getLast?_concat]

/-- The use before is the newest one before the relation. -/
theorem previous_addMainTable : left.query.alias? left.query.mainTable (-1) =
    (w.before host w.query.mainTable).query.alias? w.query.mainTable 0 := by
  obtain ⟨hmain, hused⟩ := aliases_addMainTable hadd hfield
  rw [hmain, alias?_neg_one, hused, List.dropLast_concat, alias?_zero]

/-- Fields are rendered with the newest use unless the relation is the outermost one and its use, or the one
before it, has not the name that it ought to have. -/
theorem onNewest_iff_before (hnone : w.context.tableAlias = none)
    (hname : ∀ n, numbered w.query.mainTable n ≠ w.query.mainTable)
    (hcounted : w.query.Counted w.query.mainTable) :
    left.OnNewest ↔ (w.context.first = true →
      table ∉ (w.before host w.query.mainTable).query.tables ∧
        (w.before host w.query.mainTable).query.alias? w.query.mainTable 0 ≠ some w.query.mainTable) := by
  have hfirst := (context_addMainTable hadd).1
  have hmain := (aliases_addMainTable hadd hfield).1
  have hcurrent := currentAlias_addMainTable hadd hnone
  have hnewest := newest_addMainTable hadd hfield
  have hprevious := previous_addMainTable hadd hfield
  cases hplace : w.context.first with
  | false =>
    rw [hplace] at hfirst hcurrent hnewest
    have hbefore : (w.before host w.query.mainTable).query.Counted w.query.mainTable :=
      counted_before hplace hcounted hname
    refine iff_of_true ⟨hcurrent, fun hcontra => ?_, ?_⟩ nofun
    · exact absurd (hfirst.symm.trans hcontra) Bool.false_ne_true
    · rw [hprevious, hcurrent, if_neg Bool.false_ne_true, hnewest]
      exact alias?_zero_ne (hbefore.newAlias_not_mem table)
  | true =>
    rw [hplace] at hcurrent hnewest
    rw [if_pos rfl] at hcurrent
    have hbare : (w.before host w.query.mainTable).query.newAlias w.query.mainTable table true =
        w.query.mainTable ↔ _ := newAlias_bare_iff hname
    rw [← hbare]
    constructor
    · rintro ⟨hon, -, hapart⟩ -
      rw [hcurrent, hnewest, Option.some.injEq] at hon
      rw [hprevious, hcurrent] at hapart
      exact ⟨hon.symm, hapart⟩
    · intro hboth
      obtain ⟨hon, hapart⟩ := hboth rfl
      refine ⟨?_, fun _ => ?_, ?_⟩
      · rw [hcurrent, hnewest, hon]
      · rw [hcurrent, hmain]
      · rwa [hprevious, hcurrent]

end Adding

/-- **Where the fields of a relation are rendered with its use.** All relations but the outermost one name no
alias, so their fields are rendered with the newest use, whatever hooks do. The outermost one names the bare
alias. That is the newest use, and not the one before it, exactly if the table has no entry before and the
use before is not bare. Where the main table has no bare use at first, this goes wrong in two ways only: a
scope is applied before a join, or the table has an entry that is no use of the main table. In the first of
them, fields are rendered with the use before. -/
theorem onNewest_addTableAs_iff (hnone : w.context.tableAlias = none)
    (hadd : (host.addTableAs w.query.mainTable table).runFrom w = (.ok (), left)) :
    (left.context.first = w.context.first ∧
      currentAlias left =
        if w.context.first then some w.query.mainTable else left.query.alias? left.query.mainTable 0) ∧
    ((∀ name, RelationSql.Keeps (Walk.UsesLast [w.query.mainTable, table]) (host.field name)) →
      (∀ n, numbered w.query.mainTable n ≠ w.query.mainTable) → w.query.Counted w.query.mainTable →
      (left.OnNewest ↔ (w.context.first = true →
        table ∉ (w.before host w.query.mainTable).query.tables ∧
          (w.before host w.query.mainTable).query.alias? w.query.mainTable 0 ≠ some w.query.mainTable)) ∧
      ((w.context.first = true → w.query.mainTable ∉ w.query.tables ∧
          w.query.mainTable ∉ w.query.aliases w.query.mainTable) →
        (left.OnNewest ↔
          (w.context.first = true → host.scopeBefore w = none ∧ table ∉ w.query.tables)) ∧
        (w.context.first = true → (host.scopeBefore w).isSome = true →
          left.query.alias? left.query.mainTable (-1) = currentAlias left))) := by
  replace hadd : (host.addMainTable w.query.mainTable table).runFrom w = (.ok (), left) := by
    rw [addTableAs, runFrom_bind_of_ok (yields_query w), if_pos rfl] at hadd
    exact hadd
  have hcurrent := currentAlias_addMainTable hadd hnone
  refine ⟨⟨(context_addMainTable hadd).1, hcurrent⟩, fun hfield hname hcounted => ?_⟩
  have hgeneral := onNewest_iff_before hadd hfield hnone hname hcounted
  refine ⟨hgeneral, fun hproviso => ⟨?_, fun hplace hscope => ?_⟩⟩
  · rw [hgeneral]
    refine forall_congr' fun hplace => ?_
    obtain ⟨htables, haliases⟩ := hproviso hplace
    rw [bare_before_iff hplace htables haliases, and_comm]
    refine and_congr_right fun hscope => ?_
    rw [before_query, hscope]
    rfl
  · obtain ⟨htables, haliases⟩ := hproviso hplace
    rw [previous_addMainTable hadd hfield, hcurrent, hplace, if_pos rfl]
    by_contra hne
    rw [(bare_before_iff hplace htables haliases).1 hne] at hscope
    cases hscope

end Host

/-! ## Nodes and their recipients -/

/-- A domain of nodes in which every scope is known and needs no condition. -/
def placed : Domain where
  profile :=
    { name := "nodes", mainTable := "objects", mainClass := "Node"
      scope := fun _ _ => .ok (some .unscoped) }
  field := fun _ name => do
    return some (Host.currentTable (← get) ++ "." ++ name)

/-- The hooks of a compile with nodes alone. -/
def placedHost : Host :=
  (Catalog.addDomain placed {}).host {} 1

/-- Rendering a field of a node adds nothing. -/
theorem keeps_placedField (entries : List String) (name : String) :
    Keeps (Walk.UsesLast entries) (placedHost.field name) := by
  refine Catalog.keeps_activeDomain_bind fun key domain hdomain => ?_
  have hfound : (Dictionary.empty.insert "nodes" placed).find? key = some domain := hdomain
  rw [Dictionary.find?_insert] at hfound
  split at hfound
  · cases hfound
    exact .bind .get fun _ => .pure _
  · cases hfound

/-- The outermost relation of a source, asked for in one of the ways. -/
def outermost (kind : RelationKind) : Walk where
  domain := "nodes"
  context := { scope := some "site", scopeType := some kind }
  query := .new .generic "objects" "Node"

theorem counted_outermost (kind : RelationKind) : (outermost kind).query.Counted "objects" :=
  fun _ hmem => nomatch hmem

/-- A filter has the bare use, and renders its fields with it. -/
theorem filter_onNewest :
    (outermost .filter).context.tableAlias = none ∧
      ∃ left, (placedHost.addTableAs "objects" "objects").runFrom (outermost .filter) = (.ok (), left) ∧
        left.query.tables = ["objects"] ∧ left.OnNewest := by
  obtain ⟨left, hadd⟩ : ∃ left,
      (placedHost.addTableAs "objects" "objects").runFrom (outermost .filter) = (.ok (), left) := ⟨_, rfl⟩
  have htables : left.query.tables = ["objects"] :=
    (congrArg (fun outcome => outcome.2.query.tables) hadd).symm
  have hname : ∀ n, numbered "objects" n ≠ "objects" := numbered_ne fun _ => ⟨'j', by decide, rfl⟩
  have honNewest := (Host.onNewest_addTableAs_iff (w := outermost .filter) rfl hadd).2 (keeps_placedField _)
    hname (counted_outermost .filter)
  have honly : left.OnNewest ↔ _ := (honNewest.2 fun _ => ⟨by decide, by decide⟩).1
  exact ⟨rfl, left, hadd, htables, honly.2 fun _ => ⟨rfl, by decide⟩⟩

/-- **A join after its scope is compared with itself.** The scope takes the bare name, so the use of the join
is numbered, and its fields are rendered with the use before. -/
theorem joined_use_unnamed :
    (outermost .join).context.tableAlias = none ∧
      "objects" ∉ (outermost .join).query.tables ∧ "objects" ∉ (outermost .join).query.aliases "objects" ∧
      ∃ left, (placedHost.addTableAs "objects" "objects").runFrom (outermost .join) = (.ok (), left) ∧
        left.query.tables = ["objects", "objects AS ob1"] ∧
        Host.currentAlias left = some "objects" ∧
        left.query.alias? "objects" 0 = some "ob1" ∧ left.query.alias? "objects" (-1) = some "objects" ∧
        ¬ left.OnNewest := by
  refine ⟨rfl, by decide, by decide, _, rfl, by decide, by decide, by decide, by decide, fun honNewest => ?_⟩
  exact absurd honNewest.newest (by decide)

end RelationSql
