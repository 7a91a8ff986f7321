import RelationSql.Proofs.Walk.Keeps
import RelationSql.Script.Domain

/-!
# The mark of a chain

A chain marks its query, since it may reach one record in several ways. No step of a walk takes the mark
back as long as the hooks do not (`keepsMark_render`, `Catalog.host_keepsMark`), and the hooks of a
script never do (`Script.domain_keepsMark`).
-/

namespace RelationSql

open WalkM RelationSql.Part

/-- The mark that duplicates must be removed is not taken back. -/
def Walk.MarkLasts (w w' : Walk) : Prop :=
  w.query.distinct = true → w'.query.distinct = true

instance lasting_markLasts : Lasting Walk.MarkLasts where
  refl := fun _ => id
  trans := fun h h' hw => h' (h hw)
  context := fun _ _ _ => id
  within := id
  query := fun _ _ h => h.distinct

/-- The steps do not take back the mark that duplicates must be removed, also where they fail. -/
abbrev KeepsMark {α : Type} (steps : WalkM α) : Prop :=
  Keeps Walk.MarkLasts steps

namespace KeepsMark

variable {α β : Type} {steps : WalkM α}

/-- The query that is read has the mark. -/
theorem query_bind {next : Query → WalkM β}
    (hnext : ∀ q : Query, q.distinct = true → KeepsMark (next q)) :
    KeepsMark (WalkM.query >>= next) := by
  intro w hw
  rw [runFrom_bind_of_ok (yields_query w)]
  exact hnext w.query hw w hw

theorem modifyContext (change : Context → Context) : KeepsMark (modifyContext change) :=
  fun _ hw => hw

theorem modifyQuery {change : Query → Query}
    (h : ∀ q : Query, q.distinct = true → (change q).distinct = true) :
    KeepsMark (modifyQuery change) :=
  fun w hw => h w.query hw

theorem updateQuery {change : Query → α × Query}
    (h : ∀ q : Query, q.distinct = true → (change q).2.distinct = true) :
    KeepsMark (updateQuery change) :=
  fun w hw => h w.query hw

theorem restoringDomain (h : KeepsMark steps) : KeepsMark (restoringDomain steps) :=
  fun w hw => h w hw

/-- A use of a table leaves the mark. -/
theorem addTable (use table : String) (avoidAlias : Bool) :
    KeepsMark (WalkM.modifyQuery (Query.addTable use table avoidAlias)) :=
  modifyQuery fun _ hq => hq

end KeepsMark

/-! ## Hosts -/

/-- Hooks that do not take the mark back. -/
structure Host.KeepsMark (host : Host) : Prop extends host.Keeps Walk.MarkLasts where
  relation : ∀ domain kind name, RelationSql.KeepsMark (host.relation domain kind name)
  process : ∀ t, RelationSql.KeepsMark (host.process t)

namespace Host

variable {host : Host}

theorem keepsMark_useDefaultScope (host : Host) : RelationSql.KeepsMark host.useDefaultScope := by
  refine .bind .context fun c => ?_
  split
  · exact .bind host.keeps_defaultScope fun _ => KeepsMark.modifyContext _
  · exact .pure _

namespace KeepsMark

variable (h : host.KeepsMark)

include h

theorem addTableAs (use table : String) : RelationSql.KeepsMark (host.addTableAs use table) :=
  keeps_addTableAs h.field KeepsMark.modifyContext KeepsMark.addTable use table

end KeepsMark

theorem keepsMark_changeDomain (host : Host) (name : String) :
    RelationSql.KeepsMark (host.changeDomain name) := by
  unfold changeDomain
  split
  · exact fun _ hw => hw
  · exact .throw _

end Host

/-! ## Alternatives -/

variable {parts : List Part} {host : Host}

namespace Alternative

mutual

/-- The branches of a part keep the mark if it does. -/
theorem kept_branchesOf : ∀ {p : Part}, p.Kept Walk.MarkLasts → ∀ q ∈ branchesOf p, q.Kept Walk.MarkLasts
  | .mk t steps parts, h => by
    have hone : ∀ q ∈ [Part.mk t steps parts], q.Kept Walk.MarkLasts := List.forall_mem_singleton.2 h
    have hall : ∀ q ∈ branchesOfAll parts, q.Kept Walk.MarkLasts := kept_branchesOfAll h.parts_
    cases t with
    | atom text => exact hone
    | node tag ts =>
      cases tag with
      | clauseOr => exact hall
      | _ => exact hone

theorem kept_branchesOfAll : ∀ {parts : List Part}, (∀ p ∈ parts, p.Kept Walk.MarkLasts) →
    ∀ q ∈ branchesOfAll parts, q.Kept Walk.MarkLasts
  | [], _ => nofun
  | p :: parts, h => by
    rw [List.forall_mem_cons] at h
    rw [branchesOfAll, List.forall_mem_append]
    exact ⟨kept_branchesOf h.1, kept_branchesOfAll h.2⟩

end

variable {base : Query} (hbase : base.distinct = true)

include hbase

theorem keepsMark_branch {p : Part} (hp : p.Kept Walk.MarkLasts) : KeepsMark (branch base p) :=
  .bind (KeepsMark.modifyQuery fun _ _ => hbase) fun _ =>
    .bind (KeepsMark.restoringDomain (hp.render_.within _)) fun _ => .query

theorem keepsMark_branches (h : ∀ p ∈ parts, p.Kept Walk.MarkLasts) : KeepsMark (branches base parts) := by
  induction parts with
  | nil => exact .pure _
  | cons p parts ih =>
    rw [List.forall_mem_cons] at h
    exact .bind (keepsMark_branch hbase h.1) fun _ => .bind (ih h.2) fun _ => .pure _

/-- What an alternative is merged into has the mark. -/
theorem distinct_of_mergeBranches {profile : Profile} {queries : List Query} {merged : Query}
    (h : Query.mergeBranches profile base queries = .ok merged) : merged.distinct = true := by
  unfold Query.mergeBranches at h
  cases hmended : Query.mendAll profile (Query.unionTables queries) queries with
  | error fault =>
    rw [hmended] at h
    cases h
  | ok mended =>
    rw [hmended] at h
    cases h
    cases mended with
    | nil => exact hbase
    | cons q mended => rfl

omit hbase

theorem keepsMark_clause (h : ∀ p ∈ parts, p.Kept Walk.MarkLasts) : KeepsMark (clause host parts) := by
  refine KeepsMark.query_bind fun base hbase => ?_
  refine .bind (keepsMark_branches hbase (kept_branchesOfAll h)) fun queries => ?_
  refine .bind (KeepsMark.modifyQuery fun _ _ => hbase) fun _ => ?_
  refine .bind host.keeps_activeProfile fun profile => ?_
  split
  · next merged hmerged => exact KeepsMark.modifyQuery fun _ _ => distinct_of_mergeBranches hbase hmerged
  · exact .throw _

end Alternative

/-! ## Rendering -/

theorem Clause.keepsMark_relation (hhost : host.KeepsMark) (name : String) :
    KeepsMark (Clause.relation host name) := by
  have hask (domain : String) : ∀ kinds, KeepsMark (Clause.askDomain host domain name kinds) := by
    intro kinds
    induction kinds with
    | nil => exact .throw _
    | cons kind kinds ih =>
      have hrest : KeepsMark (do
          if ← host.relation domain kind name then return
          else Clause.askDomain host domain name kinds) := by
        refine .bind (hhost.relation _ _ _) fun known => ?_
        split
        · exact .pure _
        · exact ih
      rw [Clause.askDomain]
      dsimp only
      split
      · exact .bind (KeepsMark.modifyContext _) fun _ => hrest
      · exact hrest
  refine .bind .get fun w => ?_
  split
  · exact KeepsMark.modifyQuery fun _ hq => hq
  · exact hask _ _

variable {atEnd : WalkM Unit}

theorem keepsMark_renderWith (hhost : host.KeepsMark) (hatEnd : KeepsMark atEnd) (t : Tree) :
    KeepsMark (renderWith host atEnd t) := by
  refine (kept_ofTree (Tree.Within.of_forall (fun _ => trivial) t) fun tag _ parts hparts => ?_).render_
  exact keeps_renderNode hhost.toKeeps hatEnd hparts
    (fun _ name => Clause.keepsMark_relation hhost name)
    fun _ => Alternative.keepsMark_clause hparts

theorem keepsMark_defaultOrder (hhost : host.KeepsMark) : KeepsMark (defaultOrder host) := by
  refine .bind .query fun q => ?_
  split
  · refine .bind (host.keeps_default _) fun order => ?_
    split
    · unfold renderOrder
      split
      · exact .throw _
      · split
        · exact .bind (keepsMark_renderWith hhost (.pure ()) _) fun _ => .pure _
        · exact .pure _
    · exact .pure _
  · exact .pure _

/-- **No tree takes the mark back.** -/
theorem keepsMark_render (hhost : host.KeepsMark) (t : Tree) : KeepsMark (render host t) :=
  keepsMark_renderWith hhost (keepsMark_defaultOrder hhost) t

/-! ## Domains -/

/-- The hooks by which a domain takes part in a walk do not take the mark back. A hook has no way to do
so, short of putting another query in the place of the one under construction. -/
structure Domain.KeepsMark (domain : Domain) : Prop where
  relation : ∀ host, host.KeepsMark → ∀ kind name, RelationSql.KeepsMark (domain.relation host kind name)
  field : ∀ host, host.KeepsMark → ∀ name, RelationSql.KeepsMark (domain.field host name)
  function : ∀ host, host.KeepsMark → ∀ argument method,
    RelationSql.KeepsMark (domain.function host argument method)
  equal : ∀ host, host.KeepsMark → ∀ left right, RelationSql.KeepsMark (domain.equal host left right)

namespace Catalog

variable {catalog : Catalog}

/-- The domains of the catalog do not take the mark back. -/
def KeepsMark (catalog : Catalog) : Prop :=
  ∀ name domain, catalog.domains.find? name = some domain → domain.KeepsMark

/-- **However deep hooks call each other, they do not take the mark back.** -/
theorem host_keepsMark (h : catalog.KeepsMark) (options : Options) :
    ∀ depth, (catalog.host options depth).KeepsMark
  | 0 =>
    { relation := fun _ _ _ => .throw _
      field := fun _ => .throw _
      function := fun _ _ => .throw _
      equal := fun _ _ => .throw _
      process := fun _ => .throw _ }
  | depth + 1 =>
    have ih := host_keepsMark h options depth
    { relation := fun name kind relation =>
        keeps_domain_bind name fun _ hdomain => (h _ _ hdomain).relation _ ih kind relation
      field := fun name =>
        keeps_activeDomain_bind fun _ _ hdomain => (h _ _ hdomain).field _ ih name
      function := fun argument method =>
        keeps_activeDomain_bind fun _ _ hdomain => (h _ _ hdomain).function _ ih argument method
      equal := fun left right =>
        keeps_activeDomain_bind fun _ _ hdomain => (h _ _ hdomain).equal _ ih left right
      process := fun t => keepsMark_render ih t }

end Catalog

/-! ## Scripts -/

namespace Script

/-- The steps of a script do not take the mark back. -/
def KeepsMark {α : Type} (steps : ScriptM α) : Prop :=
  ∀ f : Frame, f.walk.query.distinct = true → (steps.runFrom f).2.walk.query.distinct = true

namespace KeepsMark

variable {α β : Type} {steps : ScriptM α} {next : α → ScriptM β}

theorem pure (a : α) : KeepsMark (pure a : ScriptM α) := fun _ hf => hf

theorem throw (fault : CompileError) : KeepsMark (throw fault : ScriptM α) := fun _ hf => hf

theorem get : KeepsMark (get : ScriptM Frame) := fun _ hf => hf

theorem bind (h : KeepsMark steps) (hnext : ∀ a, KeepsMark (next a)) : KeepsMark (steps >>= next) := by
  intro f hf
  have hleft := h f hf
  have hrun : (steps >>= next).runFrom f = match steps.runFrom f with
      | (.ok a, left) => (next a).runFrom left
      | (.error fault, left) => (.error fault, left) := by
    unfold ScriptM.runFrom
    rw [ExceptT.run_bind, StateT.run_bind]
    rcases (ExceptT.run steps).run f with ⟨outcome, left⟩
    cases outcome <;> rfl
  rw [hrun]
  revert hleft
  rcases steps.runFrom f with ⟨outcome, left⟩
  intro hleft
  cases outcome with
  | ok a => exact hnext a left hleft
  | error fault => exact hleft

theorem walk {steps : WalkM α} (h : RelationSql.KeepsMark steps) : KeepsMark (ScriptM.walk steps) :=
  fun f hf => h f.walk hf

theorem text (template : String) : KeepsMark (text template) := .bind .get fun _ => .pure _

theorem assign (target text : String) : KeepsMark (ScriptM.assign target text) := fun _ hf => hf

theorem assignFrom (target : String) {steps : WalkM String} (h : RelationSql.KeepsMark steps) :
    KeepsMark (ScriptM.assignFrom target steps) :=
  .bind (.walk h) fun _ => .bind (.assign _ _) fun _ => .pure _

theorem perform {steps : WalkM Unit} (h : RelationSql.KeepsMark steps) :
    KeepsMark (ScriptM.perform steps) :=
  .bind (.walk h) fun _ => .pure _

theorem inScope (scope : String) (h : KeepsMark steps) : KeepsMark (ScriptM.inScope scope steps) :=
  fun f hf => h { f with walk := { f.walk with context := { f.walk.context with scope := some scope } } } hf

theorem attempting (target : String) {steps : ScriptM Ending} (h : KeepsMark steps) :
    KeepsMark (ScriptM.attempting target steps) := by
  intro f hf
  have hleft := h f hf
  have hrun : ((ScriptM.attempting target steps).runFrom f).2.walk = (steps.runFrom f).2.walk := by
    rcases hsteps : steps.runFrom f with ⟨outcome, left⟩
    have hsteps' : steps f = (outcome, left) := hsteps
    unfold ScriptM.attempting ScriptM.runFrom
    dsimp only [ExceptT.run, ExceptT.mk, StateT.run]
    rw [hsteps']
    rcases outcome with fault | ending
    · rfl
    · cases ending <;> rfl
  rw [hrun]
  exact hleft

end KeepsMark

variable {scene : Scene}

theorem keepsMark_side (h : scene.host.KeepsMark) (side : Side) :
    RelationSql.KeepsMark (scene.side side) := by
  unfold Scene.side
  split
  · exact h.process _
  · exact h.process _
  · exact .throw _

theorem keepsMark_describe (host : Host) : RelationSql.KeepsMark (describe host) :=
  .bind host.keeps_activeProfile fun _ => .bind host.keeps_defaultScope fun _ =>
    .bind .get fun _ => .pure _

theorem distinct_addKeyValueTable (use table key : String) (tie : String → String) {q : Query}
    (h : q.distinct = true) : (q.addKeyValueTable use table key tie).2.distinct = true := by
  unfold Query.addKeyValueTable
  split <;> exact h

theorem distinct_addSelect (field declaration : String) {q : Query} (h : q.distinct = true) :
    (q.addSelect field declaration).distinct = true := by
  have hdeclare (key : String) (type : Option String) : (q.declareType key type).distinct = true := by
    unfold Query.declareType
    split <;> exact h
  exact hdeclare _ _

theorem distinct_addJoin (table1 kind table2 clause : String) (name : Option String) {q : Query}
    (h : q.distinct = true) : (q.addJoin table1 kind table2 clause name).2.distinct = true := by
  unfold Query.addJoin
  dsimp only
  split <;> exact h

mutual

/-- **No action takes the mark back.** -/
theorem keepsMark_runAction (h : scene.host.KeepsMark) : ∀ action, KeepsMark (runAction scene action)
  | .addTable table => .bind (.text _) fun _ => .perform (h.addTableAs _ _)
  | .addTableAs use table =>
    .bind (.text _) fun _ => .bind (.text _) fun _ => .perform (h.addTableAs _ _)
  | .queryTable use table avoidAlias =>
    .bind (.text _) fun _ => .bind (.text _) fun _ => .perform (.addTable _ _ _)
  | .filter template => .bind (.text _) fun _ => .perform (.addFilter _)
  | .set target template => .bind (.text _) fun _ => .bind (.assign _ _) fun _ => .pure _
  | .tableAt target table index =>
    .bind (.text _) fun _ => .assignFrom _ (.bind .query fun _ => .pure _)
  | .field target name => .bind (.text _) fun _ => .assignFrom _ (Host.keeps_fieldOrAttr h.field _)
  | .fieldAt target name table index =>
    .bind (.text _) fun _ => .bind (.text _) fun _ =>
      .assignFrom _ (.bind .query fun _ => Host.keeps_fieldOrAttrIn h.field _ _)
  | .resolve target name => .bind (.text _) fun _ => .assignFrom _ (Host.keeps_resolveField h.field _)
  | .attr target name => .bind (.text _) fun _ => .assignFrom _ (scene.host.keeps_attr _)
  | .default target key =>
    .bind (.text _) fun _ => .assignFrom _ (.bind (scene.host.keeps_default _) fun _ => .pure _)
  | .useDefaultScope => .perform scene.host.keepsMark_useDefaultScope
  | .applyScope scope => .bind (.text _) fun _ => .perform (Host.keeps_applyScope h.field _)
  | .applyDefaultScope =>
    .perform (.bind scene.host.keeps_defaultScope fun _ => Host.keeps_applyScope? h.field _)
  | .changeDomain domain => .bind (.text _) fun _ => .perform (scene.host.keepsMark_changeDomain _)
  | .join target table1 kind table2 clause name =>
    .bind (.text _) fun _ => .bind (.text _) fun _ => .bind (.text _) fun _ => .bind (.text _) fun _ =>
      .assignFrom _ (.updateQuery fun _ hq => distinct_addJoin _ _ _ _ _ hq)
  | .keyValue target use table key tie =>
    .bind (.text _) fun _ => .bind (.text _) fun _ => .bind (.text _) fun _ => .bind (.text _) fun _ =>
      .assignFrom _ (.updateQuery fun _ hq => distinct_addKeyValueTable _ _ _ _ hq)
  | .select field name =>
    .bind (.text _) fun _ => .bind (.text _) fun _ =>
      .perform (.modifyQuery fun _ hq => distinct_addSelect _ _ hq)
  | .setAlias none => .perform (.modifyContext _)
  | .setAlias (some name) => .bind (.text _) fun _ => .perform (.modifyContext _)
  | .withScope scope actions =>
    .bind (.text _) fun _ => .inScope _ (keepsMark_runActions h actions)
  | .info target => .assignFrom _ (keepsMark_describe _)
  | .process target side => .assignFrom _ (keepsMark_side h side)
  | .eval target tree => .assignFrom _ (h.process _)
  | .branch condition then_ else_ => by
    refine .bind .get fun f => ?_
    split
    · exact keepsMark_runActions h then_
    · exact keepsMark_runActions h else_
  | .attempt target actions => .attempting _ (keepsMark_runActions h actions)
  | .emit template => .bind (.text _) fun _ => .pure _
  | .decline => .pure _
  | .fail failure reason => .bind (.text _) fun _ => .throw _

theorem keepsMark_runActions (h : scene.host.KeepsMark) :
    ∀ actions, KeepsMark (runActions scene actions)
  | [] => .pure _
  | action :: actions => by
    refine .bind (keepsMark_runAction h action) fun ending => ?_
    split
    · exact keepsMark_runActions h actions
    · exact .pure _

end

theorem keepsMark_runHook (h : scene.host.KeepsMark) (values : List (String × String))
    (actions : List Action) : RelationSql.KeepsMark (runHook scene values actions) :=
  fun w hw => keepsMark_runActions h actions ⟨w, .ofList values⟩ hw

/-- **The hooks of a script do not take the mark back.** -/
theorem domain_keepsMark (script : Script) : script.domain.KeepsMark where
  relation := by
    intro host hhost kind name
    show RelationSql.KeepsMark (script.relation host kind name)
    unfold relation
    split
    · exact .pure _
    · exact .bind (keepsMark_runHook hhost _ _) fun _ => .pure _
  field := by
    intro host hhost name
    show RelationSql.KeepsMark (script.field host name)
    unfold field
    split
    · exact .pure _
    · split
      · exact .bind .get fun _ => .pure _
      · exact .bind (keepsMark_runHook hhost _ _) fun _ => .pure _
  function := by
    intro host hhost argument method
    show RelationSql.KeepsMark (script.function host argument method)
    unfold function
    split
    · exact .pure _
    · exact .bind (keepsMark_runHook hhost _ _) fun _ => .pure _
  equal := fun host hhost left right => .bind (keepsMark_runHook hhost _ _) fun _ => .pure _

end Script

end RelationSql
