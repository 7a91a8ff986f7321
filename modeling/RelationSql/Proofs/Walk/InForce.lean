import RelationSql.Proofs.Walk.Registered
import RelationSql.Proofs.Walk.Columns

/-!
# Clauses in force

The group and the pages of a query are set by clauses that may stand anywhere in its source, more than
once and in any order. The order in which they are walked is that of the relations that they stand behind:
the inner end of a chain comes before the outer one, and of the branches of an alternative only the first
one counts (`Tree.inForce`). As long as the hooks leave the end of a query alone (`Catalog.Spares`), a
query that is compiled has the end that these clauses make, one after the other (`Catalog.Spares.compile`).
-/

namespace RelationSql

open Grammar WalkM RelationSql.Part

/-! ## The end of a query -/

/-- The parts of a query that clauses behind its relations set: its group and its pages. -/
structure Closing where
  group : Option String
  limit : Option String
  offset : Option String
  pageKey : Option String
  pageSize : Option Nat

/-- The end of a query. -/
def Query.closing (q : Query) : Closing :=
  ⟨q.group, q.limit, q.offset, q.pageKey, q.pageSize⟩

/-- The query of the second walk ends as that of the first one. -/
def Walk.SameClosing (w w' : Walk) : Prop :=
  w'.query.closing = w.query.closing

instance steady_sameClosing : Steady Walk.SameClosing where
  refl _ := rfl
  trans h h' := h'.trans h
  context _ _ _ := rfl
  within := id
  filter _ _ := rfl

/-- The steps leave the end of the query as it is, also where they fail. -/
abbrev KeepsClosing {α : Type} (steps : WalkM α) : Prop :=
  Keeps Walk.SameClosing steps

namespace KeepsClosing

theorem modifyContext (change : Context → Context) : KeepsClosing (modifyContext change) :=
  fun _ => rfl

theorem modifyQuery {change : Query → Query} (h : ∀ q, (change q).closing = q.closing) :
    KeepsClosing (modifyQuery change) :=
  fun w => h w.query

theorem addTable (use table : String) (first : Bool) :
    KeepsClosing (WalkM.modifyQuery (Query.addTable use table first)) :=
  modifyQuery fun _ => rfl

end KeepsClosing

/-! ## Hooks that leave it alone -/

/-- Mending a branch does not touch its end. -/
def Profile.SparesClosing (profile : Profile) : Prop :=
  ∀ name table q mended, profile.missingTable name table q = .ok mended → mended.closing = q.closing

/-- Hooks that leave the end of a query as it is. They may render expressions, but no clauses. -/
structure Host.Spares (host : Host) : Prop where
  relation : ∀ domain kind name, KeepsClosing (host.relation domain kind name)
  field : ∀ name, KeepsClosing (host.field name)
  function : ∀ argument method, KeepsClosing (host.function argument method)
  equal : ∀ left right, Formed True .expression left → Formed True .expression right →
    KeepsClosing (host.equal left right)
  process : ∀ t, Formed True .expression t → KeepsClosing (host.process t)
  mends : ∀ name profile, host.profile? name = some profile → profile.SparesClosing

/-- The hooks of the domain leave the end of a query as it is, if those that they call do. -/
structure Domain.Spares (domain : Domain) : Prop where
  relation : ∀ host, host.Spares → ∀ kind name, KeepsClosing (domain.relation host kind name)
  field : ∀ host, host.Spares → ∀ name, KeepsClosing (domain.field host name)
  function : ∀ host, host.Spares → ∀ argument method, KeepsClosing (domain.function host argument method)
  equal : ∀ host, host.Spares → ∀ left right, Formed True .expression left →
    Formed True .expression right → KeepsClosing (domain.equal host left right)
  before : ∀ host, host.Spares → KeepsClosing (domain.before host)
  after : ∀ host, host.Spares → KeepsClosing (domain.after host)
  mends : domain.profile.SparesClosing

/-- The hooks of all domains leave the end of a query as it is. -/
def Catalog.Spares (catalog : Catalog) : Prop :=
  ∀ name domain, catalog.domains.find? name = some domain → domain.Spares

namespace Host.Spares

variable {host : Host} {atEnd : WalkM Unit} (h : host.Spares)

include h

theorem addTable (table : String) : KeepsClosing (host.addTable table) :=
  keeps_addTableAs h.field KeepsClosing.modifyContext KeepsClosing.addTable table table

/-! ### Expressions -/

omit h in
theorem kept_node {tag : Tag} {ts : List Tree}
    (hts : ∀ t ∈ ts, (ofTree (renderNode host atEnd) t).Kept Walk.SameClosing)
    (hnode : (∀ p ∈ ofTrees (renderNode host atEnd) ts, p.Kept Walk.SameClosing) →
      KeepsClosing (renderNode host atEnd tag (ofTrees (renderNode host atEnd) ts))) :
    (ofTree (renderNode host atEnd) (.node tag ts)).Kept Walk.SameClosing := by
  have hparts : ∀ p ∈ ofTrees (renderNode host atEnd) ts, p.Kept Walk.SameClosing := by
    rw [ofTrees_eq_map]
    exact List.forall_mem_map.2 hts
  rw [ofTree]
  exact .mk (hnode hparts) hparts

omit h in
theorem kept_leaf {tag : Tag} (text : String)
    (hnode : ∀ parts : List Part, (∀ p ∈ parts, p.Kept Walk.SameClosing) →
      KeepsClosing (renderNode host atEnd tag parts)) :
    (ofTree (renderNode host atEnd) (.leaf tag text)).Kept Walk.SameClosing :=
  kept_node (List.forall_mem_singleton.2 (.mk (.pure text) (by simp))) (hnode _)

theorem kept_field {t : Tree} (ht : IsField t) :
    (ofTree (renderNode host atEnd) t).Kept Walk.SameClosing := by
  obtain ⟨-⟩ := ht
  exact kept_leaf _ fun _ hparts =>
    .bind (keeps_atomChild hparts _ 0) fun name => Host.keeps_resolveField h.field name

omit h in
theorem kept_number {t : Tree} (ht : IsNumber t) :
    (ofTree (renderNode host atEnd) t).Kept Walk.SameClosing := by
  cases ht <;> exact kept_leaf _ fun _ hparts => keeps_atomChild hparts _ 0

/-- **An expression leaves the end of the query as it is.** -/
theorem kept_expression {role : Role} {t : Tree} (ht : Formed True role t) (hrole : role = .expression) :
    (ofTree (renderNode host atEnd) t).Kept Walk.SameClosing := by
  induction ht with
  | field ht => exact h.kept_field ht
  | number ht => exact kept_number ht
  | string content =>
    exact kept_leaf _ fun _ hparts =>
      .bind (keeps_atomChild hparts _ 0) fun _ => .bind .query fun _ => .pure _
  | template content =>
    refine kept_leaf _ fun _ hparts => .bind (keeps_atomChild hparts _ 0) fun content => ?_
    unfold Expression.template
    dsimp only
    split
    · exact .throw _
    · exact host.keeps_attr _
  | null => exact kept_node (by simp) fun _ => .pure _
  | parenthesis _ _ ih =>
    exact kept_node (fun t ht => ih t ht rfl) fun hparts => Expression.keeps_parenthesis hparts
  | @operator o ts _ hts ih =>
    refine kept_node (fun t ht => ih t ht rfl) fun hparts => Expression.keeps_operator hparts ?_ o
    rw [ofTrees_eq_map]
    simp only [List.forall_mem_map, tree_ofTree]
    exact fun left hleft right hright => h.equal left right (hts left hleft) (hts right hright)
  | @call t name _ _ ih =>
    refine kept_node ?_ fun hparts => Expression.keeps_call hparts h.function
    refine List.forall_mem_cons.2 ⟨ih rfl, List.forall_mem_singleton.2 ?_⟩
    exact kept_leaf _ fun _ hparts => keeps_atomChild hparts _ 0
  | interval ht _ =>
    refine kept_node ?_ fun hparts =>
      .bind (keeps_renderChild hparts _ 0) fun _ => .bind (keeps_atomChild hparts _ 1) fun _ => .pure _
    exact List.forall_mem_cons.2 ⟨kept_number ht, List.forall_mem_singleton.2 (.mk (.pure _) (by simp))⟩
  | _ => cases hrole

/-- An entry of an order. -/
theorem kept_ordering {t : Tree} (ht : IsOrdering t) :
    (ofTree (renderNode host atEnd) t).Kept Walk.SameClosing := by
  cases ht with
  | field ht => exact h.kept_field ht
  | asc ht | desc ht =>
    exact kept_node (List.forall_mem_singleton.2 (h.kept_field ht)) fun hparts =>
      .bind (keeps_renderChild hparts _ 0) fun _ => .pure _

omit h in
/-- Items that leave the end of the query as it is. -/
theorem keeps_renderAll_of {items : List Tree}
    (hitems : ∀ t ∈ items, (ofTree (renderNode host atEnd) t).Kept Walk.SameClosing) :
    KeepsClosing (renderAll (ofTrees (renderNode host atEnd) items)) := by
  rw [ofTrees_eq_map]
  exact keeps_renderAll (List.forall_mem_map.2 hitems)

/-! ### The default order -/

/-- The default order leaves the end of the query as it is. -/
theorem keeps_defaultOrder : KeepsClosing (defaultOrder host) := by
  refine .bind .query fun q => ?_
  split
  · refine .bind (host.keeps_default _) fun order => ?_
    split
    · unfold renderOrder
      split
      · exact .throw _
      · next tree hparse =>
        split
        · next clause hclause =>
          obtain ⟨items, rfl, hitems⟩ := (formed_of_parse hparse).items_of_orderOnly? hclause
          refine .bind ?_ fun _ => .pure _
          refine (kept_node (List.forall_mem_cons.2
            ⟨kept_node (by simp) fun _ => .pure _, fun u hu => h.kept_ordering (hitems u hu)⟩)
              fun hparts => ?_).render_
          exact .bind (.bind (Clause.keeps_items hparts _ _) fun _ => KeepsClosing.modifyQuery fun _ => rfl)
            fun _ => .pure _
        · exact .pure _
    · exact .pure _
  · exact .pure _

end Host.Spares

namespace Catalog.Spares

variable {catalog : Catalog} (h : catalog.Spares)

include h

/-- **However deep hooks call each other, they leave the end of a query as it is.** -/
theorem host (options : Options) : ∀ depth, (catalog.host options depth).Spares
  | 0 =>
    { relation := fun _ _ _ => .throw _
      field := fun _ => .throw _
      function := fun _ _ => .throw _
      equal := fun _ _ _ _ => .throw _
      process := fun _ _ => .throw _
      mends := fun name profile hprofile => by
        obtain ⟨domain, hfound, rfl⟩ := Option.map_eq_some_iff.1 hprofile
        exact (h _ _ hfound).mends }
  | depth + 1 =>
    have ih := host options depth
    { relation := fun name kind relation =>
        keeps_domain_bind name fun _ hdomain => (h _ _ hdomain).relation _ ih kind relation
      field := fun name =>
        keeps_activeDomain_bind fun _ _ hdomain => (h _ _ hdomain).field _ ih name
      function := fun argument method =>
        keeps_activeDomain_bind fun _ _ hdomain => (h _ _ hdomain).function _ ih argument method
      equal := fun left right hleft hright =>
        keeps_activeDomain_bind fun _ _ hdomain => (h _ _ hdomain).equal _ ih left right hleft hright
      process := fun _ ht => (ih.kept_expression ht rfl).render_
      mends := fun name profile hprofile => by
        obtain ⟨domain, hfound, rfl⟩ := Option.map_eq_some_iff.1 hprofile
        exact (h _ _ hfound).mends }

end Catalog.Spares

/-! ## Clauses that set the end of a query -/

/-- A clause that sets a part of the end of a query. -/
inductive Closer where
  | group (fields : List Tree)
  /-- A limit `limit count` or `limit start, count`. -/
  | limit (start : Option String) (count : String)
  | offset (start : String)
  | paginate (key : String)

namespace Closer

/-- The clause that a node is apart from what it stands behind. -/
def ofNode? : Tag → List Tree → Option Closer
  | .group, fields => some (.group fields)
  | .limit, [.node .integer [.atom count]] => some (.limit none count)
  | .limit, [.node .integer [.atom start], .node .integer [.atom count]] =>
    some (.limit (some start) count)
  | .offset, [.node .integer [.atom start]] => some (.offset start)
  | .paginate, [.node .param [.atom key]] => some (.paginate key)
  | _, _ => none

end Closer

/-- What stands first in such a node sets the end of the query as the whole node does, but for the clause
that the node is. -/
def Tag.leadsOn (tag : Tag) : Bool :=
  tag.isBehind || tag == .scope || tag == .clausePar || tag == .clauseOr || tag == .query

/-- The clauses of a tree that the end of its query shows, in the order in which they are walked. A chain is
walked from its inner end, and an alternative ends as its first branch. -/
def Tree.inForce : Tree → List Closer
  | .node .from_ [outer, inner] => inForce inner ++ inForce outer
  | .node .having [t, condition] => inForce t ++ inForce condition
  | .node tag (t :: items) => if tag.leadsOn then inForce t ++ (Closer.ofNode? tag items).toList else []
  | _ => []

/-- The fields of a group are rendered as these texts at some point of a walk. -/
def Host.GroupsBy (host : Host) (atEnd : WalkM Unit) (fields : List Tree) (texts : List String) : Prop :=
  ∃ w left, w.context.phase = .group ∧
    (renderAll (ofTrees (renderNode host atEnd) fields)).runFrom w = (.ok texts, left)

/-- The text of a group by these fields. -/
def groupText (texts : List String) : String :=
  " GROUP BY " ++ Text.joinWith ", " texts

/-- What a clause makes of the end of a query. -/
def Closer.Sets (host : Host) (atEnd : WalkM Unit) (v v' : Closing) : Closer → Prop
  | .group fields =>
    ∃ texts, host.GroupsBy atEnd fields texts ∧ v' = { v with group := some (groupText texts) }
  | .limit none count => v' = { v with limit := some (" LIMIT " ++ count) }
  | .limit (some start) count =>
    v' = { v with limit := some (" LIMIT " ++ count), offset := some (" OFFSET " ++ start) }
  | .offset start => v' = { v with offset := some (" OFFSET " ++ start) }
  | .paginate key =>
    ∃ size, (v.limit.bind Fragment.limitValue?).map (max 1) = some size ∧
      v' = { v with
        offset := some (" OFFSET " ++ Fragment.insertBind (Clause.pageOffset key size))
        pageKey := some key
        pageSize := some size }

/-- What clauses make of the end of a query, one after the other. -/
inductive Closing.Run (host : Host) (atEnd : WalkM Unit) : List Closer → Closing → Closing → Prop where
  | nil (v : Closing) : Run host atEnd [] v v
  | cons {closer : Closer} {closers : List Closer} {v v' v'' : Closing} (h : closer.Sets host atEnd v v')
      (hmore : Run host atEnd closers v' v'') : Run host atEnd (closer :: closers) v v''

namespace Closing.Run

variable {host : Host} {atEnd : WalkM Unit} {closers more : List Closer} {v v' v'' : Closing}

theorem append (h : Run host atEnd closers v v') (hmore : Run host atEnd more v' v'') :
    Run host atEnd (closers ++ more) v v'' := by
  induction h with
  | nil => exact hmore
  | cons hsets _ ih => exact .cons hsets (ih hmore)

theorem one {closer : Closer} (h : closer.Sets host atEnd v v') : Run host atEnd [closer] v v' :=
  .cons h (.nil v')

/-- A run is cut anywhere between its clauses. -/
theorem of_append (h : Run host atEnd (closers ++ more) v v'') :
    ∃ v', Run host atEnd closers v v' ∧ Run host atEnd more v' v'' := by
  induction closers generalizing v with
  | nil => exact ⟨v, .nil v, h⟩
  | cons closer closers ih =>
    cases h with
    | cons hsets hmore =>
      obtain ⟨v', hclosers, hmore⟩ := ih hmore
      exact ⟨v', .cons hsets hclosers, hmore⟩

/-- The run from one clause on. -/
theorem of_append_cons {closer : Closer} (h : Run host atEnd (closers ++ closer :: more) v v'') :
    ∃ before after, Run host atEnd closers v before ∧ closer.Sets host atEnd before after ∧
      Run host atEnd more after v'' := by
  obtain ⟨before, hclosers, hrest⟩ := of_append h
  cases hrest with
  | cons hsets hmore => exact ⟨before, _, hclosers, hsets, hmore⟩

/-- A property that every clause keeps is kept by a run. -/
theorem keep {p : Closing → Prop} (h : Run host atEnd closers v v')
    (hkeep : ∀ closer ∈ closers, ∀ v v', closer.Sets host atEnd v v' → p v → p v') (hv : p v) : p v' := by
  induction h with
  | nil => exact hv
  | cons hsets _ ih =>
    rw [List.forall_mem_cons] at hkeep
    exact ih hkeep.2 (hkeep.1 _ _ hsets hv)

end Closing.Run

/-! ## Walking a clause -/

section Walking

variable {host : Host} {atEnd : WalkM Unit} {w left : Walk} {text : String} {t u : Tree}

/-- A walk over the tree that succeeds does to the end of the query what the clauses do. Where a relation
stands `alone`, a custom query may take its place, which brings a group of its own. -/
def Reaches (host : Host) (atEnd : WalkM Unit) (alone : Prop) (closers : List Closer) (t : Tree) : Prop :=
  ∀ w text left, (renderWith host atEnd t).runFrom w = (.ok text, left) →
    ∃ group, ((alone → (w.context.first && w.context.last) = false) → group = w.query.group) ∧
      Closing.Run host atEnd closers { w.query.closing with group := group } left.query.closing

/-- Steps that leave the end of the query as it is. -/
theorem KeepsClosing.closing_eq {α : Type} {steps : WalkM α} (h : KeepsClosing steps) {a : α}
    (hrun : steps.runFrom w = (.ok a, left)) : left.query.closing = w.query.closing := by
  have hkept := h w
  rw [hrun] at hkept
  exact hkept

/-- A tree that keeps the end of the query. -/
theorem Reaches.of_keeps {alone : Prop} (h : KeepsClosing (renderWith host atEnd t)) :
    Reaches host atEnd alone [] t := by
  intro w text left hrun
  refine ⟨w.query.group, fun _ => rfl, ?_⟩
  rw [h.closing_eq hrun]
  exact .nil _

/-- What stands in a changed context and is not alone there has no custom query. -/
theorem Reaches.notAlone {alone : Prop} {closers : List Closer} (h : Reaches host atEnd alone closers t)
    (hcontext : (w.context.first && w.context.last) = false)
    (hrun : (renderWith host atEnd t).runFrom w = (.ok text, left)) :
    Closing.Run host atEnd closers w.query.closing left.query.closing := by
  obtain ⟨group, hgroup, hleft⟩ := h w text left hrun
  rw [hgroup fun _ => hcontext] at hleft
  exact hleft

/-! ### Relations -/

section Relation

variable (h : host.Spares)

include h

theorem keeps_askDomain (domain name : String) (kinds : List RelationKind) :
    KeepsClosing (Clause.askDomain host domain name kinds) := by
  induction kinds with
  | nil => exact .throw _
  | cons kind kinds ih =>
    have hrest : KeepsClosing (do
        if ← host.relation domain kind name then return
        else Clause.askDomain host domain name kinds) := by
      refine .bind (h.relation _ _ _) fun known => ?_
      split
      · exact .pure _
      · exact ih
    rw [Clause.askDomain]
    dsimp only
    split
    · exact .bind (KeepsClosing.modifyContext _) fun _ => hrest
    · exact hrest

/-- Only a relation that stands alone may bring a group. -/
theorem reaches_relation {alone : Prop} (halone : alone) (name : String) :
    Reaches host atEnd alone [] (.leaf .relation name) := by
  intro w text left hrun
  rw [renderWith_relation, silently] at hrun
  obtain ⟨_, middle, hrelation, hpure⟩ := runFrom_bind_eq_ok hrun
  cases hpure
  rw [Clause.relation, runFrom_bind_of_ok (yields_get w)] at hrelation
  split at hrelation
  · next custom hcustom =>
    cases hrelation
    refine ⟨(w.query.applyCustom custom).group, fun hcontext => ?_, ?_⟩
    · obtain ⟨_, _, hcustom⟩ := Option.bind_eq_some_iff.1 hcustom
      rw [hcontext halone] at hcustom
      cases hcustom
    · exact .nil _
  · refine ⟨w.query.group, fun _ => rfl, ?_⟩
    rw [(keeps_askDomain h _ _ _).closing_eq hrelation]
    exact .nil _

end Relation

/-! ### Clauses behind a relation -/

/-- What is rendered in the place of a relation that has been walked. -/
def Part.walked : Part := .mk (.atom "") (pure "") []

theorem Part.kept_walked : Part.walked.Kept Walk.SameClosing :=
  .mk (.pure "") (by simp)

/-- A clause behind another one goes on from the end that the other one makes. -/
theorem Reaches.behind {alone : Prop} {closers more : List Closer} {tag : Tag} {items : List Tree}
    (ht : Reaches host atEnd alone closers t) (htag : tag.isBehind = true)
    (hrest : ∀ w text left, (renderNode host atEnd tag
        (Part.walked :: ofTrees (renderNode host atEnd) items)).runFrom w = (.ok text, left) →
      Closing.Run host atEnd more w.query.closing left.query.closing) :
    Reaches host atEnd alone (closers ++ more) (.node tag (t :: items)) := by
  intro w text left hrun
  have hrender : renderWith host atEnd (.node tag (t :: items)) = _ := renderNode_behind htag _ _
  rw [hrender] at hrun
  obtain ⟨_, middle, hinner, hlast⟩ := runFrom_bind_eq_ok hrun
  obtain ⟨group, hgroup, hclosers⟩ := ht w _ _ hinner
  exact ⟨group, hgroup, hclosers.append (hrest _ _ _ hlast)⟩

/-- Such a clause adds what it is itself. -/
theorem Tree.inForce_behind {tag : Tag} (htag : tag.isBehind = true) (hhaving : tag ≠ .having)
    (items : List Tree) :
    (Tree.node tag (t :: items)).inForce = t.inForce ++ (Closer.ofNode? tag items).toList := by
  cases tag with
  | having => exact absurd rfl hhaving
  | filter | order | group | limit | offset | paginate => rfl
  | _ => cases htag

/-- The items of a group. -/
theorem run_group {fields : List Tree} (hrun : (renderNode host atEnd .group
      (Part.walked :: ofTrees (renderNode host atEnd) fields)).runFrom w = (.ok text, left))
    (hfields : KeepsClosing (renderAll (ofTrees (renderNode host atEnd) fields))) :
    Closing.Run host atEnd [.group fields] w.query.closing left.query.closing := by
  obtain ⟨_, after, hgroup, hsilent⟩ := runFrom_bind_eq_ok hrun
  cases hsilent
  obtain ⟨body, middle, hitems, hset⟩ := runFrom_bind_eq_ok hgroup
  cases hset
  have hphase : (enterPhase .group).runFrom w =
      (.ok (), { w with context := { w.context with phase := .group } }) := rfl
  have hwalked : Part.walked.render.runFrom w = (.ok "", w) := rfl
  rw [Clause.items, runFrom_bind_of_ok hwalked, runFrom_bind_of_ok hphase] at hitems
  obtain ⟨texts, last, htexts, hbody⟩ := runFrom_bind_eq_ok hitems
  cases hbody
  refine .one ⟨texts, ⟨_, _, rfl, htexts⟩, ?_⟩
  exact congrArg (fun v : Closing => { v with group := some (groupText texts) })
    (hfields.closing_eq htexts)

/-- The numbers of a limit. The offset is set behind the count, which is the second number. -/
theorem run_limit {counts : List Tree} (hlength : counts.length = 1 ∨ counts.length = 2)
    (hcounts : ∀ u ∈ counts, IsCount u)
    (hrun : (renderNode host atEnd .limit
      (Part.walked :: ofTrees (renderNode host atEnd) counts)).runFrom w = (.ok text, left)) :
    Closing.Run host atEnd (Closer.ofNode? .limit counts).toList w.query.closing left.query.closing := by
  rcases hlength with hlength | hlength
  · obtain ⟨u, rfl⟩ := List.length_eq_one_iff.1 hlength
    obtain ⟨-⟩ := List.forall_mem_singleton.1 hcounts
    cases hrun
    exact .one rfl
  · obtain ⟨u, v, rfl⟩ := List.length_eq_two.1 hlength
    rw [List.forall_mem_cons, List.forall_mem_singleton] at hcounts
    obtain ⟨⟨-⟩, ⟨-⟩⟩ := hcounts
    cases hrun
    exact .one rfl

theorem run_offset (hu : IsCount u)
    (hrun : (renderNode host atEnd .offset
      (Part.walked :: ofTrees (renderNode host atEnd) [u])).runFrom w = (.ok text, left)) :
    Closing.Run host atEnd (Closer.ofNode? .offset [u]).toList w.query.closing left.query.closing := by
  obtain ⟨-⟩ := hu
  obtain ⟨_, after, hoffset, hsilent⟩ := runFrom_bind_eq_ok hrun
  cases hsilent
  obtain ⟨_, middle, hwalked, hoffset⟩ := runFrom_bind_eq_ok hoffset
  cases hwalked
  rw [runFrom_bind_of_ok (yields_query w)] at hoffset
  dsimp only at hoffset
  split at hoffset
  · cases hoffset
  · cases hoffset
    exact .one rfl

theorem run_paginate {key : String}
    (hrun : (renderNode host atEnd .paginate
      (Part.walked :: ofTrees (renderNode host atEnd) [.leaf .param key])).runFrom w = (.ok text, left)) :
    Closing.Run host atEnd [.paginate key] w.query.closing left.query.closing := by
  obtain ⟨_, after, hpaginate, hsilent⟩ := runFrom_bind_eq_ok hrun
  cases hsilent
  obtain ⟨_, middle, hwalked, hpaginate⟩ := runFrom_bind_eq_ok hpaginate
  cases hwalked
  rw [runFrom_bind_of_ok (yields_query w)] at hpaginate
  split at hpaginate
  · cases hpaginate
  · next size hsize =>
    cases hpaginate
    exact .one ⟨size, hsize, rfl⟩

section Behind

variable (h : host.Spares)

include h

/-- A condition sets nothing. -/
theorem keeps_filter (hu : Formed True .expression u) :
    KeepsClosing (renderNode host atEnd .filter
      (Part.walked :: ofTrees (renderNode host atEnd) [u])) := by
  have hparts : ∀ p ∈ Part.walked :: ofTrees (renderNode host atEnd) [u], p.Kept Walk.SameClosing :=
    List.forall_mem_cons.2 ⟨Part.kept_walked, List.forall_mem_singleton.2 (h.kept_expression hu rfl)⟩
  exact keeps_silently (.bind (keeps_renderChild hparts _ 0) fun _ => .bind (.enterPhase _) fun _ =>
    .bind (keeps_renderChild hparts _ 1) fun _ => .addFilter _)

theorem keeps_order {items : List Tree} (hitems : ∀ u ∈ items, IsOrdering u) :
    KeepsClosing (renderNode host atEnd .order
      (Part.walked :: ofTrees (renderNode host atEnd) items)) := by
  have hparts : ∀ p ∈ Part.walked :: ofTrees (renderNode host atEnd) items, p.Kept Walk.SameClosing := by
    rw [ofTrees_eq_map]
    exact List.forall_mem_cons.2
      ⟨Part.kept_walked, List.forall_mem_map.2 fun u hu => h.kept_ordering (hitems u hu)⟩
  exact keeps_silently
    (.bind (Clause.keeps_items hparts _ _) fun _ => KeepsClosing.modifyQuery fun _ => rfl)

end Behind

/-- What stands behind a `having` does to the end of the query what it does alone. -/
theorem run_having {closers : List Closer} {alone : Prop} (halone : ¬ alone)
    (hu : Reaches host atEnd alone closers u)
    (hrun : (renderNode host atEnd .having
      (Part.walked :: ofTrees (renderNode host atEnd) [u])).runFrom w = (.ok text, left)) :
    Closing.Run host atEnd closers w.query.closing left.query.closing := by
  obtain ⟨_, after, hhaving, hsilent⟩ := runFrom_bind_eq_ok hrun
  cases hsilent
  obtain ⟨body, middle, hitems, hset⟩ := runFrom_bind_eq_ok hhaving
  cases hset
  have hphase : (enterPhase .having).runFrom w =
      (.ok (), { w with context := { w.context with phase := .having } }) := rfl
  have hwalked : Part.walked.render.runFrom w = (.ok "", w) := rfl
  rw [Clause.items, runFrom_bind_of_ok hwalked, runFrom_bind_of_ok hphase] at hitems
  obtain ⟨texts, last, hall, hbody⟩ := runFrom_bind_eq_ok hitems
  cases hbody
  obtain ⟨rendered, behind, hchain, hnil⟩ := runFrom_bind_eq_ok hall
  cases hnil
  obtain ⟨group, hgroup, hclosers⟩ := hu _ _ _ hchain
  obtain rfl := hgroup fun h => absurd h halone
  exact hclosers

/-! ### Scopes and chains -/

theorem Reaches.scope {alone : Prop} {closers : List Closer} (ht : Reaches host atEnd alone closers t)
    (name : String) : Reaches host atEnd alone closers (.node .scope [t, .atom name]) := by
  intro w text left hrun
  rw [renderWith_scope, runFrom_within] at hrun
  obtain ⟨hok, rfl⟩ := Prod.mk.inj hrun
  have hscoped := ht { w with context := { w.context with scope := some name } } _ _ (Prod.ext hok rfl)
  exact hscoped

/-- **A chain goes on from its inner end to its outer one**, neither of which stands alone. -/
theorem Reaches.from_ {alone alone' : Prop} {closers more : List Closer}
    (hu : Reaches host atEnd alone closers u) (ht : Reaches host atEnd alone' more t) (free : Prop) :
    Reaches host atEnd free (closers ++ more) (.node .from_ [t, u]) := by
  intro w text left hrun
  rw [runFrom_from] at hrun
  split at hrun
  · cases hrun
  · next inner behind hinner =>
    split at hrun
    · cases hrun
    · next outer last houter =>
      cases hrun
      have hbehind := hu.notAlone (w := w.inward) rfl hinner
      have hlast := ht.notAlone (w := behind.outward w.context) (Bool.and_false _) houter
      exact ⟨w.query.group, fun _ => rfl, hbehind.append hlast⟩

/-! ### Alternatives -/

theorem closing_mend {profile : Profile} (h : profile.SparesClosing) {tables : List String} {q mended : Query}
    (hmend : Query.mend profile tables q = .ok mended) : mended.closing = q.closing := by
  induction tables generalizing q with
  | nil =>
    cases hmend
    rfl
  | cons table tables ih =>
    rw [Query.mend] at hmend
    split at hmend
    · exact ih hmend
    · dsimp only at hmend
      split at hmend
      · next hmissing => exact (ih hmend).trans (h _ _ _ _ hmissing)
      · cases hmend

theorem closing_foldl_absorb (queries : List Query) (q : Query) :
    (queries.foldl Query.absorb q).closing = q.closing := by
  induction queries generalizing q with
  | nil => rfl
  | cons other queries ih => exact ih (q.absorb other)

/-- **A merged query ends as its first branch.** -/
theorem closing_mergeBranches {profile : Profile} (h : profile.SparesClosing) {base q merged : Query}
    {queries : List Query} (hmerged : Query.mergeBranches profile base (q :: queries) = .ok merged) :
    merged.closing = q.closing := by
  obtain ⟨mended, hmended, rfl⟩ := mergeBranches_eq_ok hmerged
  cases forall₂_of_mendAll hmended with
  | cons hfirst _ => exact (closing_foldl_absorb _ _).trans (closing_mend h hfirst)

/-- The tree and the first of its branches do the same to the end of the query. -/
structure Follows (host : Host) (atEnd : WalkM Unit) (alone : Prop) (t : Tree) : Prop where
  clause : Reaches host atEnd alone t.inForce t
  first : ∃ branch branches, t.orBranches = branch :: branches ∧ Reaches host atEnd alone t.inForce branch

/-- What is no alternative is its only branch. -/
theorem Follows.of_clause {alone : Prop} (ht : t.tag? ≠ some .clauseOr)
    (h : Reaches host atEnd alone t.inForce t) : Follows host atEnd alone t := by
  refine ⟨h, t, [], ?_, h⟩
  cases t with
  | atom text => rfl
  | node tag ts =>
    cases tag with
    | clauseOr => exact absurd rfl ht
    | _ => rfl

theorem Follows.clauseOr {alone : Prop} (h : host.Spares) (ht : Follows host atEnd alone t) (us : List Tree) :
    Follows host atEnd alone (.node .clauseOr (t :: us)) := by
  obtain ⟨branch, branches, hbranches, hbranch⟩ := ht.first
  have hforce : (Tree.node .clauseOr (t :: us)).inForce = t.inForce := List.append_nil _
  have hall : (Tree.node .clauseOr (t :: us)).orBranches =
      branch :: (branches ++ Tree.orBranchesOf us) := by
    rw [Tree.orBranches, Tree.orBranchesOf, hbranches, List.cons_append]
  rw [← hforce] at hbranch
  refine ⟨?_, branch, _, hall, hbranch⟩
  intro w text left hrun
  obtain ⟨_, after, hclause, hsilent⟩ := runFrom_bind_eq_ok hrun
  cases hsilent
  obtain ⟨queries, profile, merged, hqueries, hprofile, hmerged, rfl⟩ := clause_eq_ok hclause
  have hparts : Alternative.branchesOfAll (ofTrees (renderNode host atEnd) (t :: us)) =
      (branch :: (branches ++ Tree.orBranchesOf us)).map (ofTree (renderNode host atEnd)) := by
    rw [branchesOfAll_ofTrees, ← hall]
    rfl
  rw [hparts, List.map_cons] at hqueries
  obtain ⟨q, queries, ⟨text, left, hfirst, rfl⟩, -, rfl⟩ := List.forall₂_cons_left_iff.1 hqueries
  obtain ⟨group, hgroup, hclosers⟩ := hbranch w text left hfirst
  refine ⟨group, hgroup, ?_⟩
  show Closing.Run _ _ _ _ merged.closing
  rw [closing_mergeBranches (h.mends _ _ hprofile) hmerged]
  exact hclosers

/-! ### Trees -/

/-- Expressions hold no clauses. -/
theorem inForce_expression (ht : Formed True .expression t) : t.inForce = [] := by
  cases ht with
  | field ht => cases ht; rfl
  | number ht => cases ht <;> rfl
  | @parenthesis ts => cases ts <;> rfl
  | @operator o ts => cases ts <;> rfl
  | _ => rfl

/-- **A walk over a well-formed clause does to the end of the query what the clauses in force do.** -/
theorem follows_of_formed (h : host.Spares) {role : Role} (ht : Formed True role t)
    (hrole : role ≠ .expression) : Follows host atEnd (role = .clause) t := by
  have hexpression {u : Tree} (hu : Formed True .expression u) (alone : Prop) :
      Reaches host atEnd alone u.inForce u := by
    rw [inForce_expression hu]
    exact .of_keeps (h.kept_expression hu rfl).render_
  have hlink {tag : Tag} (htag : isLink tag = true) {t u : Tree} {alone alone' : Prop}
      (ht : Follows host atEnd alone t) (hu : Follows host atEnd alone' u) :
      Follows host atEnd alone (.node tag [t, u]) := by
    rcases isLink_iff.1 htag with rfl | rfl | rfl
    · exact .of_clause (by simp [Tree.tag?]) (hu.clause.from_ ht.clause _)
    · exact ht.clauseOr h [u]
    · refine .of_clause (by simp [Tree.tag?]) fun w text left hrun => ?_
      cases hrun
  induction ht with
  | @relation name hname =>
    exact .of_clause (by simp [Tree.leaf, Tree.tag?]) (reaches_relation h rfl name)
  | @scope t name _ _ ih =>
    refine .of_clause (by simp [Tree.tag?]) ?_
    have hforce : (Tree.node .scope [t, .atom name]).inForce = t.inForce := List.append_nil _
    rw [hforce]
    exact (ih (by decide)).clause.scope name
  | filter _ hcondition ih =>
    refine .of_clause (by simp [Tree.tag?]) ?_
    rw [Tree.inForce_behind rfl (by decide)]
    refine (ih (by decide)).clause.behind rfl fun w text left hrun => ?_
    rw [(keeps_filter h hcondition).closing_eq hrun]
    exact .nil _
  | link htag _ _ ih ih' => exact hlink htag (ih (by decide)) (ih' (by decide))
  | @enclosed t _ ih =>
    refine .of_clause (by simp [Tree.tag?]) ?_
    have hforce : (Tree.node .clausePar [t]).inForce = t.inForce := List.append_nil _
    rw [hforce]
    exact (ih (by decide)).clause
  | having _ hcondition ih =>
    refine .of_clause (by simp [Tree.tag?]) ?_
    exact (ih (by decide)).clause.behind rfl fun _ _ _ => run_having not_false (hexpression hcondition False)
  | limit _ hlength hcounts ih =>
    refine .of_clause (by simp [Tree.tag?]) ?_
    rw [Tree.inForce_behind rfl (by decide)]
    exact (ih (by decide)).clause.behind rfl fun _ _ _ => run_limit hlength hcounts
  | offset _ hcount ih =>
    refine .of_clause (by simp [Tree.tag?]) ?_
    rw [Tree.inForce_behind rfl (by decide)]
    exact (ih (by decide)).clause.behind rfl fun _ _ _ => run_offset hcount
  | paginate _ _ ih =>
    refine .of_clause (by simp [Tree.tag?]) ?_
    rw [Tree.inForce_behind rfl (by decide)]
    exact (ih (by decide)).clause.behind rfl fun _ _ _ => run_paginate
  | order _ _ hitems ih =>
    refine .of_clause (by simp [Tree.tag?]) ?_
    rw [Tree.inForce_behind rfl (by decide)]
    refine (ih (by decide)).clause.behind rfl fun w text left hrun => ?_
    rw [(keeps_order h hitems).closing_eq hrun]
    exact .nil _
  | group _ _ hitems ih =>
    refine .of_clause (by simp [Tree.tag?]) ?_
    rw [Tree.inForce_behind rfl (by decide)]
    refine (ih (by decide)).clause.behind rfl fun _ _ _ hrun => run_group hrun ?_
    exact Host.Spares.keeps_renderAll_of fun u hu => h.kept_field (hitems u hu)
  | swallowed _ _ _ ih ih' =>
    refine .of_clause (by simp [Tree.tag?]) ?_
    exact (ih (by decide)).clause.behind rfl fun _ _ _ => run_having (by decide) (ih' (by decide)).clause
  | stolen hcondition _ _ ih' =>
    exact .of_clause (by simp [Tree.tag?]) ((ih' (by decide)).clause.from_ (hexpression hcondition False) _)
  | onward htag _ _ ih ih' => exact hlink htag (ih (by decide)) (ih' (by decide))
  | _ => exact absurd rfl hrole

end Walking

/-! ## Compiling -/

/-- The end of a query before its source is walked, with a group that a custom query may bring. -/
def Closing.start (group : Option String) : Closing :=
  ⟨group, none, none, none, none⟩

/-- The limit of the options, where there is none. -/
def Closing.limited (limit : Option Nat) (v : Closing) : Closing :=
  { v with limit := v.limit <|> limit.map fun count => " LIMIT " ++ toString count }

namespace Catalog

variable {catalog : Catalog} {options : Options} {name source : String} {tree : Tree} {q : Query}

theorem closing_applyLimit (limit : Option Nat) (q : Query) :
    (applyLimit limit q).closing = q.closing.limited limit := by
  cases hlimit : q.limit <;> cases limit <;> simp [applyLimit, Query.closing, Closing.limited, hlimit]

namespace Spares

variable (h : catalog.Spares)

/-- What is rendered of a source, or of the main table in the place of nothing. -/
theorem reaches_wholeTree {host : Host} (hhost : host.Spares) (htree : FormedSource True tree)
    (mainTable : String) :
    Reaches host (defaultOrder host) True tree.inForce (wholeTree mainTable tree) := by
  have hroot {t : Tree} {closers : List Closer} (ht : Reaches host (defaultOrder host) True closers t) :
      Reaches host (defaultOrder host) True closers (.node .query [t]) := by
    intro w text left hrun
    rw [renderWith_query] at hrun
    obtain ⟨_, after, hsteps, hsilent⟩ := runFrom_bind_eq_ok hrun
    cases hsilent
    obtain ⟨_, middle, hclause, horder⟩ := runFrom_bind_eq_ok hsteps
    rw [hhost.keeps_defaultOrder.closing_eq horder]
    exact ht _ _ _ hclause
  cases htree with
  | empty => exact hroot (reaches_relation hhost trivial mainTable)
  | @clause t ht =>
    have hforce : (Tree.node .query [t]).inForce = t.inForce := List.append_nil _
    rw [hforce]
    exact hroot (by simpa using (follows_of_formed hhost ht (by decide)).clause)

include h

/-- **A compiled query ends as the clauses in force make it**, and with the limit of the options if none
of them sets one. -/
theorem compile (hparse : parse source = .ok tree)
    (hcompile : catalog.compile options name source = .ok q) :
    ∃ group v, Closing.Run (catalog.host options maxDepth) (defaultOrder (catalog.host options maxDepth))
        tree.inForce (.start group) v ∧ q.closing = v.limited options.limit := by
  obtain ⟨start, _, left, -, hparse', hrun, rfl⟩ := exists_run_of_compile hcompile
  obtain rfl := Except.ok.inj (hparse.symm.trans hparse')
  have hhost := h.host options maxDepth
  have hbefore : KeepsClosing (catalog.activeDomain >>= fun domain =>
      domain.before (catalog.host options maxDepth)) :=
    keeps_activeDomain_bind fun _ _ hdomain => (h _ _ hdomain).before _ hhost
  have hafter : KeepsClosing (catalog.activeDomain >>= fun domain =>
      domain.after (catalog.host options maxDepth)) :=
    keeps_activeDomain_bind fun _ _ hdomain => (h _ _ hdomain).after _ hhost
  rw [Catalog.walk, ← bind_assoc] at hrun
  obtain ⟨_, begun, hbegun, hrun⟩ := runFrom_bind_eq_ok hrun
  rw [runFrom_bind_of_ok (yields_query begun)] at hrun
  obtain ⟨text, walked, hwalked, hrun⟩ := runFrom_bind_eq_ok hrun
  obtain ⟨group, -, hclosers⟩ :=
    reaches_wholeTree hhost (formed_of_parse hparse) _ _ _ _ hwalked
  rw [hbefore.closing_eq hbegun] at hclosers
  have hlimit : (modifyQuery (applyLimit options.limit)).runFrom walked =
      (.ok (), { walked with query := applyLimit options.limit walked.query }) := rfl
  rw [runFrom_bind_of_ok hlimit] at hrun
  refine ⟨group, walked.query.closing, hclosers, ?_⟩
  rw [hafter.closing_eq hrun]
  exact closing_applyLimit options.limit walked.query

end Spares

end Catalog

/-! ## Domains with one table -/

/-- A domain of one table whose fields are rendered by themselves, wherever they stand. -/
def Domain.rendering (profile : Profile) (column : String → String) : Domain :=
  { Domain.ofTable profile with field := fun _ name => pure (some (column name)) }

/-- The hooks of such a domain leave the end of a query alone. -/
theorem Domain.spares_rendering {profile : Profile} (hmends : profile.SparesClosing)
    (column : String → String) : (Domain.rendering profile column).Spares where
  relation host hhost kind name := by
    show KeepsClosing (if kind = .filter then do
      host.addTable profile.mainTable
      return true
    else return false)
    split
    · exact .bind (hhost.addTable _) fun _ => .pure _
    · exact .pure _
  field _ _ _ := .pure _
  function _ _ _ _ := .pure _
  equal _ _ _ _ _ _ := .pure _
  before _ _ := .pure _
  after _ _ := .pure _
  mends := hmends

/-- The catalog of objects with these columns. -/
def columnCatalog (column : String → String) : Catalog :=
  Catalog.addDomain (Domain.rendering objects column) {}

theorem spares_columnCatalog (column : String → String) : (columnCatalog column).Spares := by
  intro name domain hfound
  rw [columnCatalog, Catalog.addDomain, Dictionary.find?_insert] at hfound
  split at hfound
  · cases hfound
    exact Domain.spares_rendering (fun _ _ _ _ hmended => by cases hmended) column
  · cases hfound

end RelationSql
