import RelationSql.Proofs.Walk.Yields

/-!
# What steps keep

Steps keep a relation between states if each state that they are run from is in it with the state that
they leave, also where they fail (`Keeps`). Conditions and the clauses of a source put texts into the
query and nothing else, so what does not look at texts is kept by every node of a tree as long as the
hooks keep it (`keeps_renderNode`). Relations and alternatives are left out of this: they add tables.
-/

namespace RelationSql

open WalkM RelationSql.Part

/-- The second query has the tables of the first one, under the same aliases, and the mark of a chain if
the first one has it. -/
structure Query.SameTables (q q' : Query) : Prop where
  mainTable : q'.mainTable = q.mainTable
  tables : q'.tables = q.tables
  tableAlias : q'.tableAlias = q.tableAlias
  distinct : q.distinct = true → q'.distinct = true

/-- The second context is that of the same relation. -/
structure Context.SameRelation (c c' : Context) : Prop where
  first : c'.first = c.first
  scope : c'.scope = c.scope
  scopeType : c'.scopeType = c.scopeType

/-- A relation between earlier and later states that looks neither at the conditions of the query nor at
what is being rendered. A context that is brought back counts as never left. -/
class Steady (R : Walk → Walk → Prop) : Prop where
  refl : ∀ w, R w w
  trans : ∀ {w w' w''}, R w w' → R w' w'' → R w w''
  context : ∀ (w : Walk) {c}, w.context.SameRelation c → R w { w with context := c }
  within : ∀ {w left : Walk} {c}, R { w with context := c } left → R w { left with context := w.context }
  filter : ∀ (w : Walk) filter, R w { w with query := w.query.addFilter filter }

/-- Such a relation that does not look at any of the texts of the query. -/
class Lasting (R : Walk → Walk → Prop) : Prop where
  refl : ∀ w, R w w
  trans : ∀ {w w' w''}, R w w' → R w' w'' → R w w''
  context : ∀ (w : Walk) {c}, w.context.SameRelation c → R w { w with context := c }
  within : ∀ {w left : Walk} {c}, R { w with context := c } left → R w { left with context := w.context }
  query : ∀ (w : Walk) {q}, w.query.SameTables q → R w { w with query := q }

instance (R : Walk → Walk → Prop) [Lasting R] : Steady R where
  refl := Lasting.refl
  trans := Lasting.trans
  context := Lasting.context
  within := Lasting.within
  filter := fun w _ => Lasting.query w ⟨rfl, rfl, rfl, id⟩

/-- The state that the steps leave is in the relation, also where they fail. -/
def Keeps (R : Walk → Walk → Prop) {α : Type} (steps : WalkM α) : Prop :=
  ∀ w, R w (steps.runFrom w).2

variable {R : Walk → Walk → Prop} [Steady R]

namespace Keeps

variable {α β : Type} {steps : WalkM α} {next : α → WalkM β}

/-! ## Sequences of steps -/

theorem pure (a : α) : Keeps R (pure a : WalkM α) := Steady.refl

theorem throw (fault : CompileError) : Keeps R (throw fault : WalkM α) := Steady.refl

theorem bind (h : Keeps R steps) (hnext : ∀ a, Keeps R (next a)) : Keeps R (steps >>= next) := by
  intro w
  have hleft := h w
  rw [runFrom_bind]
  revert hleft
  rcases steps.runFrom w with ⟨outcome, left⟩
  intro hleft
  cases outcome with
  | ok a => exact Steady.trans hleft (hnext a left)
  | error fault => exact hleft

theorem get : Keeps R (get : WalkM Walk) := Steady.refl

theorem query : Keeps R query := Steady.refl

theorem context : Keeps R context := Steady.refl

theorem modifyContext {change : Context → Context} (h : ∀ c : Context, c.SameRelation (change c)) :
    Keeps R (modifyContext change) :=
  fun w => Steady.context w (h w.context)

theorem enterPhase (phase : Phase) : Keeps R (enterPhase phase) := modifyContext fun _ => ⟨rfl, rfl, rfl⟩

theorem addFilter (filter : String) : Keeps R (addFilter filter) :=
  fun w => Steady.filter w filter

theorem within (h : Keeps R steps) (change : Context → Context) : Keeps R (within change steps) :=
  fun w => Steady.within (h { w with context := change w.context })

omit [Steady R] in
theorem modifyQuery [Lasting R] {change : Query → Query} (h : ∀ q : Query, q.SameTables (change q)) :
    Keeps R (modifyQuery change) :=
  fun w => Lasting.query w (h w.query)

end Keeps

/-! ## Hosts -/

/-- The hooks for the parts of an expression keep the relation. -/
structure Host.Keeps (R : Walk → Walk → Prop) (host : Host) : Prop where
  field : ∀ name, RelationSql.Keeps R (host.field name)
  function : ∀ argument method, RelationSql.Keeps R (host.function argument method)
  equal : ∀ left right, RelationSql.Keeps R (host.equal left right)

namespace Host

variable (host : Host)

theorem keeps_activeProfile : RelationSql.Keeps R host.activeProfile := by
  refine .bind .get fun w => ?_
  dsimp only
  split
  · exact .pure _
  · exact .throw _

theorem keeps_default (key : String) : RelationSql.Keeps R (host.default key) :=
  .bind host.keeps_activeProfile fun _ => .pure _

theorem keeps_defaultScope : RelationSql.Keeps R host.defaultScope := by
  refine .bind .context fun c => ?_
  split
  · exact host.keeps_default _
  · exact .bind host.keeps_activeProfile fun _ => .pure _

theorem keeps_joinScope : RelationSql.Keeps R host.joinScope :=
  .bind host.keeps_activeProfile fun _ => .bind .context fun _ => .pure _

theorem keeps_attr (name : String) : RelationSql.Keeps R (host.attr name) := by
  unfold attr
  split
  · exact .pure _
  · split
    · exact .pure _
    · exact .throw _

variable {host} (hfield : ∀ name, RelationSql.Keeps R (host.field name))

include hfield

theorem keeps_resolveField (name : String) : RelationSql.Keeps R (host.resolveField name) := by
  refine .bind (hfield name) fun rendered => ?_
  split
  · exact .pure _
  · refine .bind .query fun q => ?_
    split
    · exact .bind .context fun _ => .pure _
    · exact .throw _

theorem keeps_fieldOrAttrIn (name : String) (occurrence : Option String) :
    RelationSql.Keeps R (host.fieldOrAttrIn name occurrence) := by
  cases occurrence with
  | none => exact host.keeps_attr name
  | some use => exact (keeps_resolveField hfield name).within _

theorem keeps_fieldOrAttr (name : String) : RelationSql.Keeps R (host.fieldOrAttr name) :=
  .bind .get fun _ => keeps_fieldOrAttrIn hfield name _

/-! ### Scopes -/

theorem keeps_applyRule (rule : ScopeRule) : RelationSql.Keeps R (host.applyRule rule) := by
  cases rule with
  | unscoped => exact .pure _
  | compare current previous =>
    refine .bind (keeps_fieldOrAttr hfield current) fun current => ?_
    refine .bind .query fun q => ?_
    exact .bind (keeps_fieldOrAttrIn hfield previous _) fun previous => .addFilter _

theorem keeps_applyScope (scope : String) : RelationSql.Keeps R (host.applyScope scope) := by
  refine .bind (.enterPhase _) fun _ => ?_
  refine .bind host.keeps_activeProfile fun profile => ?_
  refine .bind .get fun w => ?_
  split
  · exact .throw _
  · exact .throw _
  · exact keeps_applyRule hfield _

theorem keeps_applyScope? (scope : Option String) : RelationSql.Keeps R (host.applyScope? scope) := by
  cases scope with
  | none => exact .pure _
  | some scope => exact keeps_applyScope hfield scope

/-! ### Tables -/

/-- A use of the main table, where uses of tables and all changes of the context are kept. -/
theorem keeps_addMainTable (hcontext : ∀ change, RelationSql.Keeps R (modifyContext change))
    (hadd : ∀ use table first, RelationSql.Keeps R (modifyQuery (Query.addTable use table first)))
    (use table : String) : RelationSql.Keeps R (host.addMainTable use table) := by
  refine .bind .context fun c => ?_
  dsimp only
  split
  refine .bind (hcontext _) fun _ => ?_
  all_goals
    refine .bind .context fun c => ?_
    split
    · refine .bind (hcontext _) fun _ => ?_
      refine .bind host.keeps_joinScope fun scope => ?_
      split
      · exact .bind (hadd _ _ _) fun _ => .bind (keeps_applyScope hfield _) fun _ => hadd _ _ _
      · exact hadd _ _ _
    · refine .bind (hcontext _) fun _ => .bind (hadd _ _ _) fun _ => .bind .context fun c => ?_
      split
      · exact keeps_applyScope hfield _
      · exact .bind host.keeps_defaultScope fun _ => keeps_applyScope? hfield _
    · exact hadd _ _ _

theorem keeps_addTableAs (hcontext : ∀ change, RelationSql.Keeps R (modifyContext change))
    (hadd : ∀ use table first, RelationSql.Keeps R (modifyQuery (Query.addTable use table first)))
    (use table : String) : RelationSql.Keeps R (host.addTableAs use table) := by
  refine .bind .query fun q => ?_
  split
  · exact keeps_addMainTable hfield hcontext hadd use table
  · exact hadd _ _ _

end Host

/-! ## Rendering -/

/-- The part keeps the relation, and so does every part below it. -/
inductive Part.Kept (R : Walk → Walk → Prop) : Part → Prop where
  | mk {t : Tree} {steps : WalkM String} {parts : List Part} (render : Keeps R steps)
      (below : ∀ p ∈ parts, Kept R p) : Kept R (.mk t steps parts)

omit [Steady R] in
theorem Part.Kept.render_ {p : Part} (h : p.Kept R) : Keeps R p.render := by
  cases h
  assumption

omit [Steady R] in
theorem Part.Kept.parts_ {p : Part} (h : p.Kept R) : ∀ q ∈ p.parts, q.Kept R := by
  cases h
  assumption

variable {parts : List Part} {host : Host}

section Parts

variable (h : ∀ p ∈ parts, p.Kept R)

include h

/-- A child is one of the parts. -/
theorem keeps_child_bind {β : Type} (tag : Tag) (index : Nat) {next : Part → WalkM β}
    (hnext : ∀ p ∈ parts, p.Kept R → Keeps R (next p)) :
    Keeps R (child tag parts index >>= next) := by
  unfold child
  split
  · next p hp =>
    have hmem := List.mem_of_getElem? hp
    exact hnext p hmem (h p hmem)
  · exact .throw _

theorem keeps_renderChild (tag : Tag) (index : Nat) :
    Keeps R (renderChild tag parts index) :=
  keeps_child_bind h tag index fun _ _ hp => hp.render_

theorem keeps_atomChild (tag : Tag) (index : Nat) : Keeps R (atomChild tag parts index) := by
  refine keeps_child_bind h tag index fun p _ _ => ?_
  split
  · exact .pure _
  · exact .throw _

theorem keeps_renderAll : Keeps R (renderAll parts) := by
  induction parts with
  | nil => exact .pure _
  | cons p parts ih =>
    rw [List.forall_mem_cons] at h
    exact .bind h.1.render_ fun _ => .bind (ih h.2) fun _ => .pure _

/-! ### Expressions -/

namespace Expression

theorem keeps_negation (tag : Tag) : Keeps R (negation tag parts) := by
  refine keeps_child_bind h tag 0 fun p _ hp => ?_
  have hbelow := hp.parts_
  have hrest : Keeps R (do return "NOT " ++ (← p.render)) := .bind hp.render_ fun _ => .pure _
  split
  · next value low high _ hparts =>
    rw [hparts, List.forall_mem_cons, List.forall_mem_cons, List.forall_mem_singleton] at hbelow
    exact .bind hbelow.1.render_ fun _ => .bind hbelow.2.1.render_ fun _ =>
      .bind hbelow.2.2.render_ fun _ => .pure _
  · next left right _ hparts =>
    rw [hparts, List.forall_mem_cons, List.forall_mem_singleton] at hbelow
    split
    · exact .bind hbelow.1.render_ fun _ => .bind hbelow.2.render_ fun _ => .pure _
    · exact hrest
  · exact hrest

theorem keeps_operation (operator : Operator) : Keeps R (operation operator parts) := by
  unfold operation
  split
  · rw [List.forall_mem_cons, List.forall_mem_singleton] at h
    exact .bind h.1.render_ fun _ => .bind h.2.render_ fun _ => .pure _
  · exact .throw _

theorem keeps_disjunction : Keeps R (disjunction parts) :=
  .bind (keeps_renderChild h _ 0) fun _ => .bind (keeps_renderChild h _ 1) fun _ => .pure _

theorem keeps_equality (hequal : ∀ left ∈ parts, ∀ right ∈ parts, Keeps R (host.equal left.tree right.tree)) :
    Keeps R (equality host parts) := by
  refine keeps_child_bind h _ 0 fun left hmem hleft => ?_
  refine keeps_child_bind h _ 1 fun right hmem' hright => ?_
  refine .bind (hequal left hmem right hmem') fun form => ?_
  split
  · exact .pure _
  · exact .bind hleft.render_ fun _ => .bind hright.render_ fun _ => .pure _

theorem keeps_betweenBounds : Keeps R (betweenBounds parts) :=
  .bind (keeps_renderChild h _ 0) fun _ => .bind (keeps_renderChild h _ 1) fun _ =>
    .bind (keeps_renderChild h _ 2) fun _ => .pure _

theorem keeps_call (hfunction : ∀ argument method, Keeps R (host.function argument method)) :
    Keeps R (call host parts) := by
  refine .bind (keeps_renderChild h _ 0) fun argument => ?_
  refine .bind (keeps_renderChild h _ 1) fun method => ?_
  refine .bind (hfunction _ _) fun text => ?_
  split
  · exact .pure _
  · exact .throw _

theorem keeps_parenthesis : Keeps R (parenthesis parts) := by
  have hlist {parts : List Part} (h : ∀ p ∈ parts, p.Kept R) : Keeps R (parenthesised parts) :=
    .bind (keeps_renderAll h) fun _ => .pure _
  unfold parenthesis
  split
  · split
    · exact (List.forall_mem_singleton.1 h).render_
    · exact hlist h
  · exact hlist h

theorem keeps_operator
    (hequal : ∀ left ∈ parts, ∀ right ∈ parts, Keeps R (host.equal left.tree right.tree))
    (operator : Operator) : Keeps R (renderOperator host operator parts) := by
  unfold renderOperator
  split
  · exact keeps_negation h _
  · exact keeps_negation h _
  · exact keeps_disjunction h
  · exact keeps_equality h hequal
  · exact keeps_betweenBounds h
  · exact .bind (keeps_renderChild h _ 0) fun _ => .pure _
  · exact keeps_operation h _

end Expression

/-! ### Clauses -/

namespace Clause

theorem keeps_items (tag : Tag) (phase : Phase) : Keeps R (items tag phase parts) := by
  unfold items
  split
  · exact .throw _
  · rw [List.forall_mem_cons] at h
    exact .bind h.1.render_ fun _ => .bind (.enterPhase _) fun _ =>
      .bind (keeps_renderAll h.2) fun _ => .pure _

end Clause

end Parts

section Clauses

variable {R : Walk → Walk → Prop} [Lasting R] {parts : List Part} {host : Host}
  (h : ∀ p ∈ parts, p.Kept R)

include h

namespace Clause

theorem keeps_limit : Keeps R (limit parts) := by
  have hdrop : ∀ p ∈ parts.drop 1, p.Kept R := fun p hp => h p (List.mem_of_mem_drop hp)
  refine .bind (keeps_renderChild h _ 0) fun _ => .bind (.enterPhase _) fun _ => ?_
  split
  · next hparts =>
    rw [hparts, List.forall_mem_singleton] at hdrop
    exact .bind hdrop.render_ fun _ => .modifyQuery fun _ => ⟨rfl, rfl, rfl, id⟩
  · next hparts =>
    rw [hparts, List.forall_mem_cons, List.forall_mem_singleton] at hdrop
    exact .bind hdrop.2.render_ fun _ => .bind (.modifyQuery fun _ => ⟨rfl, rfl, rfl, id⟩) fun _ =>
      .bind hdrop.1.render_ fun _ => .modifyQuery fun _ => ⟨rfl, rfl, rfl, id⟩
  · exact .throw _

theorem keeps_offset : Keeps R (offset parts) := by
  have hrest : Keeps R (do
      enterPhase .limit
      setOffset (← renderChild .offset parts 1)) :=
    .bind (.enterPhase _) fun _ => .bind (keeps_renderChild h _ 1) fun _ =>
      .modifyQuery fun _ => ⟨rfl, rfl, rfl, id⟩
  refine .bind (keeps_renderChild h _ 0) fun _ => .bind .query fun q => ?_
  dsimp only
  split
  · exact .bind (.throw _) fun _ => hrest
  · exact hrest

theorem keeps_paginate : Keeps R (paginate parts) := by
  refine .bind (keeps_renderChild h _ 0) fun _ => .bind .query fun q => ?_
  split
  · exact .throw _
  · refine .bind (.enterPhase _) fun _ => .bind (keeps_renderChild h _ 1) fun _ => ?_
    exact .bind (.modifyQuery fun _ => ⟨rfl, rfl, rfl, id⟩) fun _ => .modifyQuery fun _ => ⟨rfl, rfl, rfl, id⟩

theorem keeps_from : Keeps R (from_ parts) := by
  refine keeps_child_bind h _ 0 fun outer _ houter => ?_
  refine keeps_child_bind h _ 1 fun inner _ hinner => ?_
  refine .bind (.modifyQuery fun _ => ⟨rfl, rfl, rfl, fun _ => rfl⟩) fun _ => ?_
  exact .bind (hinner.render_.within _) fun _ => .bind (houter.render_.within _) fun _ => .pure _

theorem keeps_scope : Keeps R (scope parts) :=
  keeps_child_bind h _ 0 fun _ _ hp => .bind (keeps_atomChild h _ 1) fun _ => hp.render_.within _

end Clause

end Clauses

theorem keeps_silently {steps : WalkM Unit} (h : Keeps R steps) : Keeps R (silently steps) :=
  .bind h fun _ => .pure _

variable {atEnd : WalkM Unit}

omit [Steady R] in
/-- **No node but a relation or an alternative takes away what its parts keep.** -/
theorem keeps_renderNode [Lasting R] (hhost : host.Keeps R) (hatEnd : Keeps R atEnd)
    (h : ∀ p ∈ parts, p.Kept R) {tag : Tag}
    (hrelation : tag = .relation → ∀ name, Keeps R (Clause.relation host name))
    (halternative : tag = .clauseOr → Keeps R (Alternative.clause host parts)) :
    Keeps R (renderNode host atEnd tag parts) := by
  have hatom := keeps_atomChild h
  have hchild := keeps_renderChild h
  cases tag with
  | query => exact keeps_silently (.bind (keeps_renderAll h) fun _ => hatEnd)
  | relation => exact .bind (hatom _ 0) fun name => keeps_silently (hrelation rfl name)
  | scope => exact Clause.keeps_scope h
  | from_ => exact keeps_silently (Clause.keeps_from h)
  | filter =>
    exact keeps_silently (.bind (hchild _ 0) fun _ => .bind (.enterPhase _) fun _ =>
      .bind (hchild _ 1) fun _ => .addFilter _)
  | clauseOr => exact keeps_silently (halternative rfl)
  | clauseAnd => exact .throw _
  | clausePar => exact hchild _ 0
  | par => exact Expression.keeps_parenthesis h
  | order | group | having =>
    exact keeps_silently
      (.bind (Clause.keeps_items h _ _) fun _ => .modifyQuery fun _ => ⟨rfl, rfl, rfl, id⟩)
  | limit => exact keeps_silently (Clause.keeps_limit h)
  | offset => exact keeps_silently (Clause.keeps_offset h)
  | paginate => exact keeps_silently (Clause.keeps_paginate h)
  | asc | desc => exact .bind (hchild _ 0) fun _ => .pure _
  | field => exact .bind (hatom _ 0) fun name => Host.keeps_resolveField hhost.field name
  | param | integer | real | method => exact hatom _ 0
  | string => exact .bind (hatom _ 0) fun content => .bind .query fun _ => .pure _
  | dstring =>
    refine .bind (hatom _ 0) fun content => ?_
    unfold Expression.template
    dsimp only
    split
    · exact .throw _
    · exact host.keeps_attr _
  | null | void => exact .pure _
  | function => exact Expression.keeps_call h hhost.function
  | interval => exact .bind (hchild _ 0) fun _ => .bind (hatom _ 1) fun _ => .pure _
  | op operator => exact Expression.keeps_operator h (fun _ _ _ _ => hhost.equal _ _) operator

/-! ## Trees -/

/-- Every tag of the tree has the property. -/
inductive Tree.Within (P : Tag → Prop) : Tree → Prop where
  | atom (text : String) : Within P (.atom text)
  | node {tag : Tag} {ts : List Tree} (htag : P tag) (below : ∀ t ∈ ts, Within P t) :
      Within P (.node tag ts)

@[simp] theorem Tree.within_atom {P : Tag → Prop} (text : String) : (atom text).Within P := .atom text

@[simp] theorem Tree.within_node {P : Tag → Prop} {tag : Tag} {ts : List Tree} :
    (node tag ts).Within P ↔ P tag ∧ ∀ t ∈ ts, t.Within P :=
  ⟨fun | .node htag below => ⟨htag, below⟩, fun h => .node h.1 h.2⟩

mutual

theorem Tree.Within.of_forall {P : Tag → Prop} (h : ∀ tag, P tag) : ∀ t : Tree, t.Within P
  | .atom text => .atom text
  | .node tag ts => .node (h tag) (all_of_forall h ts)

theorem Tree.Within.all_of_forall {P : Tag → Prop} (h : ∀ tag, P tag) :
    ∀ ts : List Tree, ∀ t ∈ ts, t.Within P
  | [] => by simp
  | t :: ts => List.forall_mem_cons.2 ⟨of_forall h t, all_of_forall h ts⟩

end

/-- A tree keeps what each of its nodes takes over from its parts. -/
theorem kept_ofTree {P : Tag → Prop} {t : Tree} (ht : t.Within P)
    (hnode : ∀ tag, P tag → ∀ parts : List Part, (∀ p ∈ parts, p.Kept R) →
      Keeps R (renderNode host atEnd tag parts)) :
    (ofTree (renderNode host atEnd) t).Kept R := by
  induction ht with
  | atom text => exact .mk (.pure text) (by simp)
  | @node tag ts htag _ ih =>
    have hparts : ∀ p ∈ ofTrees (renderNode host atEnd) ts, p.Kept R := by
      rw [ofTrees_eq_map]
      exact List.forall_mem_map.2 ih
    rw [ofTree]
    exact .mk (hnode tag htag _ hparts) hparts

/-! ## Domains -/

/-- The hooks for the parts of an expression keep the relation if those of the host do. -/
structure Domain.Keeps (R : Walk → Walk → Prop) (domain : Domain) : Prop where
  field : ∀ host, host.Keeps R → ∀ name, RelationSql.Keeps R (domain.field host name)
  function : ∀ host, host.Keeps R → ∀ argument method,
    RelationSql.Keeps R (domain.function host argument method)
  equal : ∀ host, host.Keeps R → ∀ left right, RelationSql.Keeps R (domain.equal host left right)

namespace Catalog

variable {catalog : Catalog} {β : Type} {next : Domain → WalkM β}

theorem keeps_domain_bind (name : String)
    (hnext : ∀ domain, catalog.domains.find? name = some domain → Keeps R (next domain)) :
    Keeps R (catalog.domain name >>= next) := by
  unfold Catalog.domain
  split
  · next domain hdomain => exact hnext domain hdomain
  · exact .throw _

theorem keeps_activeDomain_bind
    (hnext : ∀ name domain, catalog.domains.find? name = some domain → Keeps R (next domain)) :
    Keeps R (catalog.activeDomain >>= next) :=
  fun w => keeps_domain_bind w.domain (hnext w.domain) w

/-- **However deep hooks call each other, they keep what each of them keeps.** -/
theorem host_keeps (h : ∀ name domain, catalog.domains.find? name = some domain → domain.Keeps R)
    (options : Options) : ∀ depth, (catalog.host options depth).Keeps R
  | 0 =>
    { field := fun _ => .throw _
      function := fun _ _ => .throw _
      equal := fun _ _ => .throw _ }
  | depth + 1 =>
    have ih := host_keeps h options depth
    { field := fun name =>
        keeps_activeDomain_bind fun _ _ hdomain => (h _ _ hdomain).field _ ih name
      function := fun argument method =>
        keeps_activeDomain_bind fun _ _ hdomain => (h _ _ hdomain).function _ ih argument method
      equal := fun left right =>
        keeps_activeDomain_bind fun _ _ hdomain => (h _ _ hdomain).equal _ ih left right }

end Catalog

end RelationSql
