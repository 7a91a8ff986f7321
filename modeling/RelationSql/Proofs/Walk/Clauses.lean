import RelationSql.Proofs.Walk.Yields

/-!
# Clauses and the relations behind them

What the nodes of relations and clauses do, in terms of what their children do (`renderWith_scope`,
`renderWith_from`, `renderWith_filter`), and how a chain runs: its inner relation first, then its outer
one, each from the context in front of the chain (`runFrom_from`).
-/

namespace RelationSql

open WalkM RelationSql.Part

variable {host : Host} (atEnd : WalkM Unit)

/-! ## Steps of a node -/

theorem renderWith_relation (name : String) :
    renderWith host atEnd (.leaf .relation name) = silently (Clause.relation host name) := rfl

theorem renderWith_scope (inner : Tree) (name : String) :
    renderWith host atEnd (.node .scope [inner, .atom name]) =
      within (fun c => { c with scope := some name }) (renderWith host atEnd inner) := rfl

theorem renderWith_from (outer inner : Tree) :
    renderWith host atEnd (.node .from_ [outer, inner]) = silently (do
      modifyQuery fun q => { q with distinct := true }
      let _ ← within (fun c => { c with first := false }) (renderWith host atEnd inner)
      let _ ← within (fun c => { c with last := false }) (renderWith host atEnd outer)) := rfl

theorem renderWith_filter (inner condition : Tree) :
    renderWith host atEnd (.node .filter [inner, condition]) = silently (do
      let _ ← renderWith host atEnd inner
      enterPhase .filter
      addFilter (← renderWith host atEnd condition)) := rfl

/-- Parentheses around a clause do nothing. -/
theorem renderWith_clausePar (inner : Tree) :
    renderWith host atEnd (.node .clausePar [inner]) = renderWith host atEnd inner := rfl

/-- A source of one clause does what the clause does, and then what is to be done at the end. -/
theorem renderWith_query (t : Tree) :
    renderWith host atEnd (.node .query [t]) = silently (do
      let _ ← renderWith host atEnd t
      atEnd) := by
  have hparts : renderAll (ofTrees (renderNode host atEnd) [t]) = (do
      return [← renderWith host atEnd t]) := rfl
  show silently (renderRoot atEnd (ofTrees (renderNode host atEnd) [t])) = _
  rw [renderRoot, hparts, bind_assoc]
  rfl

/-- Without a group, or without custom queries, no relation is replaced by one. -/
theorem customQuery?_eq_none {catalog : Catalog} {options : Options}
    (h : options.group = none ∨ catalog.customQueries = .empty) (depth : Nat) (w : Walk) (name : String) :
    Clause.customQuery? (catalog.host options depth) w name = none := by
  have hhost : (catalog.host options depth).options = options ∧
      (catalog.host options depth).customQueries = catalog.customQueries := by
    cases depth <;> exact ⟨rfl, rfl⟩
  unfold Clause.customQuery?
  rw [hhost.1, hhost.2]
  rcases h with hgroup | hempty
  · rw [hgroup]
    rfl
  · rw [hempty]
    cases options.group with
    | none => rfl
    | some group =>
      show (if _ then _ else _) = _
      split <;> rfl

/-! ## Runs of a node -/

/-- Steps that run the same from every state are the same. -/
theorem WalkM.ext {α : Type} {steps steps' : WalkM α}
    (h : ∀ w, steps.runFrom w = steps'.runFrom w) : steps = steps' :=
  funext h

variable {w left : Walk} {text : String}

/-- A relation in a scope. -/
theorem runFrom_scopeNode (name : String) {inner : Tree}
    (h : (renderWith host atEnd inner).runFrom
      { w with context := { w.context with scope := some name } } = (.ok text, left)) :
    (renderWith host atEnd (.node .scope [inner, .atom name])).runFrom w =
      (.ok text, { left with context := w.context }) := by
  rw [renderWith_scope, runFrom_within, h]

/-- The walk in front of the inner relation of a `from`. -/
def Walk.inward (w : Walk) : Walk where
  domain := w.domain
  context := { w.context with first := false }
  query := { w.query with distinct := true }

/-- The walk in front of the outer relation of a `from`, behind the inner one. -/
def Walk.outward (context : Context) (w : Walk) : Walk :=
  { w with context := { context with last := false } }

/-- **A chain runs its inner relation and then its outer one**, unless the inner one fails. -/
theorem runFrom_from (outer inner : Tree) (w : Walk) :
    (renderWith host atEnd (.node .from_ [outer, inner])).runFrom w =
      match (renderWith host atEnd inner).runFrom w.inward with
      | (.error fault, behind) => (.error fault, { behind with context := w.context })
      | (.ok _, behind) =>
        match (renderWith host atEnd outer).runFrom (behind.outward w.context) with
        | (.error fault, left) => (.error fault, { left with context := w.context })
        | (.ok _, left) => (.ok "", { left with context := w.context }) := by
  have hmark : (modifyQuery fun q => { q with distinct := true }).runFrom w =
      (.ok (), { w with query := { w.query with distinct := true } }) := rfl
  have hinner : (within (fun c => { c with first := false }) (renderWith host atEnd inner)).runFrom
      { w with query := { w.query with distinct := true } } =
        (((renderWith host atEnd inner).runFrom w.inward).1,
          { ((renderWith host atEnd inner).runFrom w.inward).2 with context := w.context }) :=
    runFrom_within _ _ _
  rw [renderWith_from, silently, runFrom_bind, runFrom_bind_of_ok hmark, runFrom_bind, hinner]
  rcases (renderWith host atEnd inner).runFrom w.inward with ⟨fault | text, behind⟩
  · rfl
  · have houter : (within (fun c => { c with last := false }) (renderWith host atEnd outer)).runFrom
        { behind with context := w.context } =
          (((renderWith host atEnd outer).runFrom (behind.outward w.context)).1,
            { ((renderWith host atEnd outer).runFrom (behind.outward w.context)).2 with
              context := w.context }) :=
      runFrom_within _ _ _
    dsimp only
    rw [runFrom_bind, houter]
    rcases (renderWith host atEnd outer).runFrom (behind.outward w.context) with ⟨fault | text, left⟩
    · rfl
    · rfl

/-- A chain is rendered from its innermost relation on. -/
theorem runFrom_fromNode {outer inner : Tree} {behind : Walk} {text' : String}
    (hinner : (renderWith host atEnd inner).runFrom w.inward = (.ok text, behind))
    (houter : (renderWith host atEnd outer).runFrom (behind.outward w.context) = (.ok text', left)) :
    (renderWith host atEnd (.node .from_ [outer, inner])).runFrom w =
      (.ok "", { left with context := w.context }) := by
  rw [runFrom_from, hinner]
  dsimp only
  rw [houter]

end RelationSql
