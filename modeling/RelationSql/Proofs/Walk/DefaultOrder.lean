import RelationSql.Proofs.Grammar.Ordered
import RelationSql.Proofs.Walk.Associative

/-!
# The default order

A source without an order is compiled as if the default order were written at its end
(`compile_defaultOrder`). The default order is rendered by the same steps as an order clause, from the
state that the source leaves (`runFrom_defaultOrder`). Only where the source leaves a domain that is not
known, the two part: then no default can be looked up, and no field of an order can be rendered.
-/

namespace RelationSql

open Grammar WalkM RelationSql.Part

variable {catalog : Catalog} {options : Options} {host : Host} {atEnd : WalkM Unit} {items : List Tree}
  {t : Tree} {w left : Walk}

/-! ## Entries -/

/-- A field with a direction or without one. -/
inductive IsEntry : Tree → Prop where
  | field (name : String) : IsEntry (.leaf .field name)
  | asc (name : String) : IsEntry (.node .asc [.leaf .field name])
  | desc (name : String) : IsEntry (.node .desc [.leaf .field name])

theorem Grammar.Entries.isEntry {kinds : List Source.TokenKind} (h : Entries kinds items) :
    ∀ t ∈ items, IsEntry t := by
  have hentry {kinds : List Source.TokenKind} {t : Tree} (h : Entry kinds t) : IsEntry t := by
    cases h with
    | field name => exact .field name
    | asc name => exact .asc name
    | desc name => exact .desc name
  induction h with
  | last h => exact List.forall_mem_singleton.2 (hentry h)
  | cons h _ ih => exact List.forall_mem_cons.2 ⟨hentry h, ih⟩

/-- What is to be done at the end of a source has no part in the entries of an order. -/
theorem IsEntry.renderWith (h : IsEntry t) (host : Host) (atEnd atEnd' : WalkM Unit) :
    RelationSql.renderWith host atEnd t = RelationSql.renderWith host atEnd' t := by
  cases h <;> rfl

/-- The entries of an order, rendered behind a relation. -/
def renderEntries (host : Host) (items : List Tree) : WalkM Unit := do
  enterPhase .order
  let texts ← renderAll (ofTrees (renderNode host (pure ())) items)
  modifyQuery fun q => { q with order := some (" ORDER BY " ++ Text.joinWith ", " texts) }

theorem renderAll_entries (h : ∀ t ∈ items, IsEntry t) (host : Host) (atEnd atEnd' : WalkM Unit) :
    renderAll (ofTrees (renderNode host atEnd) items) =
      renderAll (ofTrees (renderNode host atEnd') items) := by
  induction items with
  | nil => rfl
  | cons t items ih =>
    rw [List.forall_mem_cons] at h
    have ht := h.1.renderWith host atEnd atEnd'
    rw [ofTrees, ofTrees, renderAll, renderAll, ih h.2]
    exact congrArg (fun steps : WalkM String => do
      let text ← steps
      return text :: (← renderAll (ofTrees (renderNode host atEnd') items))) ht

/-- An order renders what it stands behind, and then its entries. -/
theorem renderWith_order (h : ∀ t ∈ items, IsEntry t) (host : Host) (atEnd : WalkM Unit) (t : Tree) :
    renderWith host atEnd (.node .order (t :: items)) = silently (do
      let _ ← renderWith host atEnd t
      renderEntries host items) := by
  show silently (Clause.order (ofTree (renderNode host atEnd) t :: ofTrees (renderNode host atEnd) items)) = _
  rw [Clause.order, Clause.items, renderAll_entries h host atEnd (pure ())]
  simp only [bind_assoc, pure_bind]
  rfl

/-! ## The end of a source -/

/-- The default order is rendered by the steps of an order. -/
theorem renderOrder_eq {order : String} (horder : ListsOrder order items) (host : Host) :
    renderOrder host order = renderEntries host items := by
  have hparse : parse ("foo order by " ++ order) =
      .ok (.node .query [.node .order (.leaf .relation "foo" :: items)]) :=
    @parse_ordered _ "foo" _ _ (by decide +kernel) horder
  obtain ⟨kinds, -, hentries⟩ := horder
  rw [renderOrder, hparse]
  show (do let _ ← renderWith host (pure ()) (.node .order (.node .void [] :: items))) = _
  have hvoid : renderWith host (pure ()) (.node .void []) = pure "" := rfl
  rw [renderWith_order hentries.isEntry, hvoid]
  simp only [silently, bind_assoc, pure_bind, bind_pure_unit]

section Unknown

variable {depth : Nat} (hunknown : catalog.domains.find? w.domain = none)

include hunknown

/-- A field of a domain that is not known cannot be rendered. -/
theorem resolveField_unknown (name : String) :
    (((catalog.host options (depth + 1)).resolveField name).runFrom w).1 =
      .error (.unknownDomain w.domain) := by
  have hdomain : (catalog.activeDomain.runFrom w).1 = .error (.unknownDomain w.domain) := by
    show ((catalog.domain w.domain).runFrom w).1 = _
    rw [Catalog.domain, hunknown]
    rfl
  exact runFrom_bind_error (runFrom_bind_error hdomain _) _

theorem entry_unknown (h : IsEntry t) :
    ((renderWith (catalog.host options (depth + 1)) (pure ()) t).runFrom w).1 =
      .error (.unknownDomain w.domain) := by
  have hfield (name : String) :
      ((renderWith (catalog.host options (depth + 1)) (pure ()) (.leaf .field name)).runFrom w).1 =
        .error (.unknownDomain w.domain) := resolveField_unknown hunknown name
  cases h with
  | field name => exact hfield name
  | asc name => exact runFrom_bind_error (hfield name) _
  | desc name => exact runFrom_bind_error (hfield name) _

/-- The entries of an order cannot be rendered in a domain that is not known. -/
theorem renderEntries_unknown (hne : items ≠ []) (hitems : ∀ t ∈ items, IsEntry t) :
    ((renderEntries (catalog.host options (depth + 1)) items).runFrom w).1 =
      .error (.unknownDomain w.domain) := by
  cases items with
  | nil => exact absurd rfl hne
  | cons t items =>
    rw [List.forall_mem_cons] at hitems
    have hphase : (enterPhase .order).runFrom w =
      (.ok (), { w with context := { w.context with phase := .order } }) := rfl
    rw [renderEntries, runFrom_bind_of_ok hphase]
    refine runFrom_bind_error ?_ _
    refine runFrom_bind_error ?_ _
    exact entry_unknown (w := { w with context := { w.context with phase := .order } }) hunknown hitems.1

/-- No default can be looked up in a domain that is not known. -/
theorem default_unknown (key : String) :
    (((catalog.host options (depth + 1)).default key).runFrom w).1 =
      .error (.unknownDomain w.domain) := by
  have hprofile : ((catalog.host options (depth + 1)).activeProfile.runFrom w).1 =
      .error (.unknownDomain w.domain) := by
    have hfound : (catalog.host options (depth + 1)).profile? w.domain = none := by
      show (catalog.domains.find? w.domain).map Domain.profile = none
      rw [hunknown]
      rfl
    rw [Host.activeProfile, runFrom_bind_of_ok (yields_get w)]
    dsimp only
    rw [hfound]
    rfl
  exact runFrom_bind_error hprofile _

end Unknown

/-- The default order is rendered where a query has none. -/
theorem defaultOrder_eq_renderEntries {depth : Nat} {order : String} {domain : Domain}
    (hdomain : catalog.domains.find? w.domain = some domain) (hnone : w.query.order = none)
    (hdefault : options.defaults.find? "order" = some order) (horder : ListsOrder order items) :
    (defaultOrder (catalog.host options (depth + 1))).runFrom w =
      (renderEntries (catalog.host options (depth + 1)) items).runFrom w := by
  have hvalue : Yields ((catalog.host options (depth + 1)).default "order") w (some order) := by
    have hyields := yields_default options (depth + 1) hdomain "order"
    rwa [hdefault] at hyields
  rw [defaultOrder, runFrom_bind_of_ok (yields_query w), hnone]
  rw [if_pos (by rfl), runFrom_bind_of_ok hvalue]
  dsimp only
  rw [renderOrder_eq horder]

/-- A query that has an order is left as it is. -/
theorem yields_defaultOrder (h : w.query.order.isSome = true) (host : Host) :
    Yields (defaultOrder host) w () := by
  refine (yields_query w).bind ?_
  rw [if_neg (by simpa using Option.isSome_iff_ne_none.1 h)]
  exact .pure () w

/-- The entries of an order leave one. -/
theorem order_renderEntries {host : Host}
    (h : (renderEntries host items).runFrom w = (.ok (), left)) : left.query.order.isSome = true := by
  obtain ⟨_, _, -, h⟩ := runFrom_bind_eq_ok h
  obtain ⟨texts, middle, -, h⟩ := runFrom_bind_eq_ok h
  cases h
  rfl

/-! ## Sources -/

/-- **At the end of a source, the default order does what an order does.** -/
theorem sameRun_order {depth : Nat} {order : String} (horder : ListsOrder order items)
    (hdefault : options.defaults.find? "order" = some order)
    (hnone : ∀ text left, (render (catalog.host options (depth + 1)) t).runFrom w = (.ok text, left) →
      left.query.order = none) :
    SameRun ((render (catalog.host options (depth + 1)) (.node .query [t])).runFrom w)
      ((render (catalog.host options (depth + 1)) (.node .query [.node .order (t :: items)])).runFrom w) := by
  obtain ⟨kinds, -, hentries⟩ := id horder
  have hentry := hentries.isEntry
  simp only [render, renderWith_query, renderWith_order hentry]
  refine SameRun.bind ?_ _
  simp only [silently, bind_assoc, pure_bind]
  revert hnone
  rw [render, runFrom_bind, runFrom_bind]
  rcases (renderWith (catalog.host options (depth + 1))
    (defaultOrder (catalog.host options (depth + 1))) t).runFrom w with ⟨fault | text, left⟩
  · exact fun _ => .inl rfl
  · intro hnone
    dsimp only
    cases hdomain : catalog.domains.find? left.domain with
    | none =>
      refine .inr ⟨.unknownDomain left.domain, ?_, ?_⟩
      · rw [defaultOrder, runFrom_bind_of_ok (yields_query left), hnone text left rfl]
        exact runFrom_bind_error (default_unknown hdomain "order") _
      · exact runFrom_bind_error (renderEntries_unknown hdomain hentries.ne_nil hentry) _
    | some domain =>
      left
      rw [defaultOrder_eq_renderEntries hdomain (hnone text left rfl) hdefault horder, runFrom_bind]
      rcases hrun : (renderEntries (catalog.host options (depth + 1)) items).runFrom left with
        ⟨fault | _, ended⟩
      · rfl
      · exact (yields_defaultOrder (order_renderEntries hrun) _).symm

/-- The walk over the clauses of a source, with the hook in front of it. -/
def Catalog.walkClause (catalog : Catalog) (options : Options) (t : Tree) : WalkM String := do
  let host := catalog.host options maxDepth
  (← catalog.activeDomain).before host
  render host t

/-- Neither the hook in front of the walk nor the walk over the clause sets an order. -/
def Catalog.SetsNoOrder (catalog : Catalog) (options : Options) (domain : String) (t : Tree) : Prop :=
  ∀ start, catalog.domains.find? domain = some start →
    ∀ text left, (catalog.walkClause options t).runFrom (catalog.start options start) = (.ok text, left) →
      left.query.order = none

/-- **A default order is the explicit order.** A source of one clause that sets no order compiles under a
default order to the same query as with that order at its end, or fails with the same error, from every
domain of every catalog; and with the order at its end it is parsed into the order of its clause. -/
theorem compile_defaultOrder (catalog : Catalog) (options : Options) {order source : String}
    {items : List Tree} {t : Tree} (horder : ListsOrder order items)
    (hparse : parse source = .ok (.node .query [t])) :
    parse (source ++ " order by " ++ order) = .ok (.node .query [.node .order (t :: items)]) ∧
      ∀ domain, options.defaults.find? "order" = some order → catalog.SetsNoOrder options domain t →
        SameCompile (catalog.compile options domain source)
          (catalog.compile options domain (source ++ " order by " ++ order)) := by
  have hordered := parse_ordered hparse horder
  refine ⟨hordered, fun domain hdefault hnone => sameCompile_of_begins hparse hordered fun w hw => ?_⟩
  obtain ⟨start, hstart, hbegins⟩ := hw
  refine @sameRun_order catalog options items t w 9999 order horder hdefault fun text left hrun => ?_
  refine hnone start hstart text left ?_
  obtain ⟨active, _, hactive, hbefore⟩ := runFrom_bind_eq_ok hbegins
  rw [Catalog.walkClause, runFrom_bind_of_ok hactive, runFrom_bind_of_ok hbefore]
  exact hrun

/-! ## People in order -/

/-- Some friends, without an order of their own. -/
def someFriends : Tree :=
  .node .limit [.node .filter [.node .scope [.leaf .relation "friends", .atom "family"],
    .node (.op .greater) [.leaf .field "age", .leaf .integer "3"]], .leaf .integer "2"]

/-- Options with an order by age. -/
def byAge : Options where
  defaults := Dictionary.empty.insert "order" "age desc, id"

/-- The walk over these friends sets no order. -/
theorem setsNoOrder_someFriends :
    (Catalog.addDomain people.domain {}).SetsNoOrder byAge "people" someFriends := by
  intro start hstart text left hrun
  obtain rfl : people.domain = start := by
    rw [show (Catalog.addDomain people.domain {}).domains =
      Dictionary.empty.insert "people" people.domain from rfl, Dictionary.find?_insert_self] at hstart
    exact Option.some.inj hstart
  have horder : ((do
      let host := (Catalog.addDomain people.domain {}).host byAge Catalog.maxDepth
      (← (Catalog.addDomain people.domain {}).activeDomain).before host
      render host someFriends : WalkM String).runFrom
        ((Catalog.addDomain people.domain {}).start byAge people.domain)).2.query.order = none := by
    decide +kernel
  exact (congrArg (fun result => result.2.query.order) hrun).symm.trans horder

/-- An order behind a relation in a scope, with a condition and a limit. -/
theorem some_friends_by_age :
    parse ("friends in family where age > 3 limit 2" ++ " order by " ++ "age desc, id") =
        .ok (.node .query
          [.node .order [someFriends, .node .desc [.leaf .field "age"], .leaf .field "id"]]) ∧
      SameCompile
        ((Catalog.addDomain people.domain {}).compile byAge "people"
          "friends in family where age > 3 limit 2")
        ((Catalog.addDomain people.domain {}).compile byAge "people"
          ("friends in family where age > 3 limit 2" ++ " order by " ++ "age desc, id")) := by
  have hage : IsName "age" := ⟨'a', ['g', 'e'], rfl, rfl⟩
  have hid : IsName "id" := ⟨'i', ['d'], rfl, rfl⟩
  have horder : ListsOrder "age desc, id" [.node .desc [.leaf .field "age"], .leaf .field "id"] :=
    (WrittenOrder.cons (.desc hage) (.last (.field hid))).listsOrder
  have hparse : parse "friends in family where age > 3 limit 2" = .ok (.node .query [someFriends]) := by
    decide +kernel
  have hboth := compile_defaultOrder (Catalog.addDomain people.domain {}) byAge horder hparse
  exact ⟨hboth.1, hboth.2 "people" (by decide) setsNoOrder_someFriends⟩

end RelationSql
