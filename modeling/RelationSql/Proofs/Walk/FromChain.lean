import Mathlib.Data.List.Forall2
import RelationSql.Catalog
import RelationSql.Proofs.Grammar.Links
import RelationSql.Proofs.Grammar.Shape
import RelationSql.Proofs.Query.Uses
import RelationSql.Proofs.Walk.Clauses

/-!
# Chains of relations

Where each relation is one more use of the main table, a chain `first from … from last` becomes one
entry of `FROM` and one filter for each of its relations (`compile_chain`). The walk goes from the
innermost relation to the outermost: each adds its use, then compares it with the use before it, and
the innermost one with the caller's record through a bind.
-/

namespace RelationSql

open Grammar WalkM Query

/-- A domain whose relations are further uses of its main table, compiled without a translator, custom
queries or hooks around the walk. Every scope is answered with a comparison, and `scope` is the one that
the domain takes where none is asked for. -/
structure Chaining (catalog : Catalog) (options : Options) (domain : Domain) (scope : String) :
    Prop where
  found : catalog.domains.find? domain.profile.name = some domain
  declines : ∀ host kind name w, kind ≠ .filter →
    (domain.relation host kind name).runFrom w = (.ok false, w)
  resolves : ∀ host name w, (domain.relation host .filter name).runFrom w =
    (do host.addTable domain.profile.mainTable; return true : WalkM Bool).runFrom w
  field : ∀ host name w,
    Yields (domain.field host name) w (some (Host.currentTable w ++ "." ++ name))
  rule : ∀ name w, ∃ current previous,
    domain.profile.scope name w = .ok (some (.compare current previous))
  default : domain.profile.default "scope" = some scope
  before : ∀ host w, Yields (domain.before host) w ()
  after : ∀ host w, Yields (domain.after host) w ()
  translator : options.translator = none
  custom : options.group = none ∨ catalog.customQueries = .empty
  numbered : ∀ n, numbered domain.profile.mainTable n ≠ domain.profile.mainTable

/-! ## What a chain adds -/

/-- A field of the use before, or its bind for the innermost relation, which has none before it. -/
def reference : Option String → String → String
  | some use, name => use ++ "." ++ name
  | none, name => Fragment.insertBind name

/-- The scope of a relation that asks for none. The settings of the compile count for the innermost
relation only. -/
def defaultScope (options : Options) (scope : String) (last : Bool) : String :=
  if last then (options.defaults.find? "scope").getD scope else scope

/-- What a relation asks its domain for: a scope, and its place in the chain. -/
structure Ask where
  scope : String
  first : Bool
  last : Bool
  deriving DecidableEq, Repr

/-- The domain answers with a comparison of these two fields, asked in a state with this place in the
chain. -/
def Answered (domain : Domain) (ask : Ask) (rule : String × String) : Prop :=
  ∃ w : Walk, w.domain = domain.profile.name ∧ w.context.first = ask.first ∧
    w.context.last = ask.last ∧
    domain.profile.scope ask.scope w = .ok (some (.compare rule.1 rule.2))

/-- The name of the next use of a table: the outermost relation keeps the bare name. -/
def useName (table : String) (count : Nat) (first : Bool) : String :=
  if first then table else Query.numbered table (count + 1)

/-- The condition of a scope between a use and the one before it. -/
def tie (use : String) (before : Option String) (rule : String × String) : String :=
  use ++ "." ++ rule.1 ++ " = " ++ reference before rule.2

/-- A chain by its outermost relation and the others, the innermost first. -/
def nested (outermost : Link) : List Link → Tree
  | [] => outermost.tree
  | link :: outer => .node .from_ [nested outermost outer, link.tree]

/-- What the relations of a chain ask for, the innermost first. A relation that asks for no scope gets
the default of its place. -/
def asks (default : Bool → String) (outermost : Link) : (last : Bool) → List Link → List Ask
  | last, [] => [⟨outermost.scope.getD (default last), true, last⟩]
  | last, link :: outer =>
    ⟨link.scope.getD (default last), false, last⟩ :: asks default outermost false outer

/-- The names of the uses of a chain behind `count` others, the innermost first. -/
def usesFrom (table : String) : (count inners : Nat) → List String
  | _, 0 => [table]
  | count, inners + 1 => Query.numbered table (count + 1) :: usesFrom table (count + 1) inners

/-- The conditions between uses and the uses before them, the innermost first. -/
def ties : (before : Option String) → List String → List (String × String) → List String
  | before, use :: uses, rule :: rules => tie use before rule :: ties (some use) uses rules
  | _, _, _ => []

/-! ## One relation -/

/-- The walk with something else being rendered. -/
def Walk.inPhase (phase : Phase) (w : Walk) : Walk :=
  { w with context := { w.context with phase := phase } }

/-- The walk while a domain is asked for a relation in one of the ways. -/
def Walk.asking (kind : RelationKind) (w : Walk) : Walk :=
  if kind = .class_ then w else { w with context := { w.context with scopeType := some kind } }

/-- The walk after a use of the main table was added, before its scope is applied. -/
def Walk.used (table : String) (w : Walk) : Walk where
  domain := w.domain
  context :=
    { w.context with
      scopeType := none
      tableAlias := if w.context.first then some table else w.context.tableAlias }
  query := w.query.addTable table table w.context.first

section Relation

variable {catalog : Catalog} {options : Options} {domain : Domain} {scope : String}
  (h : Chaining catalog options domain scope) (depth : Nat) {w : Walk}

include h

theorem Chaining.activeDomain (hw : w.domain = domain.profile.name) :
    Yields catalog.activeDomain w domain := by
  apply yields_activeDomain
  rw [hw]
  exact h.found

theorem Chaining.activeProfile (hw : w.domain = domain.profile.name) :
    Yields (catalog.host options depth).activeProfile w domain.profile := by
  apply yields_activeProfile
  rw [hw]
  exact h.found

/-- A field is rendered with the current table. -/
theorem Chaining.resolveField (hw : w.domain = domain.profile.name) (name : String) :
    Yields ((catalog.host options (depth + 1)).resolveField name) w
      (Host.currentTable w ++ "." ++ name) := by
  have hfield : Yields ((catalog.host options (depth + 1)).field name) w
      (some (Host.currentTable w ++ "." ++ name)) :=
    (h.activeDomain hw).bind (h.field _ name w)
  exact hfield.bind (Yields.pure _ w)

/-- A field of a use, or its bind where there is no use. -/
theorem Chaining.fieldOf (hw : w.domain = domain.profile.name) (use : Option String) (name : String) :
    Yields ((catalog.host options (depth + 1)).fieldOrAttrIn name use) w (reference use name) := by
  cases use with
  | some use =>
    have hfield := h.resolveField depth
      (w := { w with context := { w.context with tableAlias := some use } }) hw name
    rw [Host.fieldOrAttrIn]
    exact Yields.within hfield
  | none =>
    unfold Host.fieldOrAttrIn Host.attr
    have htranslator : (catalog.host options (depth + 1)).options.translator = none := h.translator
    rw [htranslator]
    exact Yields.pure _ w

/-- A scope compares the current use with the one before it. -/
theorem Chaining.runFrom_applyScope (hw : w.domain = domain.profile.name) {use name : String}
    (hcurrent : Host.currentAlias w = some use) {current previous : String}
    (hrule : domain.profile.scope name (w.inPhase .scope) = .ok (some (.compare current previous))) :
    ((catalog.host options (depth + 1)).applyScope name).runFrom w =
      (.ok (), { w.inPhase .scope with
        query := w.query.addFilter (use ++ "." ++ current ++ " = " ++
          reference (w.query.alias? w.query.mainTable (-1)) previous) }) := by
  have hphase : (enterPhase .scope).runFrom w = (.ok (), w.inPhase .scope) := rfl
  have hprofile := h.activeProfile (depth + 1) (w := w.inPhase .scope) hw
  have hquery : Yields WalkM.query (w.inPhase .scope) w.query := yields_query _
  have hleft : Yields ((catalog.host options (depth + 1)).fieldOrAttr current) (w.inPhase .scope)
      (use ++ "." ++ current) := by
    have halias : Host.currentAlias (w.inPhase .scope) = some use := hcurrent
    refine (yields_get _).bind ?_
    rw [halias]
    exact h.fieldOf depth (w := w.inPhase .scope) hw (some use) current
  have hright := h.fieldOf depth (w := w.inPhase .scope) hw
    (w.query.alias? w.query.mainTable (-1)) previous
  rw [Host.applyScope, runFrom_bind_of_ok hphase, runFrom_bind_of_ok hprofile,
    runFrom_bind_of_ok (yields_get _), hrule]
  dsimp only
  rw [Host.applyRule, runFrom_bind_of_ok hleft, runFrom_bind_of_ok hquery,
    runFrom_bind_of_ok hright]
  rfl

/-- The default of the compile counts for the innermost relation only. -/
theorem Chaining.defaultScope (hw : w.domain = domain.profile.name) :
    Yields (catalog.host options depth).defaultScope w
      (some (RelationSql.defaultScope options scope w.context.last)) := by
  have hoptions : (catalog.host options depth).options = options := by cases depth <;> rfl
  refine (yields_context w).bind ?_
  unfold RelationSql.defaultScope
  cases w.context.last with
  | true =>
    refine (h.activeProfile depth hw).bind ?_
    rw [hoptions, h.default]
    cases options.defaults.find? "scope" <;> exact Yields.pure _ w
  | false =>
    refine (h.activeProfile depth hw).bind ?_
    rw [h.default]
    exact Yields.pure _ w

/-- A use of the main table is added, and then the scope of the relation is applied. -/
theorem Chaining.runFrom_addTable (hw : w.domain = domain.profile.name)
    (hmain : w.query.mainTable = domain.profile.mainTable)
    (hkind : w.context.scopeType = some .filter) :
    ((catalog.host options (depth + 1)).addTable domain.profile.mainTable).runFrom w =
      ((catalog.host options (depth + 1)).applyScope
        (w.context.scope.getD (RelationSql.defaultScope options scope w.context.last))).runFrom
          (w.used domain.profile.mainTable) := by
  have hdefault := h.defaultScope (depth + 1) (w := w.used domain.profile.mainTable) hw
  rw [Host.addTable, Host.addTableAs, runFrom_bind_of_ok (yields_query w), if_pos hmain.symm]
  obtain ⟨active, ⟨first, last, asked, kind, named, phase⟩, q⟩ := w
  obtain rfl : kind = some .filter := hkind
  cases first <;> cases asked with
  | some asked => rfl
  | none =>
    exact runFrom_bind_of_ok hdefault fun found =>
      (catalog.host options (depth + 1)).applyScope? found

/-- The domain of the chain is asked for its relations. -/
theorem Chaining.runFrom_hook (kind : RelationKind) (name : String) :
    ((catalog.host options (depth + 2)).relation domain.profile.name kind name).runFrom w =
      (domain.relation (catalog.host options (depth + 1)) kind name).runFrom w := by
  exact runFrom_bind_of_ok (yields_domain h.found w) fun found =>
    found.relation (catalog.host options (depth + 1)) kind name

/-- A way in which the domain declines the relation is passed over. -/
theorem Chaining.runFrom_askDomain (kind : RelationKind) (hkind : kind ≠ .filter) (name : String)
    (kinds : List RelationKind) :
    (Clause.askDomain (catalog.host options (depth + 2)) domain.profile.name name
        (kind :: kinds)).runFrom w =
      (Clause.askDomain (catalog.host options (depth + 2)) domain.profile.name name kinds).runFrom
        (w.asking kind) := by
  have hhook : Yields ((catalog.host options (depth + 2)).relation domain.profile.name kind name)
      (w.asking kind) false := by
    unfold Yields
    rw [h.runFrom_hook]
    exact h.declines _ kind name _ hkind
  cases kind with
  | filter => exact absurd rfl hkind
  | class_ => exact runFrom_bind_of_ok hhook _
  | join => exact runFrom_bind_of_ok hhook _
  | context => exact runFrom_bind_of_ok hhook _

/-- A relation adds a use of the main table. -/
theorem Chaining.runFrom_relation (hw : w.domain = domain.profile.name) {name : String} {left : Walk}
    (hadd : ((catalog.host options (depth + 1)).addTable domain.profile.mainTable).runFrom
      (w.asking .filter) = (.ok (), left)) :
    (Clause.relation (catalog.host options (depth + 2)) name).runFrom w = (.ok (), left) := by
  rw [Clause.relation, runFrom_bind_of_ok (yields_get w), customQuery?_eq_none h.custom, hw, RelationKind.all]
  dsimp only
  rw [h.runFrom_askDomain depth .class_ (by decide), h.runFrom_askDomain depth .join (by decide),
    h.runFrom_askDomain depth .context (by decide)]
  have hhook : ((catalog.host options (depth + 2)).relation domain.profile.name .filter name).runFrom
      (w.asking .filter) = (.ok true, left) := by
    rw [h.runFrom_hook, h.resolves, runFrom_bind_of_ok hadd]
    rfl
  exact runFrom_bind_of_ok hhook _

/-- A use of the main table is named after its place in the chain. -/
theorem Chaining.used_used (hmain : w.query.mainTable = domain.profile.mainTable) {count : Nat}
    (hused : w.query.UsedAs (numberedNames domain.profile.mainTable count)) :
    (w.used domain.profile.mainTable).query.UsedAs
      (numberedNames domain.profile.mainTable count ++
        [useName domain.profile.mainTable count w.context.first]) := by
  have hfree := h.numbered
  rw [← hmain] at hused hfree ⊢
  unfold useName
  cases hfirst : w.context.first with
  | true =>
    have houter := hused.outer hfree
    rw [← hfirst] at houter
    exact houter
  | false =>
    have hinner := hused.inner hfree
    rw [← hfirst, numberedNames_succ] at hinner
    exact hinner

/-- Fields are rendered with the newest use. -/
theorem Chaining.currentAlias_used (hmain : w.query.mainTable = domain.profile.mainTable)
    {count : Nat} (hused : w.query.UsedAs (numberedNames domain.profile.mainTable count))
    (hnamed : w.context.tableAlias = none) :
    Host.currentAlias (w.used domain.profile.mainTable) =
      some (useName domain.profile.mainTable count w.context.first) := by
  have hnewest : (w.used domain.profile.mainTable).query.alias?
      (w.used domain.profile.mainTable).query.mainTable 0 =
        some (useName domain.profile.mainTable count w.context.first) := by
    rw [alias?_zero, (h.used_used hmain hused).aliases, List.getLast?_concat]
  unfold Host.currentAlias
  rw [hnewest]
  unfold Walk.used useName
  cases w.context.first with
  | true => rfl
  | false =>
    simp only [Bool.false_eq_true, if_false, hnamed]
    rfl

/-- **A relation adds one use of the main table and one filter**, which compares that use with the one
before it. -/
theorem Chaining.relation_adds (hw : w.domain = domain.profile.name)
    (hmain : w.query.mainTable = domain.profile.mainTable) {count : Nat}
    (hused : w.query.UsedAs (numberedNames domain.profile.mainTable count))
    (hnamed : w.context.tableAlias = none) (name : String) :
    ∃ rule left,
      Answered domain ⟨w.context.scope.getD (RelationSql.defaultScope options scope w.context.last),
        w.context.first, w.context.last⟩ rule ∧
      (Clause.relation (catalog.host options (depth + 2)) name).runFrom w = (.ok (), left) ∧
      left.domain = domain.profile.name ∧
      left.query = (w.query.addTable domain.profile.mainTable domain.profile.mainTable
        w.context.first).addFilter
          (tie (useName domain.profile.mainTable count w.context.first)
            (numberedNames domain.profile.mainTable count).getLast? rule) := by
  have hused' := h.used_used (w := w.asking .filter) hmain hused
  have hcurrent := h.currentAlias_used (w := w.asking .filter) hmain hused hnamed
  obtain ⟨current, previous, hrule⟩ := h.rule
    (w.context.scope.getD (RelationSql.defaultScope options scope w.context.last))
    (((w.asking .filter).used domain.profile.mainTable).inPhase .scope)
  have hscope := h.runFrom_applyScope depth (w := (w.asking .filter).used domain.profile.mainTable)
    hw hcurrent hrule
  have hadd := h.runFrom_addTable depth (w := w.asking .filter) hw hmain rfl
  have hrun : (Clause.relation (catalog.host options (depth + 2)) name).runFrom w = _ :=
    h.runFrom_relation depth hw (hadd.trans hscope)
  refine ⟨(current, previous), _, ⟨((w.asking .filter).used domain.profile.mainTable).inPhase .scope,
    hw, rfl, rfl, hrule⟩, hrun, hw, ?_⟩
  have hbefore : ((w.asking .filter).used domain.profile.mainTable).query.alias?
      ((w.asking .filter).used domain.profile.mainTable).query.mainTable (-1) =
        (numberedNames domain.profile.mainTable count).getLast? := by
    rw [alias?_neg_one, hused'.aliases, List.dropLast_concat]
  rw [hbefore]
  rfl

/-- **A relation of a chain adds one use and one filter**, whether it asks for a scope or not. -/
theorem Chaining.link_adds (atEnd : WalkM Unit) (hw : w.domain = domain.profile.name)
    (hmain : w.query.mainTable = domain.profile.mainTable) {count : Nat}
    (hused : w.query.UsedAs (numberedNames domain.profile.mainTable count))
    (hnamed : w.context.tableAlias = none) (hasked : w.context.scope = none) (link : Link) :
    ∃ rule left,
      Answered domain ⟨link.scope.getD (RelationSql.defaultScope options scope w.context.last),
        w.context.first, w.context.last⟩ rule ∧
      (renderWith (catalog.host options (depth + 2)) atEnd link.tree).runFrom w = (.ok "", left) ∧
      left.domain = domain.profile.name ∧
      left.query = (w.query.addTable domain.profile.mainTable domain.profile.mainTable
        w.context.first).addFilter
          (tie (useName domain.profile.mainTable count w.context.first)
            (numberedNames domain.profile.mainTable count).getLast? rule) := by
  obtain ⟨relation, asked⟩ := link
  cases asked with
  | none =>
    obtain ⟨rule, left, hrule, hrun, hleft, hquery⟩ :=
      h.relation_adds depth hw hmain hused hnamed relation
    rw [hasked] at hrule
    exact ⟨rule, left, hrule, runFrom_relationLeaf atEnd hrun, hleft, hquery⟩
  | some asked =>
    obtain ⟨rule, left, hrule, hrun, hleft, hquery⟩ :=
      h.relation_adds depth (w := { w with context := { w.context with scope := some asked } })
        hw hmain hused hnamed relation
    exact ⟨rule, _, hrule, runFrom_scopeNode atEnd asked (runFrom_relationLeaf atEnd hrun), hleft,
      hquery⟩

/-- **A chain adds one use and one filter for each of its relations**, from the innermost on. -/
theorem Chaining.chain_adds (atEnd : WalkM Unit) (outermost : Link) (inners : List Link) :
    ∀ {w : Walk} {count : Nat}, w.domain = domain.profile.name →
      w.query.mainTable = domain.profile.mainTable →
      w.query.UsedAs (numberedNames domain.profile.mainTable count) →
      w.context.first = true → w.context.tableAlias = none → w.context.scope = none →
      ∃ rules left,
        List.Forall₂ (Answered domain)
          (asks (RelationSql.defaultScope options scope) outermost w.context.last inners) rules ∧
        (renderWith (catalog.host options (depth + 2)) atEnd (nested outermost inners)).runFrom w =
          (.ok "", left) ∧
        left.domain = domain.profile.name ∧
        left.query.mainTable = domain.profile.mainTable ∧
        left.query.UsedAs (numberedNames domain.profile.mainTable (count + inners.length) ++
          [domain.profile.mainTable]) ∧
        left.query.order = w.query.order ∧
        left.query.filters = w.query.filters ++
          ties (numberedNames domain.profile.mainTable count).getLast?
            (usesFrom domain.profile.mainTable count inners.length) rules := by
  induction inners with
  | nil =>
    intro w count hw hmain hused hfirst hnamed hasked
    obtain ⟨rule, left, hrule, hrun, hleft, hquery⟩ :=
      h.link_adds depth atEnd hw hmain hused hnamed hasked outermost
    have hused' := h.used_used hmain hused
    rw [hfirst] at hrule hquery
    have hname : useName domain.profile.mainTable count w.context.first = domain.profile.mainTable := by
      rw [hfirst]
      rfl
    rw [hname] at hused'
    refine ⟨[rule], left, .cons hrule .nil, hrun, hleft, ?_, ?_, ?_, ?_⟩
    · rw [hquery]
      exact hmain
    · rw [hquery, ← hfirst]
      exact hused'.addFilter _
    · rw [hquery]
      rfl
    · rw [hquery]
      rfl
  | cons link outer ih =>
    intro w count hw hmain hused hfirst hnamed hasked
    obtain ⟨rule, behind, hrule, hrun, hbehind, hquery⟩ :=
      h.link_adds depth atEnd (w := w.inward) hw hmain ⟨hused.aliases, hused.tables⟩ hnamed hasked link
    have hused' : behind.query.UsedAs (numberedNames domain.profile.mainTable (count + 1)) := by
      rw [hquery, numberedNames_succ]
      exact (h.used_used (w := w.inward) hmain ⟨hused.aliases, hused.tables⟩).addFilter _
    have hmain' : behind.query.mainTable = domain.profile.mainTable := by
      rw [hquery]
      exact hmain
    obtain ⟨rules, left, hrules, hrest, hleft, hmain'', hused'', horder, hfilters⟩ :=
      ih (w := behind.outward w.context) hbehind hmain' hused' hfirst hnamed hasked
    refine ⟨rule :: rules, _, .cons hrule hrules, runFrom_fromNode atEnd hrun hrest, hleft, hmain'',
      ?_, ?_, ?_⟩
    · have hcount : count + (link :: outer).length = count + 1 + outer.length := by
        rw [List.length_cons]
        omega
      rw [hcount]
      exact hused''
    · refine horder.trans ?_
      show behind.query.order = _
      rw [hquery]
      rfl
    · have hbehind' : behind.query.filters = w.query.filters ++
          [tie (Query.numbered domain.profile.mainTable (count + 1))
            (numberedNames domain.profile.mainTable count).getLast? rule] := by
        rw [hquery]
        rfl
      have hfilters' : left.query.filters = behind.query.filters ++ _ := hfilters
      show left.query.filters = _
      rw [hfilters', hbehind', getLast?_numberedNames_succ, List.append_assoc]
      rfl

/-! ## The default order -/

omit h in
/-- The order that is taken from a parsed source has nothing but items behind its relation. -/
theorem items_of_orderOnly? {tree clause : Tree} (hshaped : Shaped tree)
    (hclause : orderOnly? tree = some clause) :
    ∃ items, (∀ t ∈ items, IsItem t) ∧ clause = .node .order (.node .void [] :: items) := by
  unfold orderOnly? at hclause
  split at hclause
  · next children =>
    split at hclause
    · next inner items hlast =>
      cases hclause
      have hmem := List.mem_of_getLast? hlast
      cases hshaped.child hmem with
      | node _ _ hitems => exact ⟨items, hitems rfl, rfl⟩
    · cases hclause
  · cases hclause

/-- An item of an order renders without changing anything. -/
theorem Chaining.yields_item (hw : w.domain = domain.profile.name) {t : Tree} (ht : IsItem t) :
    ∃ text, Yields (renderWith (catalog.host options (depth + 1)) (pure ()) t) w text := by
  have hfield (name : String) :
      Yields (renderWith (catalog.host options (depth + 1)) (pure ()) (.leaf .field name)) w
        (Host.currentTable w ++ "." ++ name) :=
    (yields_atomChild rfl rfl .field w).bind (h.resolveField depth hw name)
  cases ht with
  | field name => exact ⟨_, hfield name⟩
  | param name => exact ⟨name, yields_atomChild rfl rfl .param w⟩
  | integer digits => exact ⟨digits, yields_atomChild rfl rfl .integer w⟩
  | asc name => exact ⟨_, (yields_renderChild rfl (hfield name) .asc).bind (Yields.pure _ w)⟩
  | desc name => exact ⟨_, (yields_renderChild rfl (hfield name) .desc).bind (Yields.pure _ w)⟩

/-- The items of an order render without changing anything. -/
theorem Chaining.yields_items (hw : w.domain = domain.profile.name) {items : List Tree}
    (hitems : ∀ t ∈ items, IsItem t) :
    ∃ texts, Yields (Part.renderAll (Part.ofTrees
      (renderNode (catalog.host options (depth + 1)) (pure ())) items)) w texts := by
  induction items with
  | nil => exact ⟨[], Yields.pure [] w⟩
  | cons t items ih =>
    rw [List.forall_mem_cons] at hitems
    obtain ⟨text, ht⟩ := h.yields_item depth hw hitems.1
    obtain ⟨texts, hrest⟩ := ih hitems.2
    exact ⟨text :: texts, Yields.bind ht (hrest.bind (Yields.pure _ w))⟩

/-- An order of plain items sets the order of the query and nothing else of it. -/
theorem Chaining.runFrom_order (hw : w.domain = domain.profile.name) {items : List Tree}
    (hitems : ∀ t ∈ items, IsItem t) :
    ∃ left order,
      (renderWith (catalog.host options (depth + 1)) (pure ())
        (.node .order (.node .void [] :: items))).runFrom w = (.ok "", left) ∧
      left.domain = w.domain ∧ left.query = { w.query with order := some order } := by
  obtain ⟨texts, htexts⟩ := h.yields_items depth (w := w.inPhase .order) hw hitems
  have hbody : (Clause.items .order .order (Part.ofTrees
      (renderNode (catalog.host options (depth + 1)) (pure ())) (.node .void [] :: items))).runFrom w =
        (.ok (Text.joinWith ", " texts), w.inPhase .order) :=
    htexts.map (Text.joinWith ", ")
  have hsteps : (Clause.order (Part.ofTrees
      (renderNode (catalog.host options (depth + 1)) (pure ())) (.node .void [] :: items))).runFrom w =
        (.ok (), { w.inPhase .order with
          query := { w.query with order := some (" ORDER BY " ++ Text.joinWith ", " texts) } }) := by
    rw [Clause.order, runFrom_bind_of_ok hbody]
    rfl
  have hrun : (silently (Clause.order (Part.ofTrees
      (renderNode (catalog.host options (depth + 1)) (pure ())) (.node .void [] :: items)))).runFrom w =
        (.ok "", { w.inPhase .order with
          query := { w.query with order := some (" ORDER BY " ++ Text.joinWith ", " texts) } }) := by
    rw [silently, runFrom_bind_of_ok hsteps]
    rfl
  exact ⟨_, _, hrun, rfl, rfl⟩

/-- The default order of a compile: its own, or else that of the domain. -/
def defaultOrder? (options : Options) (domain : Domain) : Option String :=
  options.defaults.find? "order" <|> domain.profile.default "order"

/-- **The default order is malformed, or it changes nothing but the order of the query.** -/
theorem Chaining.runFrom_defaultOrder (hw : w.domain = domain.profile.name)
    (horder : w.query.order = none) :
    (∃ left order,
      (RelationSql.defaultOrder (catalog.host options (depth + 1))).runFrom w = (.ok (), left) ∧
      left.domain = w.domain ∧ left.query = { w.query with order := order }) ∨
    ∃ order fault, defaultOrder? options domain = some order ∧
      parse ("foo order by " ++ order) = .error fault ∧
      (RelationSql.defaultOrder (catalog.host options (depth + 1))).runFrom w =
        (.error (.malformed fault), w) := by
  have hdefault : Yields ((catalog.host options (depth + 1)).default "order") w
      (defaultOrder? options domain) :=
    (h.activeProfile (depth + 1) hw).bind (Yields.pure _ w)
  have hnone : w.query.order.isNone = true := by rw [horder]; rfl
  rw [RelationSql.defaultOrder, runFrom_bind_of_ok (yields_query w), if_pos hnone, runFrom_bind_of_ok hdefault]
  cases hfound : defaultOrder? options domain with
  | none => exact .inl ⟨w, none, rfl, rfl, by rw [← horder]⟩
  | some order =>
    dsimp only
    unfold renderOrder
    cases hparse : parse ("foo order by " ++ order) with
    | error fault => exact .inr ⟨order, fault, rfl, hparse, rfl⟩
    | ok tree =>
      left
      dsimp only
      cases hclause : orderOnly? tree with
      | none => exact ⟨w, none, rfl, rfl, by rw [← horder]⟩
      | some clause =>
        obtain ⟨items, hitems, rfl⟩ := items_of_orderOnly? (shaped_of_parse hparse) hclause
        obtain ⟨left, text, hrun, hleft, hquery⟩ := h.runFrom_order depth hw hitems
        refine ⟨left, some text, ?_, hleft, hquery⟩
        dsimp only
        rw [runFrom_bind_of_ok hrun]
        rfl

end Relation

/-! ## The whole source -/

/-- The names of the uses of a whole chain, the innermost first. -/
theorem usesFrom_eq (table : String) (inners : Nat) : ∀ count : Nat,
    usesFrom table count inners =
      (List.range' count inners).map (fun i => Query.numbered table (i + 1)) ++ [table] := by
  induction inners with
  | zero =>
    intro count
    rfl
  | succ inners ih =>
    intro count
    rw [usesFrom, ih, List.range'_succ]
    rfl

/-- One relation of a chain stands deepest in its tree, the others around it. -/
theorem chainTree_eq_nested (outermost : Link) (more : List Link) :
    chainTree outermost more = nested outermost more.reverse := by
  have hnested (inners : List Link) : nested outermost inners =
      inners.foldr (fun link outer => .node .from_ [outer, link.tree]) outermost.tree := by
    induction inners with
    | nil => rfl
    | cons link outer ih => rw [nested, ih, List.foldr_cons]
  rw [hnested, List.foldr_reverse]
  rfl

theorem length_asks (default : Bool → String) (outermost : Link) (inners : List Link) :
    ∀ last, (asks default outermost last inners).length = inners.length + 1 := by
  induction inners with
  | nil =>
    intro last
    rfl
  | cons link outer ih =>
    intro last
    rw [asks, List.length_cons, ih, List.length_cons]

theorem length_ties (uses : List String) : ∀ (before : Option String) (rules : List (String × String)),
    rules.length = uses.length → (ties before uses rules).length = uses.length := by
  induction uses with
  | nil =>
    intro before rules _
    rfl
  | cons use uses ih =>
    intro before rules hlength
    cases rules with
    | nil => cases hlength
    | cons rule rules =>
      rw [ties, List.length_cons, ih _ _ (Nat.succ.inj hlength), List.length_cons]

variable {catalog : Catalog} {options : Options} {domain : Domain} {scope : String}

/-- A source of one tree renders the tree and then the default order. -/
theorem runFrom_render {host : Host} {t : Tree} {w left : Walk} {text : String}
    (hrun : (renderWith host (RelationSql.defaultOrder host) t).runFrom w = (.ok text, left)) :
    (render host (.node .query [t])).runFrom w =
      (silently (RelationSql.defaultOrder host)).runFrom left := by
  have hall : (Part.renderAll (Part.ofTrees (renderNode host (RelationSql.defaultOrder host))
      [t])).runFrom w = (.ok [text], left) := by
    refine (runFrom_bind_of_ok hrun fun text => do return text :: (← Part.renderAll [])).trans ?_
    rfl
  show (silently (renderRoot (RelationSql.defaultOrder host) _)).runFrom w = _
  rw [silently, renderRoot, bind_assoc, runFrom_bind_of_ok hall]
  rfl

/-- A walk with nothing around it but the hooks of the domain, which do nothing. -/
theorem Chaining.runFrom_walk (h : Chaining catalog options domain scope) {t : Tree} {w : Walk}
    (hw : w.domain = domain.profile.name) :
    (catalog.walk options (.node .query [t])).runFrom w =
      (do
        let _ ← render (catalog.host options Catalog.maxDepth) (.node .query [t])
        modifyQuery (Catalog.applyLimit options.limit)
        (← catalog.activeDomain).after (catalog.host options Catalog.maxDepth)).runFrom w := by
  rw [Catalog.walk, runFrom_bind_of_ok (h.activeDomain hw), runFrom_bind_of_ok (h.before _ w),
    runFrom_bind_of_ok (yields_query w)]
  rfl

/-- A limit of the settings changes neither the tables nor the filters. -/
theorem applyLimit_keeps (limit : Option Nat) (q : Query) :
    (Catalog.applyLimit limit q).tables = q.tables ∧
      (Catalog.applyLimit limit q).filters = q.filters := by
  unfold Catalog.applyLimit
  split <;> exact ⟨rfl, rfl⟩

/-- The entries of `FROM` for the uses of a chain. -/
theorem map_write_uses (h : Chaining catalog options domain scope) (count : Nat) :
    (numberedNames domain.profile.mainTable count ++ [domain.profile.mainTable]).map
        (fun name => Fragment.TableReference.write ⟨domain.profile.mainTable, name⟩) =
      (numberedNames domain.profile.mainTable count).map
        (fun name => domain.profile.mainTable ++ " AS " ++ name) ++ [domain.profile.mainTable] := by
  rw [List.map_append]
  congr 1
  · apply List.map_congr_left
    simp only [numberedNames, List.mem_map, forall_exists_index, and_imp]
    rintro name i - rfl
    exact write_of_ne (h.numbered _)
  · simp [Fragment.TableReference.write]

/-- **A chain of relations becomes one entry of `FROM` and one filter for each relation.** All uses of
the main table but that of the outermost relation are numbered. From the outermost use on, each is
compared with the one before it by the fields that the domain answers for the scope of its relation; the
innermost is compared with a bind. The compile fails only if there is a default order and it is
malformed. -/
theorem compile_chain (h : Chaining catalog options domain scope) {source : String} {first : Link}
    {more : List Link}
    (hsource : (Source.lex source).map Source.Token.kind = chainKinds first more ++ [.finish]) :
    (∃ q rules, catalog.compile options domain.profile.name source = .ok q ∧
      List.Forall₂ (Answered domain)
        (asks (RelationSql.defaultScope options scope) first true more.reverse) rules ∧
      q.tables = (numberedNames domain.profile.mainTable more.length).map
        (fun name => domain.profile.mainTable ++ " AS " ++ name) ++ [domain.profile.mainTable] ∧
      q.filters = ties none
        (numberedNames domain.profile.mainTable more.length ++ [domain.profile.mainTable]) rules ∧
      q.filters.length = more.length + 1 ∧
      q.joinedFilters = Text.joinWith " AND " (ties none
        (numberedNames domain.profile.mainTable more.length ++ [domain.profile.mainTable])
        rules).reverse) ∨
    ∃ order fault, defaultOrder? options domain = some order ∧
      parse ("foo order by " ++ order) = .error fault ∧
      catalog.compile options domain.profile.name source = .error (.malformed fault) := by
  have hcompile : catalog.compile options domain.profile.name source =
      Catalog.outcome source ((catalog.walk options (.node .query [chainTree first more])).runFrom
        (catalog.start options domain)) := by
    rw [Catalog.compile, h.found]
    simp only [parse_links hsource]
  have hunused : (catalog.start options domain).query.UsedAs
      (numberedNames domain.profile.mainTable 0) := ⟨rfl, rfl⟩
  obtain ⟨rules, left, hrules, hrun, hleft, hmain, hused, horder, hfilters⟩ :=
    h.chain_adds 9998 (RelationSql.defaultOrder (catalog.host options Catalog.maxDepth)) first
      more.reverse (w := catalog.start options domain) rfl rfl hunused rfl rfl rfl
  rw [← chainTree_eq_nested] at hrun
  have hrender : (render (catalog.host options Catalog.maxDepth)
      (.node .query [chainTree first more])).runFrom (catalog.start options domain) =
        (silently (RelationSql.defaultOrder (catalog.host options Catalog.maxDepth))).runFrom left :=
    runFrom_render hrun
  rw [hcompile, h.runFrom_walk rfl]
  rcases h.runFrom_defaultOrder 9999 hleft horder with
    ⟨last, order, hlast, hdomain, hquery⟩ | ⟨order, fault, hfound, hparse, hfails⟩
  · have hrendered : (render (catalog.host options Catalog.maxDepth)
        (.node .query [chainTree first more])).runFrom (catalog.start options domain) =
          (.ok "", last) := by
      rw [hrender, silently]
      exact runFrom_bind_of_ok hlast fun _ => pure ""
    have hlimit : (modifyQuery (Catalog.applyLimit options.limit)).runFrom last =
        (.ok (), { last with query := Catalog.applyLimit options.limit last.query }) := rfl
    have hdomain' : ({ last with query := Catalog.applyLimit options.limit last.query } :
        Walk).domain = domain.profile.name := hdomain.trans hleft
    obtain ⟨htables, hfilters'⟩ := applyLimit_keeps options.limit last.query
    have hties : (Catalog.applyLimit options.limit last.query).filters = ties none
        (numberedNames domain.profile.mainTable more.length ++ [domain.profile.mainTable]) rules := by
      rw [hfilters', hquery]
      refine hfilters.trans ?_
      rw [usesFrom_eq, List.length_reverse, ← List.range_eq_range']
      rfl
    left
    refine ⟨Catalog.applyLimit options.limit last.query, rules, ?_, hrules, ?_, hties, ?_, ?_⟩
    · rw [runFrom_bind_of_ok hrendered, runFrom_bind_of_ok hlimit,
        runFrom_bind_of_ok (h.activeDomain hdomain'), h.after]
      rfl
    · rw [htables, hquery]
      show left.query.tables = _
      rw [hused.tables, hmain, Nat.zero_add, List.length_reverse, map_write_uses h]
    · have hlength := hrules.length_eq
      rw [length_asks, List.length_reverse] at hlength
      rw [hties, length_ties _ _ _ (by simp [← hlength, numberedNames])]
      simp [numberedNames]
    · rw [joinedFilters, hties]
  · right
    have hend : (RelationSql.defaultOrder (catalog.host options Catalog.maxDepth)).runFrom left =
        (.error (.malformed fault), left) := hfails
    have hrendered : (render (catalog.host options Catalog.maxDepth)
        (.node .query [chainTree first more])).runFrom (catalog.start options domain) =
          (.error (.malformed fault), left) := by
      rw [hrender, silently, runFrom_bind, hend]
    refine ⟨order, fault, hfound, hparse, ?_⟩
    rw [runFrom_bind, hrendered]
    rfl

/-- Where the answers depend on nothing but the scope, they are those for the scopes of the relations. -/
theorem rules_eq_map {rule : String → String × String} {asked : List Ask}
    {rules : List (String × String)} (hrule : ∀ name w,
      domain.profile.scope name w = .ok (some (.compare (rule name).1 (rule name).2)))
    (h : List.Forall₂ (Answered domain) asked rules) :
    rules = asked.map fun ask => rule ask.scope := by
  induction h with
  | nil => rfl
  | @cons ask answer asked rules hask _ ih =>
    obtain ⟨w, -, -, -, hanswer⟩ := hask
    rw [hrule, Except.ok.injEq, Option.some.injEq, ScopeRule.compare.injEq] at hanswer
    rw [List.map_cons, ih, Prod.ext hanswer.1 hanswer.2]

/-! ## A domain of nodes -/

/-- The fields by which a scope ties a node to the one before it. -/
def kinship (name : String) : String × String :=
  (name ++ "_id", "id")

/-- A domain in which every relation is a use of the nodes. -/
def kin : Domain where
  profile :=
    { name := "kin", mainTable := "objects", mainClass := "Node"
      default := fun key => if key = "scope" then some "parent" else none
      scope := fun name _ => .ok (some (.compare (kinship name).1 (kinship name).2)) }
  relation := fun host kind _ =>
    if kind = .filter then do
      host.addTable "objects"
      return true
    else return false
  field := fun _ name => do
    return some (Host.currentTable (← get) ++ "." ++ name)

/-- The innermost relations of a compile are looked for in a site. -/
def inSite : Options :=
  { defaults := Dictionary.empty.insert "scope" "site" }

theorem chaining_kin : Chaining (Catalog.addDomain kin {}) inSite kin "parent" where
  found := rfl
  declines := by
    intro host kind name w hkind
    cases kind with
    | filter => exact absurd rfl hkind
    | _ => rfl
  resolves := fun _ _ _ => rfl
  field := fun _ _ _ => rfl
  rule := fun name _ => ⟨_, _, rfl⟩
  default := rfl
  before := fun _ w => Yields.pure () w
  after := fun _ w => Yields.pure () w
  translator := rfl
  custom := .inl rfl
  numbered := Query.numbered_ne fun _ => ⟨'j', by decide, rfl⟩

/-- A chain of three relations, with an explicit scope in its middle. -/
theorem children_from_friends_compile :
    ∃ q, (Catalog.addDomain kin {}).compile inSite "kin" "children from friends in project from all" =
        .ok q ∧
      q.tables = ["objects AS ob1", "objects AS ob2", "objects"] ∧
      q.joinedFilters =
        "objects.parent_id = ob2.id AND ob2.project_id = ob1.id AND ob1.site_id = [[id]]" := by
  have hlex : (Source.lex "children from friends in project from all").map Source.Token.kind =
      chainKinds ⟨"children", none⟩ [⟨"friends", some "project"⟩, ⟨"all", none⟩] ++ [.finish] := by
    decide +kernel
  rcases compile_chain chaining_kin hlex with
    ⟨q, rules, hcompile, hrules, htables, -, -, hjoined⟩ | ⟨order, fault, horder, -, -⟩
  · refine ⟨q, hcompile, htables.trans (by decide +kernel), ?_⟩
    rw [hjoined, rules_eq_map (fun _ _ => rfl) hrules]
    decide +kernel
  · cases horder

end RelationSql
