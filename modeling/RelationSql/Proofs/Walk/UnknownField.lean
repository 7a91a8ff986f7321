import Mathlib.Data.Set.Insert
import RelationSql.Proofs.Grammar.Formation
import RelationSql.Proofs.Grammar.Names
import RelationSql.Proofs.Walk.Clauses
import RelationSql.Proofs.Walk.Columns
import RelationSql.Proofs.Walk.Keeps

/-!
# Fields that are not known

A condition is compiled exactly if its domain knows all of its fields, and otherwise the compile fails with
the first one that it does not know, in the order of the source (`Catalog.Recognises.compile_iff`). Every
operator renders all of its operands and renders them from left to right, also where it renders the operands
of its operand: so a condition goes through its names in order (`Checks`), and these are the names of the
source (`parse_names`).
-/

namespace RelationSql

open Grammar WalkM RelationSql.Part RelationSql.Tree

variable {known : Set String} {names more : List String} {name : String}

/-! ## The first unknown name -/

/-- The name is the first one of the names that is not known. -/
def FirstUnknown (known : Set String) (names : List String) (name : String) : Prop :=
  ∃ before behind, names = before ++ name :: behind ∧ (∀ other ∈ before, other ∈ known) ∧ name ∉ known

/-- The first unknown name comes from the first names, or from further ones if the first are all known. -/
theorem FirstUnknown.of_append (h : FirstUnknown known (names ++ more) name) :
    FirstUnknown known names name ∨ (∀ other ∈ names, other ∈ known) ∧ FirstUnknown known more name := by
  obtain ⟨before, behind, hnames, hbefore, hname⟩ := h
  rcases List.append_eq_append_iff.1 hnames with ⟨middle, rfl, hmore⟩ | ⟨middle, rfl, hmiddle⟩
  · rw [List.forall_mem_append] at hbefore
    exact .inr ⟨hbefore.1, middle, behind, hmore, hbefore.2, hname⟩
  · cases middle with
    | nil => exact .inr ⟨by simpa using hbefore, [], behind, hmiddle.symm, by simp, hname⟩
    | cons first middle =>
      obtain ⟨rfl, rfl⟩ := List.cons.inj hmiddle
      exact .inl ⟨before, middle, rfl, hbefore, hname⟩

/-- Names that are not all known have a first one that is not. -/
theorem exists_firstUnknown (h : ¬ ∀ other ∈ names, other ∈ known) : ∃ name, FirstUnknown known names name := by
  induction names with
  | nil => exact absurd nofun h
  | cons first names ih =>
    by_cases hfirst : first ∈ known
    · obtain ⟨name, before, behind, rfl, hbefore, hname⟩ :=
        ih fun hnames => h (List.forall_mem_cons.2 ⟨hfirst, hnames⟩)
      exact ⟨name, first :: before, behind, rfl, List.forall_mem_cons.2 ⟨hfirst, hbefore⟩, hname⟩
    · exact ⟨first, [], names, rfl, by simp, hfirst⟩

theorem FirstUnknown.of_singleton {other : String} (h : FirstUnknown known [name] other) :
    other = name ∧ other ∉ known := by
  obtain ⟨before, behind, hnames, -, hother⟩ := h
  cases before with
  | nil => exact ⟨(List.cons.inj hnames).1.symm, hother⟩
  | cons first before => exact absurd (List.cons.inj hnames).2 (by simp)

theorem FirstUnknown.not_forall (h : FirstUnknown known names name) : ¬ ∀ other ∈ names, other ∈ known := by
  obtain ⟨before, behind, rfl, -, hname⟩ := h
  exact fun hall => hname (hall name (by simp))

/-! ## Steps that go through names -/

/-- From walks with the first property the steps go through the names: they succeed and lead to a walk with
the second property if all of the names are known, and otherwise they fail with the first one that is not. -/
structure Checks (known : Set String) (P : Walk → Prop) {α : Type} (names : List String) (steps : WalkM α)
    (Q : Walk → Prop) : Prop where
  accepts : ∀ w, P w → (∀ name ∈ names, name ∈ known) → ∃ a left, steps.runFrom w = (.ok a, left) ∧ Q left
  refuses : ∀ w, P w → ∀ name, FirstUnknown known names name →
    ∃ left, steps.runFrom w = (.error (.unknownField name), left)

namespace Checks

variable {P Q S : Walk → Prop} {α β : Type} {steps : WalkM α} {next : α → WalkM β}

/-- Steps that look at no names. -/
theorem of_runs (h : ∀ w, P w → ∃ a left, steps.runFrom w = (.ok a, left) ∧ Q left) :
    Checks known P [] steps Q where
  accepts w hw _ := h w hw
  refuses _ _ _ hname := absurd nofun hname.not_forall

theorem of_yields (h : ∀ w, P w → ∃ a, Yields steps w a) : Checks known P [] steps P :=
  of_runs fun w hw => (h w hw).imp fun _ ha => ⟨w, ha, hw⟩

theorem pure (a : α) : Checks known P [] (pure a : WalkM α) P := of_yields fun w _ => ⟨a, Yields.pure a w⟩

/-- **Steps after each other go through the names of both.** -/
theorem bind (h : Checks known P names steps Q) (hnext : ∀ a, Checks known Q more (next a) S) :
    Checks known P (names ++ more) (steps >>= next) S where
  accepts w hw hknown := by
    rw [List.forall_mem_append] at hknown
    obtain ⟨a, middle, hsteps, hmiddle⟩ := h.accepts w hw hknown.1
    rw [runFrom_bind_of_ok hsteps]
    exact (hnext a).accepts middle hmiddle hknown.2
  refuses w hw name hname := by
    rcases hname.of_append with hname | ⟨hknown, hname⟩
    · obtain ⟨left, hsteps⟩ := h.refuses w hw name hname
      exact ⟨left, by rw [runFrom_bind, hsteps]⟩
    · obtain ⟨a, middle, hsteps, hmiddle⟩ := h.accepts w hw hknown
      rw [runFrom_bind_of_ok hsteps]
      exact (hnext a).refuses middle hmiddle name hname

/-- Steps with others behind them that look at no names. -/
theorem before (h : Checks known P names steps Q) (hnext : ∀ a, Checks known Q [] (next a) S) :
    Checks known P names (steps >>= next) S := by
  have hbind := h.bind hnext
  rwa [List.append_nil] at hbind

theorem map (h : Checks known P names steps Q) (f : α → β) : Checks known P names (do return f (← steps)) Q :=
  h.before fun a => pure (f a)

/-- All of the names are known and the steps succeed, or they fail with the first one that is not. -/
theorem decides (h : Checks known P names steps Q) {w : Walk} (hw : P w) :
    ((∀ name ∈ names, name ∈ known) ∧ ∃ a left, steps.runFrom w = (.ok a, left)) ∨
      ∃ name, FirstUnknown known names name ∧
        ∃ left, steps.runFrom w = (.error (.unknownField name), left) := by
  by_cases hknown : ∀ name ∈ names, name ∈ known
  · obtain ⟨a, left, hsteps, -⟩ := h.accepts w hw hknown
    exact .inl ⟨hknown, a, left, hsteps⟩
  · obtain ⟨name, hname⟩ := exists_firstUnknown hknown
    exact .inr ⟨name, hname, h.refuses w hw name hname⟩

/-- Steps behind others that look at no names and yield this. -/
theorem after {a : α} (h : ∀ w, P w → ∃ left, steps.runFrom w = (.ok a, left) ∧ Q left)
    (hnext : Checks known Q names (next a) S) : Checks known P names (steps >>= next) S where
  accepts w hw hknown := by
    obtain ⟨left, hsteps, hleft⟩ := h w hw
    rw [runFrom_bind_of_ok hsteps]
    exact hnext.accepts left hleft hknown
  refuses w hw name hname := by
    obtain ⟨left, hsteps, hleft⟩ := h w hw
    rw [runFrom_bind_of_ok hsteps]
    exact hnext.refuses left hleft name hname

theorem behind {a : α} (h : ∀ w, P w → Yields steps w a) (hnext : Checks known P names (next a) Q) :
    Checks known P names (steps >>= next) Q :=
  after (fun w hw => ⟨w, h w hw, hw⟩) hnext

/-! ### Parts -/

variable {parts : List Part} {index : Nat} {p : Part}

theorem child {next : Part → WalkM β} (h : parts[index]? = some p) (tag : Tag)
    (hnext : Checks known P names (next p) Q) : Checks known P names (child tag parts index >>= next) Q :=
  behind (fun w _ => yields_child h tag w) hnext

theorem renderChild (h : parts[index]? = some p) (tag : Tag) (hp : Checks known P names p.render Q) :
    Checks known P names (renderChild tag parts index) Q :=
  child h tag hp

theorem atom {next : String → WalkM β} {text : String} (h : parts[index]? = some p)
    (htext : p.tree.atom? = some text) (tag : Tag) (hnext : Checks known P names (next text) Q) :
    Checks known P names (atomChild tag parts index >>= next) Q :=
  behind (fun w _ => yields_atomChild h htext tag w) hnext

/-- Items are rendered in order. -/
theorem renderAll {node : Tag → List Part → WalkM String} {ts : List Tree}
    (h : ∀ t ∈ ts, Checks known P t.names (ofTree node t).render P) :
    Checks known P (namesAll ts) (renderAll (ofTrees node ts)) P := by
  induction ts with
  | nil => exact pure []
  | cons t ts ih =>
    rw [List.forall_mem_cons] at h
    rw [namesAll_cons]
    exact h.1.bind fun text => (ih h.2).map (text :: ·)

end Checks

/-! ## Conditions -/

/-- A tag that a condition may hold besides fields: no call, no interpolated text, and no operator that is
never rendered. -/
def Tag.IsSimple (tag : Tag) : Prop :=
  tag ≠ .function ∧ tag ≠ .dstring ∧ tag ≠ .op .invertBits

instance : DecidablePred Tag.IsSimple := fun _ => inferInstanceAs (Decidable (_ ∧ _ ∧ _))

/-- In such walks the hooks render the known fields, decline all others, and have no form of their own for
an equality; no keys are selected that could stand for a field. -/
structure TellsApart (field : String → WalkM (Option String)) (equal : Tree → Tree → WalkM (Option String))
    (known : Set String) (there : Walk → Prop) : Prop where
  renders : ∀ w, there w → ∀ name ∈ known, ∃ text left,
    (field name).runFrom w = (.ok (some text), left) ∧ there left
  declines : ∀ w, there w → ∀ name ∉ known, ∃ left, (field name).runFrom w = (.ok none, left) ∧ there left
  formless : ∀ w, there w → ∀ t u, ∃ left, (equal t u).runFrom w = (.ok none, left) ∧ there left
  keyless : ∀ w, there w → ∀ name, w.query.attributes.find? name = none

/-- A field that is not known is told. -/
theorem TellsApart.checks_resolveField {host : Host} {there : Walk → Prop}
    (h : TellsApart host.field host.equal known there) (name : String) :
    Checks known there [name] (host.resolveField name) there where
  accepts w hw hknown := by
    obtain ⟨text, left, hfield, hleft⟩ := h.renders w hw name (hknown name List.mem_cons_self)
    refine ⟨text, left, ?_, hleft⟩
    rw [Host.resolveField, runFrom_bind_of_ok hfield]
    rfl
  refuses w hw other hother := by
    obtain ⟨rfl, hunknown⟩ := hother.of_singleton
    obtain ⟨left, hfield, hleft⟩ := h.declines w hw other hunknown
    refine ⟨left, ?_⟩
    rw [Host.resolveField, runFrom_bind_of_ok hfield]
    show (query >>= _ : WalkM String).runFrom left = _
    rw [runFrom_bind_of_ok (yields_query left), h.keyless left hleft]
    rfl

/-- Two parts are those of two trees. -/
theorem Part.ofTrees_eq_pair {node : Tag → List Part → WalkM String} {ts : List Tree} {p q : Part}
    (h : ofTrees node ts = [p, q]) : ∃ t u, ts = [t, u] ∧ p = ofTree node t ∧ q = ofTree node u := by
  simp only [ofTrees_eq_map, List.map_eq_cons_iff, List.map_eq_nil_iff] at h
  obtain ⟨t, _, rfl, rfl, u, _, rfl, rfl, rfl⟩ := h
  exact ⟨t, u, rfl, rfl, rfl⟩

theorem Part.ofTrees_eq_triple {node : Tag → List Part → WalkM String} {ts : List Tree} {p q r : Part}
    (h : ofTrees node ts = [p, q, r]) :
    ∃ t u v, ts = [t, u, v] ∧ p = ofTree node t ∧ q = ofTree node u ∧ r = ofTree node v := by
  simp only [ofTrees_eq_map, List.map_eq_cons_iff, List.map_eq_nil_iff] at h
  obtain ⟨t, _, rfl, rfl, u, _, rfl, rfl, v, _, rfl, rfl, rfl⟩ := h
  exact ⟨t, u, v, rfl, rfl, rfl, rfl⟩

section Conditions

variable (known) (host : Host) (there : Walk → Prop) (atEnd : WalkM Unit)

/-- The condition goes through its names. -/
abbrev IsChecked (t : Tree) : Prop :=
  Checks known there t.names (renderWith host atEnd t) there

variable {known host there atEnd} {t u v : Tree} {ts : List Tree}

theorem names_pair (o : Operator) (t u : Tree) : (node (.op o) [t, u]).names = t.names ++ u.names := by
  rw [names_node rfl]
  simp

theorem names_triple (o : Operator) (t u v : Tree) :
    (node (.op o) [t, u, v]).names = t.names ++ (u.names ++ v.names) := by
  rw [names_node rfl]
  simp

namespace Expression

/-- Two operands, rendered one after the other. -/
theorem checks_pair (ht : IsChecked known host there atEnd t) (hu : IsChecked known host there atEnd u)
    (write : String → String → String) :
    Checks known there (t.names ++ u.names) (do
      let left ← renderWith host atEnd t
      let right ← renderWith host atEnd u
      return write left right) there :=
  ht.bind fun left => hu.map (write left)

/-- Three operands, rendered one after the other. -/
theorem checks_triple (ht : IsChecked known host there atEnd t) (hu : IsChecked known host there atEnd u)
    (hv : IsChecked known host there atEnd v) (write : String → String → String → String) :
    Checks known there (t.names ++ (u.names ++ v.names)) (do
      let value ← renderWith host atEnd t
      let low ← renderWith host atEnd u
      let high ← renderWith host atEnd v
      return write value low high) there :=
  ht.bind fun value => checks_pair hu hv (write value)

/-- A negation that is written in its place renders the operands of its operand, all of them in order. -/
theorem checks_negation {tag : Tag} (ht : IsChecked known host there atEnd (.node tag ts))
    (hts : ∀ o, tag = .op o → ∀ u ∈ ts, IsChecked known host there atEnd u) (outer : Tag) :
    Checks known there (node tag ts).names
      (negation outer (ofTrees (renderNode host atEnd) [.node tag ts])) there := by
  have hwhole : Checks known there (node tag ts).names (do
      return "NOT " ++ (← renderWith host atEnd (.node tag ts))) there := ht.map _
  have hparts : (ofTree (renderNode host atEnd) (.node tag ts)).parts = ofTrees (renderNode host atEnd) ts := by
    rw [ofTree, Part.parts]
  refine .child rfl outer ?_
  split
  · next value low high htag heq =>
    obtain rfl : tag = .op .between := by simpa [Tree.tag?, tree_ofTree] using htag
    obtain ⟨t, u, v, rfl, rfl, rfl, rfl⟩ := ofTrees_eq_triple (hparts.symm.trans heq)
    have hts := hts _ rfl
    rw [List.forall_mem_cons, List.forall_mem_cons, List.forall_mem_singleton] at hts
    rw [names_triple]
    exact checks_triple hts.1 hts.2.1 hts.2.2 fun value low high =>
      value ++ " NOT BETWEEN " ++ low ++ " AND " ++ high
  · next operator left right htag heq =>
    obtain rfl : tag = .op operator := by simpa [Tree.tag?, tree_ofTree] using htag
    obtain ⟨t, u, rfl, rfl, rfl⟩ := ofTrees_eq_pair (hparts.symm.trans heq)
    have hts := hts _ rfl
    rw [List.forall_mem_cons, List.forall_mem_singleton] at hts
    split
    · rw [names_pair]
      exact checks_pair hts.1 hts.2 fun left right => infixText left ("NOT " ++ operator.sql) right
    · exact hwhole
  · exact hwhole

/-- A parenthesis or a list renders its items, all of them in order. -/
theorem checks_parenthesis (hts : ∀ t ∈ ts, IsChecked known host there atEnd t) :
    Checks known there (namesAll ts) (parenthesis (ofTrees (renderNode host atEnd) ts)) there := by
  have hlist : Checks known there (namesAll ts) (parenthesised (ofTrees (renderNode host atEnd) ts)) there :=
    (Checks.renderAll hts).map _
  match ts with
  | [] => exact hlist
  | [t] =>
    show Checks known there _ (if isDisjunction (ofTree (renderNode host atEnd) t) then _ else _) there
    split
    · rw [namesAll_cons, namesAll_nil, List.append_nil]
      exact hts t List.mem_cons_self
    · exact hlist
  | _ :: _ :: _ => exact hlist

variable (h : TellsApart host.field host.equal known there)

include h

theorem checks_equality (ht : IsChecked known host there atEnd t) (hu : IsChecked known host there atEnd u) :
    Checks known there (t.names ++ u.names)
      (equality host (ofTrees (renderNode host atEnd) [t, u])) there :=
  .child rfl _ (.child rfl _ (.after (fun w hw => h.formless w hw _ _)
    (checks_pair ht hu fun left right => infixText left Operator.equal.sql right)))

/-- **Every operator that is rendered renders its operands, all of them in order.** -/
theorem checks_operator {o : Operator} (ho : o ≠ .invertBits) (hcount : ts.length = arity o)
    (hts : ∀ t ∈ ts, IsChecked known host there atEnd t)
    (hnegated : arity o = 1 → ∀ t ∈ ts, ∃ tag us, t = .node tag us ∧
      ∀ q, tag = .op q → ∀ u ∈ us, IsChecked known host there atEnd u) :
    Checks known there (node (.op o) ts).names
      (renderOperator host o (ofTrees (renderNode host atEnd) ts)) there := by
  have hone (t : Tree) : (node (.op o) [t]).names = t.names := by
    rw [names_node rfl]
    simp
  cases o with
  | invertBits => exact absurd rfl ho
  | not | bang =>
    obtain ⟨t, rfl⟩ := List.length_eq_one_iff.1 hcount
    obtain ⟨tag, us, rfl, hus⟩ := hnegated rfl t List.mem_cons_self
    rw [hone]
    exact checks_negation (hts _ List.mem_cons_self) hus _
  | changeSign =>
    obtain ⟨t, rfl⟩ := List.length_eq_one_iff.1 hcount
    rw [hone]
    exact (Checks.renderChild rfl _ (hts t List.mem_cons_self)).map _
  | between =>
    obtain ⟨t, u, v, rfl⟩ := List.length_eq_three.1 hcount
    rw [List.forall_mem_cons, List.forall_mem_cons, List.forall_mem_singleton] at hts
    rw [names_triple]
    exact checks_triple hts.1 hts.2.1 hts.2.2 fun value low high => value ++ " BETWEEN " ++ low ++ " AND " ++ high
  | or =>
    obtain ⟨t, u, rfl⟩ := List.length_eq_two.1 hcount
    rw [List.forall_mem_cons, List.forall_mem_singleton] at hts
    rw [names_pair]
    exact checks_pair hts.1 hts.2 fun left right => "(" ++ left ++ " OR " ++ right ++ ")"
  | equal =>
    obtain ⟨t, u, rfl⟩ := List.length_eq_two.1 hcount
    rw [List.forall_mem_cons, List.forall_mem_singleton] at hts
    rw [names_pair]
    exact checks_equality h hts.1 hts.2
  | _ =>
    obtain ⟨t, u, rfl⟩ := List.length_eq_two.1 hcount
    rw [List.forall_mem_cons, List.forall_mem_singleton] at hts
    rw [names_pair]
    exact checks_pair hts.1 hts.2 _

end Expression

/-- A number holds no names. -/
theorem checks_number (ht : IsNumber t) : t.names = [] ∧ Checks known there [] (renderWith host atEnd t) there := by
  cases ht
  all_goals exact ⟨names_literal rfl _, .of_yields fun w _ => ⟨_, rfl⟩⟩

variable (h : TellsApart host.field host.equal known there)

include h

/-- **A condition without calls, interpolated texts and tildes goes through its names in order**, and so do
the operands of an operator. -/
theorem checks_expression {role : Role} (ht : Formed True role t) (hrole : role = .expression)
    (hsimple : t.Within Tag.IsSimple) :
    IsChecked known host there atEnd t ∧
      ∀ tag ts, t = .node tag ts → ∀ o, tag = .op o → ∀ u ∈ ts, IsChecked known host there atEnd u := by
  induction ht with
  | field hfield =>
    cases hfield with
    | mk hname =>
      rw [IsChecked, names_leaf rfl]
      exact ⟨.atom rfl rfl _ (h.checks_resolveField _), by rintro _ _ ⟨⟩ _ ⟨⟩⟩
  | number hnumber =>
    obtain ⟨hnames, hchecked⟩ := checks_number hnumber
    rw [IsChecked, hnames]
    exact ⟨hchecked, by cases hnumber <;> rintro _ _ ⟨⟩ _ ⟨⟩⟩
  | string content =>
    rw [IsChecked, Tree.leaf, names_literal rfl]
    exact ⟨.atom rfl rfl _ (.of_yields fun w _ => ⟨_, rfl⟩), by rintro _ _ ⟨⟩ _ ⟨⟩⟩
  | template content =>
    cases hsimple with
    | node htag _ => exact absurd rfl htag.2.1
  | null => exact ⟨.pure _, by rintro _ _ ⟨⟩ _ ⟨⟩⟩
  | parenthesis _ _ ih =>
    cases hsimple with
    | node _ hts =>
      rw [IsChecked, names_node rfl]
      exact ⟨Expression.checks_parenthesis fun t ht => (ih t ht rfl (hts t ht)).1,
        by rintro _ _ ⟨⟩ _ ⟨⟩⟩
  | operator hcount hformed ih =>
    cases hsimple with
    | node htag hts =>
      have hchecked (t) (ht) := (ih t ht rfl (hts t ht)).1
      refine ⟨Expression.checks_operator h (fun ho => htag.2.2 (by rw [ho])) hcount hchecked
        fun _ t ht => ?_, ?_⟩
      · obtain ⟨tag, us, rfl, -⟩ := (hformed t ht).tag?_of_expression
        exact ⟨tag, us, rfl, (ih _ ht rfl (hts _ ht)).2 tag us rfl⟩
      · rintro _ _ ⟨⟩ _ -
        exact hchecked
  | call =>
    cases hsimple with
    | node htag _ => exact absurd rfl htag.1
  | interval hnumber _ =>
    rw [IsChecked, names_literal rfl]
    exact ⟨.bind (.renderChild rfl _ (checks_number hnumber).2) fun value => .atom rfl rfl _ (.pure _),
      by rintro _ _ ⟨⟩ _ ⟨⟩⟩
  | _ => cases hrole

end Conditions

/-- The names of a condition behind a relation are those that stand in it. -/
theorem names_where {relation condition : String} {e : Tree}
    (h : parse (relation ++ " where " ++ condition) =
      .ok (node .query [node .filter [leaf .relation relation, e]])) :
    Formed True .expression e ∧ e.names = Source.identifiers condition := by
  obtain ⟨hrelation, he⟩ : IsName relation ∧ Formed True .expression e := by
    cases formed_of_parse h with
    | clause hclause =>
      cases hclause with
      | filter hinner he =>
        cases hinner with
        | relation hname => exact ⟨hname, he⟩
      | link htag => exact absurd htag (by decide)
  have hnames := parse_names h
  rw [identifiers_where hrelation, names_node rfl, namesAll_cons, names_node rfl, namesAll_cons,
    names_leaf rfl] at hnames
  exact ⟨he, by simpa using hnames⟩

/-! ## Compiling -/

/-- The walk is in the hands of the domain, and no keys are selected. -/
structure Walk.IsIn (domain : Domain) (w : Walk) : Prop where
  domain : w.domain = domain.profile.name
  attributes : ∀ name, w.query.attributes.find? name = none

/-- The domain of the catalog knows the relation and these fields, and has no default order. -/
structure Catalog.Recognises (catalog : Catalog) (options : Options) (domain : Domain) (relation : String)
    (known : Set String) : Prop where
  found : catalog.domains.find? domain.profile.name = some domain
  matched : ∃ left, left.IsIn domain ∧ (do
    domain.before (catalog.host options maxDepth)
    Clause.relation (catalog.host options maxDepth) relation).runFrom (catalog.start options domain) =
      (.ok (), left)
  fields : TellsApart (domain.field (catalog.host options (maxDepth - 1)))
    (domain.equal (catalog.host options (maxDepth - 1))) known (Walk.IsIn domain)
  unordered : options.defaults.find? "order" = none ∧ domain.profile.default "order" = none
  after : ∀ w, w.IsIn domain → ∃ left,
    (domain.after (catalog.host options maxDepth)).runFrom w = (.ok (), left)

namespace Catalog.Recognises

variable {catalog : Catalog} {options : Options} {domain : Domain} {relation : String}
  (h : catalog.Recognises options domain relation known)

include h

theorem found_of_isIn {w : Walk} (hw : w.IsIn domain) : catalog.domains.find? w.domain = some domain := by
  rw [hw.domain]
  exact h.found

theorem yields_activeDomain {w : Walk} (hw : w.IsIn domain) : Yields catalog.activeDomain w domain :=
  WalkM.yields_activeDomain (h.found_of_isIn hw)

/-- Steps that ask the active domain ask this one. -/
theorem runFrom_active {α : Type} {w : Walk} (hw : w.IsIn domain) (next : Domain → WalkM α) :
    (catalog.activeDomain >>= next).runFrom w = (next domain).runFrom w :=
  runFrom_bind_of_ok (h.yields_activeDomain hw) next

theorem tellsApart : TellsApart (catalog.host options maxDepth).field (catalog.host options maxDepth).equal known
    (Walk.IsIn domain) where
  renders w hw name hname := by
    obtain ⟨text, left, hfield, hleft⟩ := h.fields.renders w hw name hname
    exact ⟨text, left, (h.runFrom_active hw _).trans hfield, hleft⟩
  declines w hw name hname := by
    obtain ⟨left, hfield, hleft⟩ := h.fields.declines w hw name hname
    exact ⟨left, (h.runFrom_active hw _).trans hfield, hleft⟩
  formless w hw t u := by
    obtain ⟨left, hequal, hleft⟩ := h.fields.formless w hw t u
    exact ⟨left, (h.runFrom_active hw _).trans hequal, hleft⟩
  keyless := h.fields.keyless

/-- There is no default order to be rendered. -/
theorem yields_defaultOrder {w : Walk} (hw : w.IsIn domain) :
    Yields (defaultOrder (catalog.host options maxDepth)) w () := by
  have hdefault : Yields ((catalog.host options maxDepth).default "order") w none := by
    have hyields := yields_default options maxDepth (h.found_of_isIn hw) "order"
    rwa [h.unordered.1, h.unordered.2] at hyields
  refine (yields_query w).bind ?_
  split
  · exact hdefault.bind (.pure () w)
  · exact .pure () w

/-- **The walk over a condition goes through the names of the condition.** -/
theorem checks_walk {e : Tree} (he : Formed True .expression e) (hsimple : e.Within Tag.IsSimple) :
    Checks known (· = catalog.start options domain) e.names
      (catalog.walk options (node .query [node .filter [leaf .relation relation, e]])) fun _ => True := by
  obtain ⟨left, hleft, hmatched⟩ := h.matched
  obtain ⟨_, middle, hbefore, hrelation⟩ := runFrom_bind_eq_ok hmatched
  have hstart : (catalog.start options domain).IsIn domain := ⟨rfl, fun _ => rfl⟩
  have hcondition : IsChecked known (catalog.host options maxDepth) (Walk.IsIn domain)
      (defaultOrder (catalog.host options maxDepth)) e :=
    (checks_expression h.tellsApart he rfl hsimple).1
  have hfilter : Checks known (· = middle) e.names (renderWith (catalog.host options maxDepth)
      (defaultOrder (catalog.host options maxDepth)) (node .filter [leaf .relation relation, e]))
        (Walk.IsIn domain) := by
    rw [renderWith_filter, silently]
    refine .before (.after (fun w hw => ⟨left, hw ▸ runFrom_relationLeaf _ hrelation, hleft⟩) ?_) fun _ => .pure _
    have hphase : ∀ w, w.IsIn domain → ∃ left,
        (enterPhase .filter).runFrom w = (.ok (), left) ∧ left.IsIn domain :=
      fun w hw => ⟨_, rfl, hw.domain, hw.attributes⟩
    refine .after hphase (.before hcondition fun text => .of_runs fun w hw => ?_)
    exact ⟨(), _, rfl, hw.domain, hw.attributes⟩
  have hquery : Checks known (· = middle) e.names (render (catalog.host options maxDepth)
      (node .query [node .filter [leaf .relation relation, e]])) (Walk.IsIn domain) := by
    rw [render, renderWith_query, silently]
    exact .before (.before hfilter fun _ => .of_yields fun w hw => ⟨(), h.yields_defaultOrder hw⟩) fun _ => .pure _
  refine .behind (fun w hw => hw ▸ h.yields_activeDomain hstart) ?_
  refine .after (Q := (· = middle)) (fun w hw => ⟨middle, hw ▸ hbefore, rfl⟩) ?_
  refine .behind (a := middle.query) (fun w hw => by rw [hw]; exact yields_query middle) ?_
  have hlimit : ∀ w, w.IsIn domain → ∃ left,
      (modifyQuery (applyLimit options.limit)).runFrom w = (.ok (), left) ∧ left.IsIn domain := by
    refine fun w hw => ⟨_, rfl, hw.domain, ?_⟩
    show ∀ name, (applyLimit options.limit w.query).attributes.find? name = none
    unfold applyLimit
    split <;> exact hw.attributes
  refine .before hquery fun _ => .after hlimit (.behind (fun w hw => h.yields_activeDomain hw) ?_)
  exact .of_runs fun w hw => (h.after w hw).elim fun left hafter => ⟨(), left, hafter, trivial⟩

/-- **Exactly the unknown fields are refused, the first one first.** A condition that is parsed into one
behind the relation, without calls, interpolated texts and tildes, is compiled if and only if all of its
names are known, and otherwise the first one that is not is told. -/
theorem compile_iff {condition : String} {e : Tree}
    (hparse : parse (relation ++ " where " ++ condition) =
      .ok (node .query [node .filter [leaf .relation relation, e]]))
    (hsimple : e.Within Tag.IsSimple) :
    ((∃ q, catalog.compile options domain.profile.name (relation ++ " where " ++ condition) = .ok q) ↔
      ∀ name ∈ Source.identifiers condition, name ∈ known) ∧
    ((¬ ∀ name ∈ Source.identifiers condition, name ∈ known) →
      ∃ name, FirstUnknown known (Source.identifiers condition) name ∧
        catalog.compile options domain.profile.name (relation ++ " where " ++ condition) =
          .error (.unknownField name)) := by
  obtain ⟨he, hnames⟩ := names_where hparse
  have hcompile := compile_eq options h.found hparse
  have hwalk := h.checks_walk he hsimple
  rw [hnames] at hwalk
  rcases hwalk.decides rfl with ⟨hknown, _, left, hrun⟩ | ⟨name, hname, left, hrun⟩
  · refine ⟨iff_of_true ⟨left.query, ?_⟩ hknown, fun hunknown => absurd hknown hunknown⟩
    rw [hcompile, hrun]
    rfl
  · have herror : catalog.compile options domain.profile.name (relation ++ " where " ++ condition) =
        .error (.unknownField name) := by
      rw [hcompile, hrun]
      rfl
    refine ⟨iff_of_false (fun ⟨q, hq⟩ => ?_) hname.not_forall, fun _ => ⟨name, hname, herror⟩⟩
    rw [herror] at hq
    cases hq

end Catalog.Recognises

/-- A domain of one table with these columns and no others. -/
def Domain.ofColumns (profile : Profile) (columns : List String) : Domain :=
  { Domain.ofTable profile with
    field := fun _ name => do
      if name ∈ columns then return some (Host.currentTable (← get) ++ "." ++ name) else return none }

/-- Objects with these columns know them and no other fields. -/
theorem Domain.recognises_ofColumns (columns : List String) :
    (Catalog.addDomain (Domain.ofColumns objects columns) {}).Recognises {} (Domain.ofColumns objects columns)
      "objects" {name | name ∈ columns} where
  found := rfl
  matched := ⟨_, ⟨rfl, fun _ => rfl⟩, rfl⟩
  fields :=
    { renders := fun w hw name hname => by
        refine ⟨Host.currentTable w ++ "." ++ name, w, ?_, hw⟩
        show (if name ∈ columns then _ else _ : WalkM (Option String)).runFrom w = _
        rw [if_pos (show name ∈ columns from hname)]
        rfl
      declines := fun w hw name hname => by
        refine ⟨w, ?_, hw⟩
        show (if name ∈ columns then _ else _ : WalkM (Option String)).runFrom w = _
        rw [if_neg (show name ∉ columns from hname)]
        rfl
      formless := fun w hw _ _ => ⟨w, rfl, hw⟩
      keyless := fun _ hw => hw.attributes }
  unordered := ⟨rfl, rfl⟩
  after w _ := ⟨w, rfl⟩

/-- A name, or else a height out of bounds and an age from a list. -/
def nameOrHeight : Tree :=
  .node (.op .or)
    [.node (.op .equal) [.leaf .field "name", .leaf .string "a"],
      .node (.op .and)
        [.node (.op .not) [.node (.op .between) [.leaf .field "height", .leaf .integer "1", .leaf .field "name"]],
          .node (.op .in_) [.leaf .field "age", .node .par [.leaf .integer "2", .leaf .field "name"]]]]

/-- The height is told, although the age is not known either. -/
theorem height_unknown :
    (Catalog.addDomain (Domain.ofColumns objects ["name"]) {}).compile {} "objects"
      ("objects" ++ " where " ++ "name = 'a' or height not between 1 and name and age in (2, name)") =
        .error (.unknownField "height") := by
  have hparse : parse
      ("objects" ++ " where " ++ "name = 'a' or height not between 1 and name and age in (2, name)") =
        .ok (.node .query [.node .filter [.leaf .relation "objects", nameOrHeight]]) := by decide +kernel
  have hnames : Source.identifiers "name = 'a' or height not between 1 and name and age in (2, name)" =
      ["name"] ++ (["height"] ++ ["name", "age", "name"]) := by decide +kernel
  have hsimple : nameOrHeight.Within Tag.IsSimple := by
    simp [nameOrHeight, Tree.leaf, Tag.IsSimple]
  obtain ⟨name, hname, herror⟩ := ((Domain.recognises_ofColumns ["name"]).compile_iff hparse hsimple).2 (by
    rw [hnames]
    simp)
  rw [hnames] at hname
  -- the name is known, and the height is not
  obtain hname | ⟨-, hname⟩ := hname.of_append
  · exact absurd (by simp) hname.not_forall
  · obtain hname | ⟨hknown, -⟩ := hname.of_append
    · obtain ⟨rfl, -⟩ := hname.of_singleton
      exact herror
    · simp at hknown

end RelationSql
