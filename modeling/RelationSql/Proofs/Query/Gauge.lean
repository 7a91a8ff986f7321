import Mathlib.Algebra.BigOperators.Group.List.Basic
import RelationSql.Proofs.Grammar.Formed
import RelationSql.Proofs.Query.Absorb
import RelationSql.Proofs.Source.Requoted

/-!
# Weighing texts

What a walk writes can be measured: the bind expressions in it, the comments that it opens. A scale says
what weighs something in the tree of a source, so the weight of an expression is read off its tree
(`Scale.weigh`). A gauge weighs texts as well (`Gauge`); its laws say that the weight of a text is the sum
of the weights of its pieces, and that what the compile writes for a tree weighs what the scale says
(`Gauge.Lawful`).
-/

namespace RelationSql

open Grammar RelationSql.Fragment

/-- An operator that the compiler refuses is one that no SQL is written for: the tilde, or an `and` between
clauses. -/
def CompileError.IsTold : CompileError → Prop
  | .unsupportedOperator name => name = Operator.invertBits.symbol ∨ name = Tag.clauseAnd.name
  | _ => True

/-- A value with the property, or an error that is allowed. -/
def Outcome {α : Type} (F : CompileError → Prop) (Q : α → Prop) : Except CompileError α → Prop
  | .ok a => Q a
  | .error fault => F fault

/-- What the translator of a compile makes of a name; without one the name stands for itself. -/
def Options.Translates (options : Options) (name expression : String) : Prop :=
  match options.translator with
  | none => expression = name
  | some translate => translate name = .ok expression

/-- The source of an interpolated text. -/
def templateSource (content : String) : String :=
  "\"" ++ content ++ "\""

/-- Is the operator negated in its place, in front of its last operands? -/
def Operator.isPlaced (operator : Operator) : Bool :=
  operator == .between || Expression.negatesInPlace operator

/-- Does the text of an expression start with a minus? -/
def Tree.leads : Tree → Bool
  | .node .integer [.atom text] | .node .real [.atom text] => text.toList.head? == some '-'
  | .node .function (t :: _) => leads t
  | .node (.op .changeSign) _ => true
  | .node (.op .or) _ => false
  | .node (.op .not) (t :: _) | .node (.op .bang) (t :: _) => isPlaced t && leads t
  | .node (.op _) (t :: _) => leads t
  | _ => false
where
  /-- Is the expression negated in its place? -/
  isPlaced : Tree → Bool
    | .node (.op operator) _ => operator.isPlaced
    | _ => false

/-! ## Words of a source -/

section Words

variable {text : String}

theorem Grammar.IsName.lacks (h : IsName text) : Lacks reserved text := by
  obtain ⟨c, cs, -, hread⟩ := h
  have hspelled := Source.isSpelled_read c cs
  rw [hread] at hspelled
  exact lacks_of_nameRest hspelled

/-- The offset of a page is an expression of its key. -/
theorem Grammar.IsName.plain_pageOffset (h : IsName text) (size : Nat) :
    Plain (Clause.pageOffset text size) := by
  have hfront : Lacks specials ("(max(" ++ text ++ ",1)-1)*") :=
    (Lacks.append (by decide) (isClass_specials.word h.lacks)).append (by decide)
  exact hfront.append (isClass_specials.number size)

theorem Grammar.IsInteger.lacks (h : IsInteger text) : Lacks reserved text ∧ text ≠ "" := by
  obtain ⟨c, cs, htext, hread⟩ := h
  have hspelled := Source.isSpelled_read c cs
  rw [hread] at hspelled
  exact ⟨lacks_of_digits hspelled, by rintro rfl; cases htext⟩

theorem Grammar.IsReal.lacks (h : IsReal text) : Lacks reserved text ∧ text ≠ "" := by
  obtain ⟨c, cs, htext, hread⟩ := h
  have hspelled := Source.isSpelled_read c cs
  rw [hread] at hspelled
  exact ⟨lacks_of_digits hspelled, by rintro rfl; cases htext⟩

end Words

/-! ## Trees -/

/-- What weighs something in the tree of a source. -/
structure Scale (W : Type) where
  /-- The weight of an interpolated text. -/
  template : String → W
  /-- The weight of a minus in front of another one. -/
  clash : W

namespace Scale

variable {W : Type} [AddCommMonoid W] (scale : Scale W)

mutual

/-- The weight of an expression. A clause has none. -/
def weigh : Tree → W
  | .atom _ => 0
  | .node .dstring [.atom content] => scale.template content
  | .node (.op .changeSign) [t] => weigh t + if t.leads then scale.clash else 0
  | .node tag ts => if isLink tag then 0 else weighAll ts

/-- The weights of expressions, added up. -/
def weighAll : List Tree → W
  | [] => 0
  | t :: ts => weigh t + weighAll ts

end

end Scale

/-! ## Gauges -/

/-- A measure of the texts of a compile. -/
structure Gauge (W : Type) extends Scale W where
  options : Options
  /-- The dialects that a query may have. -/
  dialects : Dialect → Prop
  customs : CustomQueries
  /-- May a `having` hold a chain that has swallowed its expression? -/
  swallows : Prop
  /-- The characters that stand in no name. -/
  excluded : List Char
  /-- The text has this weight. -/
  weighs : W → String → Prop
  /-- Does it matter which texts start with a minus? -/
  signed : Prop
  /-- The errors that may end the compile. -/
  faults : CompileError → Prop

namespace Gauge

variable {W : Type} [AddCommMonoid W] (g : Gauge W)

/-- A name, or a text that is made of names. -/
abbrev Word (text : String) : Prop :=
  Lacks g.excluded text

/-- The text of an expression: its weight, and whether it starts with a minus. -/
structure Speaks (x : W) (leads : Bool) (text : String) : Prop where
  weighs : g.weighs x text
  nonempty : g.signed → text ≠ ""
  head : g.signed → (text.toList.head? = some '-' ↔ leads = true)

/-- A custom query that adds nothing to the weight of a query. -/
structure Light (custom : CustomQuery) : Prop where
  select : ∀ items ∈ custom.select, ∀ item ∈ items, g.Word item
  keys : g.signed → ∀ items ∈ custom.select,
    (Dictionary.ofList (items.filterMap selectedKey?)).All fun text => text ≠ ""
  tables : ∀ tables ∈ custom.tables, ∀ table ∈ tables, g.Word table
  joins : ∀ joins ∈ custom.joinTables, joins.All fun texts => ∀ text ∈ texts, g.weighs 0 text
  filters : ∀ filters ∈ custom.filters, ∀ filter ∈ filters, g.weighs 0 filter
  order : ∀ text ∈ custom.order, g.Word text
  group : ∀ text ∈ custom.group, g.Word text
  having_ : ∀ text ∈ custom.having, g.weighs 0 text
  mainTable : ∀ table ∈ custom.mainTable, g.Word table

/-- The custom query is one that the compile can come across. -/
def Offers (custom : CustomQuery) : Prop :=
  ∃ group domain relation, g.options.group = some group ∧
    g.customs.find? group domain relation = some custom

/-- **The laws of a gauge.** The weights of texts add up, names weigh nothing, and what the compile writes
by itself weighs what the gauge says. -/
structure Lawful : Prop where
  isClass : IsClass g.excluded
  name : ∀ text, g.Word text → g.weighs 0 text
  append : ∀ x y text rest, g.weighs x text → g.weighs y rest → g.weighs (x + y) (text ++ rest)
  operator : ∀ operator : Operator, g.weighs 0 (" " ++ operator.sql ++ " ")
  minus : ∀ x leads text, g.Speaks x leads text →
    g.weighs (x + if leads then g.clash else 0) ("-" ++ text)
  minusExcluded : g.signed → '-' ∈ g.excluded
  bound : ∀ name expression, g.Word name → g.options.Translates name expression →
    g.weighs 0 (insertBind expression)
  page : ∀ key size, IsName key → g.weighs 0 (insertBind (Clause.pageOffset key size))
  template : ∀ content expression, g.options.translator.isSome →
    g.options.Translates (templateSource content) expression →
      g.weighs (g.template content) (insertBind expression)
  literal : ∀ dialect content, g.dialects dialect →
    g.Speaks 0 false (protectText ((g.options.connection.getD dialect.quoteValue) (.text content)))
  customs : ∀ custom, g.Offers custom → g.Light custom
  -- behind a swallowed chain a custom query might meet conditions that it replaces
  replaced : g.swallows → (∃ custom, g.Offers custom) → Subsingleton W
  faults : ∀ fault, fault.IsTold → g.faults fault

/-! ## Texts -/

namespace Lawful

variable {g} (h : g.Lawful) {x y : W} {leads : Bool} {text rest : String}
include h

/-- A text that the compile writes by itself weighs nothing. -/
theorem word (htext : Lacks reserved text) : g.weighs 0 text :=
  h.name _ (h.isClass.word htext)

theorem append_light (htext : g.weighs x text) (hrest : g.weighs 0 rest) : g.weighs x (text ++ rest) := by
  simpa using h.append _ _ _ _ htext hrest

theorem light_append (htext : g.weighs 0 text) (hrest : g.weighs x rest) : g.weighs x (text ++ rest) := by
  simpa using h.append _ _ _ _ htext hrest

/-- **The weights of joined texts add up.** -/
theorem joinWith {separator : String} (hseparator : g.weighs 0 separator) {xs : List W}
    {texts : List String} (htexts : List.Forall₂ g.weighs xs texts) :
    g.weighs xs.sum (Text.joinWith separator texts) := by
  induction htexts with
  | nil => exact h.word (show Lacks reserved "" by decide)
  | @cons x text xs texts htext hrest ih =>
    cases hrest with
    | nil =>
      rw [List.sum_singleton]
      exact htext
    | cons =>
      rw [List.sum_cons]
      exact h.append _ _ _ _ (h.append_light htext hseparator) ih

omit h in
/-- The weights of texts that weigh nothing. -/
theorem forall₂_light {texts : List String} (htexts : ∀ text ∈ texts, g.weighs 0 text) :
    List.Forall₂ g.weighs (List.replicate texts.length 0) texts := by
  rw [List.forall₂_iff_get]
  refine ⟨List.length_replicate, fun n hn hn' => ?_⟩
  rw [List.get_eq_getElem, List.getElem_replicate]
  exact htexts _ (List.getElem_mem hn')

/-! ### Expressions -/

/-- A name that is not empty. -/
theorem speaks_name (htext : g.Word text) (hne : g.signed → text ≠ "") : g.Speaks 0 false text where
  weighs := h.name _ htext
  nonempty := hne
  head := by
    intro hsigned
    rw [Bool.false_eq_true, iff_false]
    exact fun hhead => htext '-' (h.minusExcluded hsigned) (List.mem_of_head? hhead)

/-- What stands behind a text leaves its start as it is. -/
theorem speaks_append (htext : g.Speaks x leads text) (hrest : g.weighs y rest) :
    g.Speaks (x + y) leads (text ++ rest) where
  weighs := h.append _ _ _ _ htext.weighs hrest
  nonempty := fun hsigned heq => htext.nonempty hsigned (String.append_eq_empty_iff.1 heq).1
  head := by
    intro hsigned
    rw [← htext.head hsigned, String.toList_append, List.head?_append_of_ne_nil]
    simpa using htext.nonempty hsigned

/-- What stands in front of a text hides its start. -/
theorem speaks_behind {front : String} (hfront : g.Word front) (hne : front ≠ "")
    (htext : g.weighs x text) : g.Speaks x false (front ++ text) := by
  simpa using h.speaks_append (h.speaks_name hfront fun _ => hne) htext

/-- A text between two operands of an operator. -/
theorem speaks_infix {operator : String} (hoperator : g.weighs 0 (" " ++ operator ++ " "))
    (htext : g.Speaks x leads text) (hrest : g.weighs y rest) :
    g.Speaks (x + y) leads (Expression.infixText text operator rest) := by
  have hsplit : Expression.infixText text operator rest = text ++ ((" " ++ operator ++ " ") ++ rest) := by
    simp only [Expression.infixText, String.append_assoc]
  rw [hsplit]
  exact h.speaks_append htext (h.light_append hoperator hrest)

theorem speaks_minus (htext : g.Speaks x leads text) :
    g.Speaks (x + if leads then g.clash else 0) true ("-" ++ text) where
  weighs := h.minus _ _ _ htext
  nonempty := by simp
  head := by simp

end Lawful

end Gauge

end RelationSql
