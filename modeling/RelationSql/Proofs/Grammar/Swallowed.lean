import RelationSql.Proofs.Grammar.Formation

/-!
# Sources that swallow an expression

A `having` takes the expression behind it, and a `from`, an `or` or an `and` between clauses may then take
that expression for a clause. A tree shows it: the second child of a `having` is a link
(`Tree.swallows`). The trees of all other sources have clauses and expressions in their places
(`formedSource_iff`).
-/

namespace RelationSql

open Grammar

namespace Tree

/-- Is the second child of the node a chain in the place of a condition on groups? -/
def swallowsHere (tag : Tag) (children : List Tree) : Bool :=
  tag == .having && (children[1]?.bind tag?).any isLink

mutual

/-- Does some `having` of the tree hold a chain in the place of its condition? -/
def swallows : Tree → Bool
  | .atom _ => false
  | .node tag children => swallowsHere tag children || swallowsAny children

/-- Does one of the trees swallow an expression? -/
def swallowsAny : List Tree → Bool
  | [] => false
  | t :: ts => swallows t || swallowsAny ts

end

theorem swallowsAny_eq_false {ts : List Tree} : swallowsAny ts = false ↔ ∀ t ∈ ts, t.swallows = false := by
  induction ts with
  | nil => simp [swallowsAny]
  | cons t ts ih => simp [swallowsAny, ih]

theorem swallows_node {tag : Tag} {ts : List Tree} :
    (node tag ts).swallows = false ↔ swallowsHere tag ts = false ∧ ∀ t ∈ ts, t.swallows = false := by
  rw [swallows, Bool.or_eq_false_iff, swallowsAny_eq_false]

theorem swallowsHere_of_ne {tag : Tag} (h : tag ≠ .having) (ts : List Tree) :
    swallowsHere tag ts = false := by
  simp [swallowsHere, h]

/-- The children of a node other than a `having` decide whether it swallows. -/
theorem swallows_of_ne {tag : Tag} (h : tag ≠ .having) {ts : List Tree} :
    (node tag ts).swallows = false ↔ ∀ t ∈ ts, t.swallows = false := by
  rw [swallows_node, swallowsHere_of_ne h]
  simp

theorem swallows_leaf {tag : Tag} (h : tag ≠ .having) (text : String) : (leaf tag text).swallows = false :=
  (swallows_of_ne h).2 (List.forall_mem_singleton.2 (by rw [swallows]))

theorem swallows_having {t u : Tree} : (node .having [t, u]).swallows = false ↔
    u.tag?.any isLink = false ∧ t.swallows = false ∧ u.swallows = false := by
  rw [swallows_node]
  simp [swallowsHere]

end Tree

namespace Grammar

variable {swallows : Prop} {role : Role} {t : Tree}

theorem IsNumber.swallows_eq_false (h : IsNumber t) : t.swallows = false := by
  cases h <;> exact Tree.swallows_leaf (by decide) _

theorem IsField.swallows_eq_false (h : IsField t) : t.swallows = false := by
  cases h
  exact Tree.swallows_leaf (by decide) _

theorem IsCount.swallows_eq_false (h : IsCount t) : t.swallows = false := by
  cases h
  exact Tree.swallows_leaf (by decide) _

theorem IsOrdering.swallows_eq_false (h : IsOrdering t) : t.swallows = false := by
  cases h with
  | field h => exact h.swallows_eq_false
  | asc h | desc h =>
    exact (Tree.swallows_of_ne (by decide)).2 (List.forall_mem_singleton.2 h.swallows_eq_false)

/-- No expression is a link. -/
theorem Formed.any_isLink_of_expression (h : Formed swallows .expression t) : t.tag?.any isLink = false := by
  obtain ⟨tag, ts, rfl, hlink⟩ := h.tag?_of_expression
  exact hlink

/-- A tree that may not swallow does not. -/
theorem Formed.swallows_eq_false (h : Formed False role t) (hrole : role ≠ .hybrid) :
    t.swallows = false := by
  induction h with
  | field h => exact h.swallows_eq_false
  | number h => exact h.swallows_eq_false
  | string | template | relation => exact Tree.swallows_leaf (by decide) _
  | null => exact (Tree.swallows_of_ne (by decide)).2 (by simp)
  | parenthesis _ _ ih => exact (Tree.swallows_of_ne (by decide)).2 fun t ht => ih t ht (by decide)
  | operator _ _ ih => exact (Tree.swallows_of_ne (by simp)).2 fun t ht => ih t ht (by decide)
  | call _ _ ih =>
    refine (Tree.swallows_of_ne (by decide)).2 (List.forall_mem_cons.2 ⟨ih (by decide), ?_⟩)
    exact List.forall_mem_singleton.2 (Tree.swallows_leaf (by decide) _)
  | interval h _ =>
    refine (Tree.swallows_of_ne (by decide)).2 (List.forall_mem_cons.2 ⟨h.swallows_eq_false, ?_⟩)
    exact List.forall_mem_singleton.2 (by rw [Tree.swallows])
  | scope _ _ ih =>
    refine (Tree.swallows_of_ne (by decide)).2 (List.forall_mem_cons.2 ⟨ih (by decide), ?_⟩)
    exact List.forall_mem_singleton.2 (by rw [Tree.swallows])
  | filter _ _ ih ih' =>
    exact (Tree.swallows_of_ne (by decide)).2 (by simp [ih, ih'])
  | @link tag htag _ _ _ _ ih ih' =>
    refine (Tree.swallows_of_ne ?_).2 (by simp [ih, ih'])
    rintro rfl
    cases htag
  | enclosed _ ih => exact (Tree.swallows_of_ne (by decide)).2 (by simp [ih])
  | having _ hcondition ih ih' =>
    exact Tree.swallows_having.2 ⟨hcondition.any_isLink_of_expression, ih (by decide), ih' (by decide)⟩
  | limit _ _ hcounts ih =>
    refine (Tree.swallows_of_ne (by decide)).2 (List.forall_mem_cons.2 ⟨ih (by decide), ?_⟩)
    exact fun u hu => (hcounts u hu).swallows_eq_false
  | offset _ hcount ih =>
    exact (Tree.swallows_of_ne (by decide)).2 (by simp [ih, hcount.swallows_eq_false])
  | paginate _ _ ih =>
    exact (Tree.swallows_of_ne (by decide)).2 (by simp [ih, Tree.swallows_leaf])
  | order _ _ hitems ih =>
    refine (Tree.swallows_of_ne (by decide)).2 (List.forall_mem_cons.2 ⟨ih (by decide), ?_⟩)
    exact fun u hu => (hitems u hu).swallows_eq_false
  | group _ _ hitems ih =>
    refine (Tree.swallows_of_ne (by decide)).2 (List.forall_mem_cons.2 ⟨ih (by decide), ?_⟩)
    exact fun u hu => (hitems u hu).swallows_eq_false
  | swallowed hswallows => exact hswallows.elim
  | stolen | onward => exact absurd rfl hrole

/-- A tree that swallows nothing is one that may not. -/
theorem Formed.of_swallows_eq_false (h : Formed True role t) (hrole : role ≠ .hybrid)
    (ht : t.swallows = false) : Formed False role t := by
  have hchild {tag : Tag} {ts : List Tree} (ht : (Tree.node tag ts).swallows = false) :
      ∀ t ∈ ts, t.swallows = false :=
    (Tree.swallows_node.1 ht).2
  have hfirst {tag : Tag} {t : Tree} {ts : List Tree} (ht : (Tree.node tag (t :: ts)).swallows = false) :
      t.swallows = false :=
    hchild ht t List.mem_cons_self
  induction h with
  | field h => exact .field h
  | number h => exact .number h
  | string content => exact .string content
  | template content => exact .template content
  | null => exact .null
  | parenthesis hne _ ih => exact .parenthesis hne fun t hmem => ih t hmem (by decide) (hchild ht t hmem)
  | operator hcount _ ih => exact .operator hcount fun t hmem => ih t hmem (by decide) (hchild ht t hmem)
  | call _ hname ih => exact .call (ih (by decide) (hfirst ht)) hname
  | interval h hunit => exact .interval h hunit
  | relation h => exact .relation h
  | scope _ hname ih => exact .scope (ih (by decide) (hfirst ht)) hname
  | filter _ _ ih ih' =>
    exact .filter (ih (by decide) (hfirst ht)) (ih' (by decide) (hchild ht _ (by simp)))
  | link htag _ _ ih ih' =>
    exact .link htag (ih (by decide) (hfirst ht)) (ih' (by decide) (hchild ht _ (by simp)))
  | enclosed _ ih => exact .enclosed (ih (by decide) (hfirst ht))
  | having _ _ ih ih' =>
    obtain ⟨-, ht, hu⟩ := Tree.swallows_having.1 ht
    exact .having (ih (by decide) ht) (ih' (by decide) hu)
  | limit _ hlength hcounts ih => exact .limit (ih (by decide) (hfirst ht)) hlength hcounts
  | offset _ hcount ih => exact .offset (ih (by decide) (hfirst ht)) hcount
  | paginate _ hname ih => exact .paginate (ih (by decide) (hfirst ht)) hname
  | order _ hne hitems ih => exact .order (ih (by decide) (hfirst ht)) hne hitems
  | group _ hne hitems ih => exact .group (ih (by decide) (hfirst ht)) hne hitems
  | @swallowed _ t u _ hchain =>
    obtain ⟨tag, ts, rfl, hlink⟩ := hchain.tag?_of_hybrid
    have hnolink := (Tree.swallows_having.1 ht).1
    rw [Tree.tag?, Option.any_some, hlink] at hnolink
    cases hnolink
  | stolen | onward => exact absurd rfl hrole

/-- **The tree of a source has clauses and expressions in their places, unless it swallows one.** -/
theorem formedSource_iff (h : FormedSource True t) : FormedSource False t ↔ t.swallows = false := by
  constructor
  · intro hformed
    cases hformed with
    | empty => exact (Tree.swallows_of_ne (by decide)).2 (by simp)
    | clause hclause =>
      exact (Tree.swallows_of_ne (by decide)).2
        (List.forall_mem_singleton.2 (hclause.swallows_eq_false (by decide)))
  · intro ht
    cases h with
    | empty => exact .empty
    | clause hclause =>
      have hinside := (Tree.swallows_of_ne (by decide)).1 ht
      exact .clause (hclause.of_swallows_eq_false (by decide) (hinside _ List.mem_cons_self))

/-- A tree may swallow an expression if it does. -/
theorem FormedSource.of_swallows {allowed : Prop} (h : FormedSource True t)
    (hallowed : t.swallows = false ∨ allowed) : FormedSource allowed t := by
  by_cases hswallows : allowed
  · rw [eq_true hswallows]
    exact h
  · rw [eq_false hswallows]
    exact (formedSource_iff h).2 (hallowed.resolve_right hswallows)

end Grammar

end RelationSql
