import RelationSql.Proofs.Grammar.Spine
import RelationSql.Walk.Expression

/-!
# Conditions and their words

A condition is a tree of operands, parentheses, operators between operands, `between`s and negations
in which every node binds looser than what stands to its left and right (`Condition`). Its words
from left to right are listed by `items`; a negated `like`, `regexp`, `in` or `between` is written
with the `not` in front of its operator.

`Spells` relates a list of words to tokens that stand for them.
-/

namespace RelationSql.Grammar

open RelationSql.Source (Span Token TokenKind)

/-! ## Words -/

/-- A word of a condition. -/
inductive Item where
  | operand (tree : Tree)
  /-- An operator between two operands. -/
  | operator (operator : Operator)
  /-- The `and` between the bounds of a `between`. -/
  | upTo
  /-- A `not` in front of its operand. -/
  | notBefore
  /-- A `not` in front of the operator that it negates. -/
  | notWithin
  | opening | closing | comma
  deriving DecidableEq, Repr

mutual

/-- The words of a condition from left to right. -/
def items : Tree → List Item
  | .node .par ts => .opening :: itemsAll ts ++ [.closing]
  | .node (.op .not) [.node (.op .between) [v, lo, hi]] =>
    items v ++ .notWithin :: .operator .between :: items lo ++ .upTo :: items hi
  | .node (.op .not) [.node (.op o) [l, r]] =>
    if Expression.negatesInPlace o then items l ++ .notWithin :: .operator o :: items r
    else .notBefore :: items l ++ .operator o :: items r
  | .node (.op .not) [t] => .notBefore :: items t
  | .node (.op .between) [v, lo, hi] =>
    items v ++ .operator .between :: items lo ++ .upTo :: items hi
  | .node (.op o) [l, r] => items l ++ .operator o :: items r
  | t => [.operand t]

/-- The words of a list, with commas between its trees. -/
def itemsAll : List Tree → List Item
  | [] => []
  | [t] => items t
  | t :: ts => items t ++ .comma :: itemsAll ts

end

/-! ## Conditions -/

/-- May the operator stand between two operands? -/
def isBinary (o : Operator) : Bool :=
  !(o == .not || o == .bang || o == .changeSign || o == .invertBits || o == .between)

/-- Is the tree neither an operator node nor a parenthesis? -/
def isLeaf : Tree → Bool
  | .node (.op _) _ => false
  | .node .par _ => false
  | _ => true

/-- The tier from which on the words of a tree leave the node around it open. The `not` of a negated
operator closes what binds as tightly as a comparison. -/
def outerTier : Tree → Int
  | .node (.op .not) _ => 30
  | .node (.op o) _ => operatorTier o
  | _ => 60

/-- Does the tree start with an opening parenthesis? -/
def startsWithParen : Tree → Bool
  | .node .par _ => true
  | .node (.op .not) _ => false
  | .node (.op _) (l :: _) => startsWithParen l
  | _ => false

/-- Trees that binary operators, `between`, negations and parentheses build over leaves, each node
looser than its operands. -/
inductive Condition (leaf : Tree → Prop) : Tree → Prop where
  | leaf {t : Tree} : isLeaf t = true → leaf t → Condition leaf t
  | par {ts : List Tree} : ts ≠ [] → (∀ t ∈ ts, Condition leaf t) →
      Condition leaf (.node .par ts)
  | binary {o : Operator} {l r : Tree} : isBinary o = true →
      Condition leaf l → (∀ q ∈ spine l, operatorTier o ≤ operatorTier q) →
      Condition leaf r → operatorTier o < outerTier r →
      (o = .in_ → startsWithParen r = true) →
      Condition leaf (.node (.op o) [l, r])
  | between {v lo hi : Tree} :
      Condition leaf v → (∀ q ∈ spine v, 29 ≤ operatorTier q) →
      Condition leaf lo → 29 < outerTier lo → (∀ q ∈ spine lo, 29 < operatorTier q) →
      Condition leaf hi → 29 < outerTier hi →
      Condition leaf (.node (.op .between) [v, lo, hi])
  | not {t : Tree} : Condition leaf t → 28 < outerTier t → Condition leaf (.node (.op .not) [t])

/-- An operator between operands is neither a negation nor a `between`. -/
theorem isBinary_iff {o : Operator} : isBinary o = true ↔
    o ≠ .not ∧ o ≠ .bang ∧ o ≠ .changeSign ∧ o ≠ .invertBits ∧ o ≠ .between := by
  cases o <;> simp [isBinary]

/-- The tier of every operator lies between those of the clauses and those of the leaves. -/
theorem operatorTier_bounds (o : Operator) : 24 ≤ operatorTier o ∧ operatorTier o ≤ 38 := by
  cases o <;> decide

/-- A binary operator at the tier of a comparison or above binds tighter than `between`. -/
theorem tier_of_isBinary {o : Operator} (h : isBinary o = true) :
    operatorTier o ≤ 27 ∨ 30 ≤ operatorTier o := by
  revert h
  cases o <;> decide

@[simp] theorem outerTier_par (ts : List Tree) : outerTier (.node .par ts) = 60 := rfl

@[simp] theorem outerTier_not (ts : List Tree) : outerTier (.node (.op .not) ts) = 30 := rfl

@[simp] theorem outerTier_between (ts : List Tree) : outerTier (.node (.op .between) ts) = 29 :=
  rfl

theorem outerTier_op {o : Operator} (h : o ≠ .not) (ts : List Tree) :
    outerTier (.node (.op o) ts) = operatorTier o := by
  cases o <;> first | exact absurd rfl h | rfl

theorem outerTier_leaf {t : Tree} (h : isLeaf t = true) : outerTier t = 60 := by
  unfold isLeaf at h
  unfold outerTier
  split at h <;> simp_all

theorem spine_leaf {t : Tree} (h : isLeaf t = true) : spine t = [] := by
  unfold isLeaf at h
  unfold spine
  split at h <;> simp_all

@[simp] theorem spine_par (ts : List Tree) : spine (.node .par ts) = [] := by
  simp [spine]

@[simp] theorem spine_not (t : Tree) : spine (.node (.op .not) [t]) = .not :: spine t := by
  simp [spine]

@[simp] theorem spine_binary (o : Operator) (l r : Tree) :
    spine (.node (.op o) [l, r]) = o :: spine r := by
  simp [spine]

@[simp] theorem spine_between (v lo hi : Tree) :
    spine (.node (.op .between) [v, lo, hi]) = .between :: spine hi := by
  simp [spine]

/-! ## The words of each kind of node -/

theorem items_leaf {t : Tree} (h : isLeaf t = true) : items t = [.operand t] := by
  unfold isLeaf at h
  unfold items
  split at h <;> simp_all

@[simp] theorem items_par (ts : List Tree) :
    items (.node .par ts) = .opening :: itemsAll ts ++ [.closing] := by
  simp [items]

theorem items_binary {o : Operator} (h : isBinary o = true) (l r : Tree) :
    items (.node (.op o) [l, r]) = items l ++ .operator o :: items r := by
  obtain ⟨hnot, -, -, -, -⟩ := isBinary_iff.1 h
  cases o <;> simp_all [items]

@[simp] theorem items_between (v lo hi : Tree) : items (.node (.op .between) [v, lo, hi]) =
    items v ++ .operator .between :: items lo ++ .upTo :: items hi := by
  simp [items]

/-- A negation whose `not` stands in front of the operator. -/
theorem items_not_within {o : Operator} (h : Expression.negatesInPlace o = true) (l r : Tree) :
    items (.node (.op .not) [.node (.op o) [l, r]]) =
      items l ++ .notWithin :: .operator o :: items r := by
  cases o <;> simp_all [items, Expression.negatesInPlace]

@[simp] theorem items_not_between (v lo hi : Tree) :
    items (.node (.op .not) [.node (.op .between) [v, lo, hi]]) =
      items v ++ .notWithin :: .operator .between :: items lo ++ .upTo :: items hi := by
  simp [items]

/-- Is the negation of the tree written with the `not` in front of an operator? -/
def negatedWithin : Tree → Bool
  | .node (.op .between) [_, _, _] => true
  | .node (.op o) [_, _] => Expression.negatesInPlace o
  | _ => false

/-- A negation whose `not` stands in front of its operand. -/
theorem items_not_before {t : Tree} (h : negatedWithin t = false) :
    items (.node (.op .not) [t]) = .notBefore :: items t := by
  unfold negatedWithin at h
  split at h
  · cases h
  · next o l r =>
    cases o <;> simp_all [items, Expression.negatesInPlace]
  · next hbetween hbinary =>
    rw [items]
    · exact fun v lo hi heq => hbetween v lo hi heq
    · exact fun o l r heq => hbinary o l r heq

theorem itemsAll_cons_cons (t u : Tree) (ts : List Tree) :
    itemsAll (t :: u :: ts) = items t ++ .comma :: itemsAll (u :: ts) := by
  simp [itemsAll]

@[simp] theorem itemsAll_singleton (t : Tree) : itemsAll [t] = items t := by
  simp [itemsAll]

end RelationSql.Grammar
