import RelationSql.Proofs.Grammar.Strides

/-!
# A grammar of conditions

`Derives` says which tokens stand for which condition, by rules for operands, parentheses, and operators in
front of and between their operands. What may stand in a place depends on the tier of the node around it: an
operator has to bind tighter than that node, and the operators along the right edge of what stands in front
of it have to bind at least as tightly as it does. Operators in front of their operand close nothing, so they
may stand anywhere.

A `not` inside of an expression stands behind its first operand, and belongs around more than the operator
that follows it: `a not like b = c` negates the equality. The rules count such negations, and close them when
the expression is complete.
-/

namespace RelationSql.Grammar

open RelationSql.Source (Span Token TokenKind)

variable {token : Token} {words more : List Token} {o : Operator} {k : Int} {n m : Nat} {t u : Tree}

/-! ## Rules -/

/-- What tokens stand for: a condition, or the items of a parenthesis. -/
inductive Piece where
  | tree (t : Tree)
  | list (ts : List Tree)

/-- The tier right under an expression with `n` negations around it, over a node of tier `k`. -/
def ground (k : Int) : Nat → Int
  | 0 => k
  | _ + 1 => operatorTier .not

/-- The tokens of an operator between its operands. A `not` in front of the operator is one more negation. -/
inductive Coupling (o : Operator) : Nat → Nat → List Token → Prop
  | plain {n : Nat} {token : Token} (h : operatorOf? token.kind = some o) : Coupling o n n [token]
  | negated {n : Nat} {not token : Token} (hnot : not.kind = .keyword .not)
      (h : Machine.negatable? token.kind = some o) : Coupling o n (n + 1) [not, token]

/-- Over a node of tier `k`, the tokens stand for a piece of a condition, with `n` negations to be put around
it whose `not` stands inside of it. -/
inductive Derives : Int → Nat → Piece → List Token → Prop
  | operand {k : Int} {token : Token} {t : Tree} (h : operandOf? token.kind = some t) :
      Derives k 0 (.tree t) [token]
  | signed {k : Int} {minus number : Token} {t : Tree} (hminus : minus.kind = .symbol .minus)
      (h : signedLiteral? minus number = some t) : Derives k 0 (.tree t) [minus, number]
  | parenthesis {k : Int} {opening closing : Token} {ts : List Tree} {words : List Token}
      (hopening : opening.kind = .symbol .leftParen) (h : Derives (tier .par) 0 (.list ts) words)
      (hclosing : closing.kind = .symbol .rightParen) :
      Derives k 0 (.tree (.node .par ts)) (opening :: (words ++ [closing]))
  | before {k : Int} {token : Token} {o : Operator} {t : Tree} {words : List Token}
      (ho : prefixOperator? token.kind = some o)
      (hunsigned : token.kind = .symbol .minus → signedLiteral? token (following token words) = none)
      (h : Derives (operatorTier o) 0 (.tree t) words) :
      Derives k 0 (.tree (.node (.op o) [t])) (token :: words)
  | binary {k : Int} {n m : Nat} {o : Operator} {l r : Tree} {words joint more : List Token}
      (ho : isBinary o = true) (hleft : Derives k n (.tree l) words)
      (hedge : ∀ q ∈ spine l, operatorTier o ≤ operatorTier q) (hground : ground k n < operatorTier o)
      (hjoint : Coupling o n m joint) (hlist : o = .in_ → opensList more)
      (hright : Derives (operatorTier o) 0 (.tree r) more) :
      Derives k m (.tree (.node (.op o) [l, r])) (words ++ (joint ++ more))
  | between {k : Int} {n m : Nat} {v lo hi : Tree} {and : Token} {words joint lower upper : List Token}
      (hvalue : Derives k n (.tree v) words)
      (hedge : ∀ q ∈ spine v, operatorTier .between ≤ operatorTier q)
      (hground : ground k n < operatorTier .between) (hjoint : Coupling .between n m joint)
      (hlower : Derives (operatorTier .between) 0 (.tree lo) lower)
      (htight : ∀ q ∈ spine lo, operatorTier .between < operatorTier q) (hand : and.kind = .keyword .and)
      (hupper : Derives (operatorTier .between) 0 (.tree hi) upper) :
      Derives k m (.tree (.node (.op .between) [v, lo, hi])) (words ++ (joint ++ (lower ++ and :: upper)))
  | negation {k : Int} {n : Nat} {t : Tree} {words : List Token} (h : Derives k (n + 1) (.tree t) words) :
      Derives k n (.tree (.node (.op .not) [t])) words
  | item {t : Tree} {words : List Token} (h : Derives (tier .par) 0 (.tree t) words) :
      Derives (tier .par) 0 (.list [t]) words
  | comma {ts : List Tree} {t : Tree} {comma : Token} {words more : List Token}
      (h : Derives (tier .par) 0 (.list ts) words) (hcomma : comma.kind = .symbol .comma)
      (ht : Derives (tier .par) 0 (.tree t) more) :
      Derives (tier .par) 0 (.list (ts ++ [t])) (words ++ comma :: more)

/-! ## Tokens -/

theorem Coupling.ne_nil {joint : List Token} (h : Coupling o n m joint) : joint ≠ [] := by
  cases h <;> simp

theorem Derives.ne_nil {piece : Piece} (h : Derives k n piece words) : words ≠ [] := by
  induction h with
  | operand _ | signed _ _ | parenthesis _ _ _ _ | before _ _ _ _ | comma _ _ _ _ _ => simp
  | binary _ _ _ _ hjoint _ _ _ _ => simp [hjoint.ne_nil]
  | between _ _ _ hjoint _ _ _ _ _ _ _ => simp [hjoint.ne_nil]
  | negation _ ih | item _ ih => exact ih

theorem isLast_of_operandOf? (h : operandOf? token.kind = some t) : token.kind.isLast = false := by
  cases hkind : token.kind with
  | invalid reason => rw [hkind] at h; cases h
  | finish => rw [hkind] at h; cases h
  | _ => rfl

theorem isLast_of_signedLiteral? {minus number : Token} (h : signedLiteral? minus number = some t) :
    number.kind.isLast = false := by
  unfold signedLiteral? at h
  split at h
  · split at h
    · next hkind => rw [hkind]; rfl
    · next hkind => rw [hkind]; rfl
    · cases h
  · cases h

end RelationSql.Grammar
