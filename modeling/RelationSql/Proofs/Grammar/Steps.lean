import RelationSql.Proofs.Grammar.Condition

/-!
# Words read by the machine

For each kind of word, the state of the machine before and after the tokens that spell it. The open
nodes are described by the tree that they hold (`OpenOver`).
-/

namespace RelationSql.Grammar

open RelationSql.Source (Span Token TokenKind)

/-! ## Spelling -/

/-- The operand that a token stands for by itself. -/
def operandOf? : TokenKind → Option Tree
  | .integer digits => some (.leaf .integer digits)
  | .real digits => some (.leaf .real digits)
  | .text content => some (.leaf .string content)
  | .name name => some (.leaf .field name)
  | .keyword .null => some (.node .null [])
  | _ => none

/-- The operator that a token stands for after an operand, `is`, `in` and `between` included. -/
def operatorOf? : TokenKind → Option Operator
  | .keyword .is => some .is
  | .keyword .in_ => some .in_
  | .keyword .between => some .between
  | kind => infixOperator? kind

/-- Does a token of this kind stand for the word? -/
def Item.SpelledBy : Item → TokenKind → Prop
  | .operand t, kind => operandOf? kind = some t
  | .operator o, kind => operatorOf? kind = some o
  | .upTo, kind => kind = .keyword .and
  | .notBefore, kind => kind = .keyword .not
  | .notWithin, kind => kind = .keyword .not
  | .opening, kind => kind = .symbol .leftParen
  | .closing, kind => kind = .symbol .rightParen
  | .comma, kind => kind = .symbol .comma

/-- The tokens stand for the words. A number with a sign takes two tokens that touch. -/
inductive Spells : List Item → List Token → Prop where
  | nil : Spells [] []
  | cons {item : Item} {token : Token} {words : List Item} {tokens : List Token} :
      item.SpelledBy token.kind → Spells words tokens → Spells (item :: words) (token :: tokens)
  | signed {minus number : Token} {t : Tree} {words : List Item} {tokens : List Token} :
      minus.kind = .symbol .minus → signedLiteral? minus number = some t →
      Spells words tokens → Spells (.operand t :: words) (minus :: number :: tokens)

/-- Tokens for a list of words split where the list splits. -/
theorem Spells.of_append {xs ys : List Item} {tokens : List Token} (h : Spells (xs ++ ys) tokens) :
    ∃ ks js, tokens = ks ++ js ∧ Spells xs ks ∧ Spells ys js := by
  induction xs generalizing tokens with
  | nil => exact ⟨[], tokens, rfl, .nil, h⟩
  | cons item xs ih =>
    cases h with
    | cons hk h =>
      obtain ⟨ks, js, rfl, hks, hjs⟩ := ih h
      exact ⟨_ :: ks, js, rfl, .cons hk hks, hjs⟩
    | signed hm hs h =>
      obtain ⟨ks, js, rfl, hks, hjs⟩ := ih h
      exact ⟨_ :: _ :: ks, js, rfl, .signed hm hs hks, hjs⟩

/-- Tokens for a list of words that goes on with a given word, which is no operand. -/
theorem Spells.of_append_cons {xs ys : List Item} {item : Item} {tokens : List Token}
    (hitem : ∀ t, item ≠ .operand t) (h : Spells (xs ++ item :: ys) tokens) :
    ∃ ks token js, tokens = ks ++ token :: js ∧ Spells xs ks ∧ item.SpelledBy token.kind ∧
      Spells ys js := by
  obtain ⟨ks, js, rfl, hks, hjs⟩ := h.of_append
  cases hjs with
  | cons hk hjs => exact ⟨ks, _, _, rfl, hks, hk, hjs⟩
  | signed => exact absurd rfl (hitem _)

theorem Spells.append {xs ys : List Item} {ks js : List Token} (hx : Spells xs ks)
    (hy : Spells ys js) : Spells (xs ++ ys) (ks ++ js) := by
  induction hx with
  | nil => exact hy
  | cons hk _ ih => exact .cons hk ih
  | signed hm hs _ ih => exact .signed hm hs ih

/-! ## Running over one word -/

/-- A token that is used up by itself. -/
theorem runTokens_one {m m' : Machine} {token : Token} {rest : List Token}
    (hk : token.kind.isLast = false) (h : m.step token rest = one m') :
    runTokens m (token :: rest) = runTokens m' rest := by
  conv => lhs; unfold runTokens
  split
  · next heq => simp [heq, TokenKind.isLast] at hk
  · next heq => simp [heq, TokenKind.isLast] at hk
  · rw [h]
    rfl

/-- Two tokens that are used up together. -/
theorem runTokens_two {m m' : Machine} {token next : Token} {rest : List Token}
    (hk : token.kind.isLast = false) (h : m.step token (next :: rest) = two m') :
    runTokens m (token :: next :: rest) = runTokens m' rest := by
  conv => lhs; unfold runTokens
  split
  · next heq => simp [heq, TokenKind.isLast] at hk
  · next heq => simp [heq, TokenKind.isLast] at hk
  · rw [h]
    rfl

variable {frames below : List Frame} {root : List Tree} {f : Frame} {t : Tree}

/-- An operand becomes the newest tree. -/
theorem runTokens_operand {token : Token} (h : operandOf? token.kind = some t)
    (rest : List Token) :
    runTokens ⟨.operand, f :: below, root⟩ (token :: rest) =
      runTokens ⟨.afterOperand, { f with done := t :: f.done } :: below, root⟩ rest := by
  obtain ⟨kind, span⟩ := token
  unfold operandOf? at h
  split at h <;> simp_all <;> subst h <;> apply runTokens_one <;> rfl

/-- A number with its sign becomes the newest tree. -/
theorem runTokens_signed {minus number : Token} (hm : minus.kind = .symbol .minus)
    (h : signedLiteral? minus number = some t) (rest : List Token) :
    runTokens ⟨.operand, f :: below, root⟩ (minus :: number :: rest) =
      runTokens ⟨.afterOperand, { f with done := t :: f.done } :: below, root⟩ rest := by
  apply runTokens_two
  · rw [hm]
    rfl
  · simp only [Machine.step, Machine.operand, hm, following, h]
    rfl

/-- An opening parenthesis opens a node. -/
theorem runTokens_opening {token : Token} (h : token.kind = .symbol .leftParen)
    (rest : List Token) :
    runTokens ⟨.operand, frames, root⟩ (token :: rest) =
      runTokens ⟨.operand, ⟨.par, token.span, []⟩ :: frames, root⟩ rest := by
  apply runTokens_one
  · rw [h]
    rfl
  · simp only [Machine.step, Machine.operand, Machine.openOperand, h]
    rfl

/-- A `not` in front of its operand opens a node. -/
theorem runTokens_notBefore {token : Token} (h : token.kind = .keyword .not)
    (rest : List Token) :
    runTokens ⟨.operand, frames, root⟩ (token :: rest) =
      runTokens ⟨.operand, ⟨.op .not, token.span, []⟩ :: frames, root⟩ rest := by
  apply runTokens_one
  · rw [h]
    rfl
  · simp only [Machine.step, Machine.operand, Machine.openOperand, h]
    rfl

/-! ## Running over one operator -/

/-- The open nodes that a tree of a tight enough right edge leaves to an operator. -/
theorem closeTier_openOver (ht : OpenOver t (f :: below) frames) {least : Int}
    (hspine : ∀ q ∈ spine t, least ≤ operatorTier q) (hf : tier f.tag < least) (span : Span)
    (e : Expect) (root : List Tree) :
    Machine.closeTier least span ⟨e, frames, root⟩ =
      .ok ⟨e, { f with done := t :: f.done } :: below, root⟩ := by
  have hclose := Machine.closeFrames_openOver_stop (p := fun tag => decide (least ≤ tier tag)) ht
    (fun q hq => decide_eq_true (hspine q hq)) (decide_eq_false (Int.not_le.2 hf)) root
  simp [Machine.closeTier, Machine.closeWhile?, hclose, orNear]

/-- The node that an operator opens over the tree in front of it. -/
theorem openOver_openOver (ht : OpenOver t (f :: below) frames) {o : Operator}
    (hspine : ∀ q ∈ spine t, operatorTier o ≤ operatorTier q) (hf : tier f.tag < operatorTier o)
    (span : Span) (next e : Expect) :
    Machine.openOver (.op o) next span ⟨e, frames, root⟩ =
      .ok ⟨next, ⟨.op o, span, [t]⟩ :: f :: below, root⟩ := by
  have hclose := closeTier_openOver ht hspine hf span e root
  simp only [Machine.openOver, tier, hclose]
  rfl

/-- The first token stands for an opening parenthesis. -/
def opensList : List Token → Prop
  | [] => False
  | token :: _ => token.kind = .symbol .leftParen

theorem following_of_opensList {rest : List Token} (h : opensList rest) (token : Token) :
    (following token rest).kind = .symbol .leftParen := by
  cases rest with
  | nil => exact h.elim
  | cons next rest => exact h

/-- The step over an operator after an operand. -/
theorem step_operator {m : Machine} {token : Token} {rest : List Token} {o : Operator}
    (hm : m.expects = .afterOperand) (ho : operatorOf? token.kind = some o)
    (hin : o = .in_ → opensList rest)
    (hand : token.kind = .keyword .and → m.pendingBetween = false) :
    m.step token rest = m.openOver (.op o) .operand token.span >>= one := by
  unfold operatorOf? at ho
  simp only [Machine.step, hm]
  split at ho
  · next hk => cases ho; simp [Machine.afterOperand, hk]
  · next hk =>
    cases ho
    simp [Machine.afterOperand, hk, following_of_opensList (hin rfl)]
  · next hk => cases ho; simp [Machine.afterOperand, hk]
  · next his hin' hbetween =>
    unfold Machine.afterOperand
    split
    · next hk =>
      rw [hk] at ho
      cases ho
      rw [hand hk]
      simp [Machine.infixOrClause, hk, infixOperator?]
    · next hk => rw [hk] at ho; cases ho
    · next hk => exact absurd hk his
    · next hk => exact absurd hk hbetween
    · next hk => exact absurd hk hin'
    · next hk => rw [hk] at ho; cases ho
    · next hk => rw [hk] at ho; cases ho
    · next hk => rw [hk] at ho; cases ho
    · next hk => rw [hk] at ho; cases ho
    · simp [Machine.infixOrClause, ho]

theorem isLast_of_operatorOf? {kind : TokenKind} {o : Operator} (h : operatorOf? kind = some o) :
    kind.isLast = false := by
  cases kind with
  | invalid reason => cases h
  | finish => cases h
  | _ => rfl

/-- An operator takes the tree in front of it as its first operand. -/
theorem runTokens_operator (ht : OpenOver t (f :: below) frames) {o : Operator} {token : Token}
    (ho : operatorOf? token.kind = some o) (hspine : ∀ q ∈ spine t, operatorTier o ≤ operatorTier q)
    (hf : tier f.tag < operatorTier o) {rest : List Token} (hin : o = .in_ → opensList rest) :
    runTokens ⟨.afterOperand, frames, root⟩ (token :: rest) =
      runTokens ⟨.operand, ⟨.op o, token.span, [t]⟩ :: f :: below, root⟩ rest := by
  apply runTokens_one (isLast_of_operatorOf? ho)
  rw [step_operator rfl ho hin, openOver_openOver ht hspine hf]
  · rfl
  · intro hand
    rw [hand] at ho
    cases ho
    apply Machine.waitsForAnd_of_openOver ht
    exact Machine.waitsForAnd_of_tier_lt (Int.lt_trans hf (by decide)) _ _

/-- The operators that a `not` can stand in front of. -/
def isNegatable (o : Operator) : Bool :=
  Expression.negatesInPlace o || o == .between

theorem negatable?_eq_some {kind : TokenKind} {o : Operator} (h : operatorOf? kind = some o)
    (ho : isNegatable o = true) : Machine.negatable? kind = some o := by
  cases kind with
  | keyword k => cases k <;> cases h <;> first | rfl | cases ho
  | symbol k => cases k <;> cases h <;> cases ho
  | _ => cases h

/-- The step over a `not` and the operator that it negates. -/
theorem negated_eq {m : Machine} {token next : Token} {o : Operator}
    (ho : operatorOf? next.kind = some o) (hneg : isNegatable o = true) {rest : List Token}
    (hin : o = .in_ → opensList rest) :
    m.negated token (next :: rest) = m.openNegated o token next := by
  have hlist : ¬ (o = .in_ ∧ (following next rest).kind ≠ .symbol .leftParen) := by
    rintro ⟨rfl, hne⟩
    exact hne (following_of_opensList (hin rfl) next)
  have hnext : following token (next :: rest) = next := rfl
  simp only [Machine.negated, hnext, negatable?_eq_some ho hneg, List.drop_one, List.tail_cons]
  exact if_neg hlist

/-- A `not` and the operator that it negates take the tree in front of them. -/
theorem runTokens_notWithin (ht : OpenOver t (f :: below) frames) {o : Operator}
    {token next : Token} (hnot : token.kind = .keyword .not) (ho : operatorOf? next.kind = some o)
    (hneg : isNegatable o = true) (hspine : ∀ q ∈ spine t, operatorTier o ≤ operatorTier q)
    (hf : tier f.tag < operatorTier o) {rest : List Token} (hin : o = .in_ → opensList rest) :
    runTokens ⟨.afterOperand, frames, root⟩ (token :: next :: rest) =
      runTokens ⟨.operand, ⟨.op o, next.span, [t]⟩ :: ⟨.op .not, token.span, []⟩ :: f :: below,
        root⟩ rest := by
  have hclose := closeTier_openOver ht hspine hf token.span .afterOperand root
  apply runTokens_two
  · rw [hnot]
    rfl
  · simp only [Machine.step, Machine.afterOperand, hnot, negated_eq ho hneg hin,
      Machine.openNegated, hclose]
    rfl

/-- The `and` of a `between` closes its lower bound. -/
theorem runTokens_upTo {s : Span} {v : Tree}
    (ht : OpenOver t (⟨.op .between, s, [v]⟩ :: below) frames) {token : Token}
    (hand : token.kind = .keyword .and) (hspine : ∀ q ∈ spine t, 29 < operatorTier q)
    (rest : List Token) :
    runTokens ⟨.afterOperand, frames, root⟩ (token :: rest) =
      runTokens ⟨.operand, ⟨.op .between, s, [t, v]⟩ :: below, root⟩ rest := by
  have hpending : Machine.pendingBetween ⟨.afterOperand, frames, root⟩ = true := by
    rw [Machine.pendingBetween, Machine.waitsForAnd_openOver ht hspine]
    rfl
  have hclose := Machine.closeFrames_openOver_stop (p := fun tag => tag != .op .between) ht
    (fun q hq => by
      have hlt := hspine q hq
      have hne : q ≠ .between := by
        rintro rfl
        exact absurd hlt (by decide)
      simpa using hne)
    (by simp) root
  apply runTokens_one
  · rw [hand]
    rfl
  · simp [Machine.step, Machine.afterOperand, hand, hpending, Machine.betweenAnd,
      Machine.closeWhile?, hclose, orNear, bind, Except.bind, Machine.expecting]

/-! ## Running over the words of a list -/

/-- The innermost open parenthesis lies below an unfinished tree. -/
theorem find_paren_openOver {below frames : List Frame} (h : OpenOver t below frames) :
    (frames.find? fun f => f.tag.isParen).map Frame.tag =
      (below.find? fun f => f.tag.isParen).map Frame.tag := by
  induction h with
  | @closed t f below =>
    cases hf : f.tag.isParen <;> simp [hf]
  | binary _ _ ih => simpa [Tag.isParen] using ih
  | between _ ih => simpa [Tag.isParen] using ih
  | not _ ih => simpa [Tag.isParen] using ih

/-- Every operator binds tighter than a parenthesis. -/
theorem parenTier_le_operatorTier (o : Operator) : parenTier ≤ operatorTier o :=
  Int.le_trans (by decide) (operatorTier_bounds o).1

/-- A comma leaves the tree in front of it in the parenthesis. -/
theorem runTokens_comma {s : Span} {done : List Tree}
    (ht : OpenOver t (⟨.par, s, done⟩ :: below) frames) {token : Token}
    (hcomma : token.kind = .symbol .comma) (rest : List Token) :
    runTokens ⟨.afterOperand, frames, root⟩ (token :: rest) =
      runTokens ⟨.operand, ⟨.par, s, t :: done⟩ :: below, root⟩ rest := by
  have hinside : Machine.insideExpression ⟨.afterOperand, frames, root⟩ = true := by
    have hparen := find_paren_openOver ht
    simp only [Tag.isParen, beq_self_eq_true, Bool.true_or, List.find?_cons_of_pos,
      Option.map_some, Option.map_eq_some_iff] at hparen
    obtain ⟨frame, hfind, htag⟩ := hparen
    simp [Machine.insideExpression, Machine.paren?, Tag.isParen, hfind, htag]
  have hclose := Machine.closeFrames_openOver_stop (p := fun tag => tag != .par) ht
    (fun q _ => by simp) (by simp) root
  apply runTokens_one
  · rw [hcomma]
    rfl
  · simp [Machine.step, Machine.afterOperand, hcomma, Machine.comma, hinside,
      Machine.closeWhile?, hclose, orNear, bind, Except.bind, Machine.expecting]

/-- A closing parenthesis closes the node. -/
theorem runTokens_closing {s : Span} {done : List Tree}
    (ht : OpenOver t (⟨.par, s, done⟩ :: f :: below) frames) {token : Token}
    (hclosing : token.kind = .symbol .rightParen) (rest : List Token) :
    runTokens ⟨.afterOperand, frames, root⟩ (token :: rest) =
      runTokens ⟨.afterOperand,
        { f with done := .node .par (t :: done).reverse :: f.done } :: below, root⟩ rest := by
  have hpar : tier .par < parenTier := by decide
  have hclose := closeTier_openOver ht
    (fun q _ => parenTier_le_operatorTier q) hpar token.span
    .afterOperand root
  apply runTokens_one
  · rw [hclosing]
    rfl
  · simp only [Machine.step, Machine.afterOperand, Machine.infixOrClause, hclosing, infixOperator?,
      Machine.clause, Machine.closeParen, hclose]
    rfl

end RelationSql.Grammar
