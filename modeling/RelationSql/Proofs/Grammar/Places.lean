import Mathlib.Tactic.Common
import RelationSql.Grammar.Parse
import RelationSql.Proofs.Grammar.Alike
import RelationSql.Proofs.Grammar.Plain
import RelationSql.Proofs.Source.Restyled

/-!
# Parsing does not look at places

The machine reads the places of tokens in one question only: does a minus touch the number after it?
Everything else it does with a place is to keep it for a fault. So if the tokens of a source are moved
to other places, and that question has the same answers there, every step commutes with the move
(`step_relocate`), and so does the whole run (`runTokens_relocate`).

The same fact, applied to a move that leaves all tokens where they are, says that the place of a fault is
the place of a token (`exists_token_of_fault`).
-/

namespace RelationSql

open RelationSql.Source (Span Token TokenKind Relaid)

/-! ## Moving places -/

/-- The same token in another place. -/
def Source.Token.relocate (f : Span → Span) (token : Token) : Token :=
  { token with span := f token.span }

namespace Grammar

variable (f : Span → Span)

/-- The same open node, opened in another place. -/
def Frame.relocate (frame : Frame) : Frame :=
  { frame with opened := f frame.opened }

/-- The same machine, with its nodes opened in other places. -/
def Machine.relocate (m : Machine) : Machine :=
  { m with frames := m.frames.map (Frame.relocate f) }

/-- The same fault in another place. -/
def Fault.relocate (fault : Fault) : Fault :=
  { fault with span := f fault.span }

/-- A result with its value changed, and its fault in another place. -/
def carry {α β : Type} (g : α → β) : Except Fault α → Except Fault β
  | .ok value => .ok (g value)
  | .error fault => .error (fault.relocate f)

/-- The result of a step in other places. -/
def StepResult.relocate (result : StepResult) : StepResult :=
  carry f (fun r => (r.1.relocate f, r.2)) result

variable {f}

@[simp] theorem kind_relocate (token : Token) : (token.relocate f).kind = token.kind := rfl

@[simp] theorem Machine.expects_relocate (m : Machine) : (m.relocate f).expects = m.expects := rfl

/-- **A chain of two moves commutes with the places if both do.** -/
theorem carry_bind {α β γ δ : Type} {g : α → β} {h : γ → δ} {x : Except Fault α}
    {k : α → Except Fault γ} {k' : β → Except Fault δ} (hk : ∀ value, k' (g value) = carry f h (k value)) :
    carry f g x >>= k' = carry f h (x >>= k) := by
  cases x with
  | error fault => rfl
  | ok value => exact hk value

theorem orNear_relocate {α β : Type} (g : α → β) (span : Span) (o : Option α) :
    orNear (f span) (o.map g) = carry f g (orNear span o) := by
  cases o <;> rfl

namespace Machine

variable {m : Machine} {token next : Token} {rest : List Token}

theorem append_relocate (tree : Tree) : (m.relocate f).append tree = (m.append tree).relocate f := by
  obtain ⟨expects, _ | ⟨frame, frames⟩, root⟩ := m <;> rfl

theorem takeLast?_relocate :
    (m.relocate f).takeLast? = m.takeLast?.map fun r => (r.1, r.2.relocate f) := by
  obtain ⟨expects, _ | ⟨⟨tag, opened, _ | ⟨tree, done⟩⟩, frames⟩, _ | ⟨tree', root⟩⟩ := m <;> rfl

theorem closeFrames_relocate (p : Tag → Bool) (new : List Tree) (frames : List Frame)
    (root : List Tree) : closeFrames p new (frames.map (Frame.relocate f)) root =
      (closeFrames p new frames root).map fun r => (r.1.map (Frame.relocate f), r.2) := by
  induction frames generalizing new with
  | nil => rfl
  | cons frame frames ih =>
    rw [List.map_cons, closeFrames, closeFrames]
    show (if p frame.tag then _ else _) = Option.map _ (if p frame.tag then _ else _)
    split
    · show (if Frame.isComplete { frame with done := new ++ frame.done } then _ else _) = Option.map _ _
      split
      · exact ih _
      · rfl
    · rfl

theorem closeWhile?_relocate (p : Tag → Bool) :
    (m.relocate f).closeWhile? p = (m.closeWhile? p).map (relocate f) := by
  unfold closeWhile?
  show (closeFrames p [] (m.frames.map (Frame.relocate f)) m.root).map _ = _
  rw [closeFrames_relocate, Option.map_map, Option.map_map]
  rfl

theorem closeTier_relocate (least : Int) (span : Span) :
    (m.relocate f).closeTier least (f span) = carry f (relocate f) (m.closeTier least span) := by
  unfold closeTier
  rw [closeWhile?_relocate, orNear_relocate]

theorem openOver_relocate (tag : Tag) (next : Expect) (span : Span) :
    (m.relocate f).openOver tag next (f span) = carry f (relocate f) (m.openOver tag next span) := by
  unfold openOver
  rw [closeTier_relocate]
  apply carry_bind
  intro m₁
  rw [takeLast?_relocate, orNear_relocate]
  apply carry_bind
  rintro ⟨tree, m₂⟩
  rfl

theorem wrapLast_relocate (tag : Tag) (more : List Tree) (span : Span) :
    (m.relocate f).wrapLast tag more (f span) = carry f (relocate f) (m.wrapLast tag more span) := by
  unfold wrapLast
  rw [closeTier_relocate]
  apply carry_bind
  intro m₁
  rw [takeLast?_relocate, orNear_relocate]
  apply carry_bind
  rintro ⟨tree, m₂⟩
  exact congrArg Except.ok (append_relocate _)

/-! ### Questions -/

theorem paren?_relocate : (m.relocate f).paren? = m.paren?.map (Frame.relocate f) := by
  unfold paren?
  show (m.frames.map (Frame.relocate f)).find? _ = _
  rw [List.find?_map]
  rfl

theorem insideExpression_relocate : (m.relocate f).insideExpression = m.insideExpression := by
  unfold insideExpression
  rw [paren?_relocate, Option.any_map]
  rfl

theorem waitsForAnd_relocate (above : Bool) (frames : List Frame) :
    waitsForAnd above (frames.map (Frame.relocate f)) = waitsForAnd above frames := by
  induction frames generalizing above with
  | nil => rfl
  | cons frame frames ih =>
    rw [List.map_cons, waitsForAnd, waitsForAnd, ih]
    rfl

theorem pendingBetween_relocate : (m.relocate f).pendingBetween = m.pendingBetween :=
  waitsForAnd_relocate false m.frames

theorem lastIsNumber_relocate : (m.relocate f).lastIsNumber = m.lastIsNumber := by
  obtain ⟨expects, _ | ⟨frame, frames⟩, root⟩ := m <;> rfl

theorem hasFirstLimit_relocate : (m.relocate f).hasFirstLimit = m.hasFirstLimit := by
  obtain ⟨expects, _ | ⟨frame, frames⟩, root⟩ := m <;> rfl

/-! ### Parentheses and clauses -/

theorem closeParen_relocate :
    (m.relocate f).closeParen (token.relocate f) = (m.closeParen token).relocate f := by
  unfold closeParen
  show (m.relocate f).closeTier parenTier (f token.span) >>= _ = _
  rw [closeTier_relocate]
  apply carry_bind
  rintro ⟨expects, _ | ⟨frame, frames⟩, root⟩
  · rfl
  · show (if frame.tag.isParen && !frame.done.isEmpty then _ else _) = carry f _ _
    dsimp only
    split
    · exact congrArg (fun m => Except.ok (m, false))
        (append_relocate (m := ({ expects := expects, frames := frames, root := root } : Machine).expecting
          (afterParen frame.tag)) frame.tree)
    · rfl

/-! ### Tokens ahead -/

end Machine

section Ahead

variable {m : Machine} {token next : Token} {rest : List Token}

theorem following_relocate (token : Token) (rest : List Token) :
    following (token.relocate f) (rest.map (Token.relocate f)) = (following token rest).relocate f := by
  cases rest <;> rfl

/-- A minus takes the same number into a literal, or none. -/
theorem signedLiteral?_relocate (hkind : token.kind = .symbol .minus)
    (h : Relaid (token :: rest) ((token :: rest).map (Token.relocate f))) :
    signedLiteral? (token.relocate f) ((following token rest).relocate f) =
      signedLiteral? token (following token rest) := by
  cases h with
  | cons _ touches _ =>
    cases rest with
    | nil =>
      -- a minus at the end of the source is followed by itself
      have hnone : ∀ minus : Token, minus.kind = .symbol .minus → signedLiteral? minus minus = none := by
        intro minus hminus
        unfold signedLiteral?
        rw [hminus]
        split <;> rfl
      rw [following, hnone token hkind, hnone (token.relocate f) hkind]
    | cons next rest =>
      have htouches := touches hkind next rfl (next.relocate f) rfl
      unfold signedLiteral?
      rw [following, htouches]
      rfl

end Ahead

namespace Machine

variable {m : Machine} {token next : Token} {rest : List Token}

theorem clauseOf?_relocate : clauseOf? (token.relocate f) (next.relocate f) =
    match clauseOf? token next with
    | .ok clause => .ok clause
    | .error culprit => .error (culprit.relocate f) := by
  obtain ⟨kind, span⟩ := token
  obtain ⟨kind', span'⟩ := next
  cases kind with
  | keyword keyword =>
    cases keyword with
    | order | group =>
      by_cases hby : kind' = .keyword .by_
      · simp [clauseOf?, Token.relocate, hby]
      · simp [clauseOf?, Token.relocate, hby]
    | _ => rfl
  | _ => rfl

theorem clause_relocate : (m.relocate f).clause (token.relocate f) (rest.map (Token.relocate f)) =
    (m.clause token rest).relocate f := by
  unfold clause
  rw [following_relocate, clauseOf?_relocate, insideExpression_relocate]
  show (if token.kind = .symbol .rightParen then _ else _) =
    StepResult.relocate f (if token.kind = .symbol .rightParen then _ else _)
  split
  · exact closeParen_relocate
  · split
    · rfl
    · cases clauseOf? token (following token rest) with
      | error culprit => rfl
      | ok clause =>
        obtain ⟨tag, next, usesNext⟩ := clause
        show (m.relocate f).openOver tag next (f token.span) >>= _ = _
        rw [openOver_relocate]
        exact carry_bind fun _ => rfl

/-! ### Relations -/

theorem relation_relocate :
    (m.relocate f).relation (token.relocate f) = (m.relation token).relocate f := by
  obtain ⟨kind, span⟩ := token
  cases kind with
  | name name =>
    show (m.relocate f).closeTier (tier .relation) (f span) >>= _ = _
    rw [closeTier_relocate]
    exact carry_bind fun _ => rfl
  | symbol symbol => cases symbol <;> rfl
  | _ => rfl

theorem scope_relocate :
    (m.relocate f).scope (token.relocate f) (next.relocate f) = (m.scope token next).relocate f := by
  obtain ⟨kind, span⟩ := next
  cases kind with
  | name name =>
    show (m.relocate f).wrapLast .scope [.atom name] (f token.span) >>= _ = _
    rw [wrapLast_relocate]
    exact carry_bind fun _ => rfl
  | _ => rfl

/-- A node opened over the newest tree. -/
theorem opens_relocate (tag : Tag) (next : Expect) (span : Span) :
    (m.relocate f).openOver tag next (f span) >>= one =
      StepResult.relocate f (m.openOver tag next span >>= one) := by
  rw [openOver_relocate]
  exact carry_bind fun _ => rfl

theorem afterRelation_relocate :
    (m.relocate f).afterRelation (token.relocate f) (rest.map (Token.relocate f)) =
      (m.afterRelation token rest).relocate f := by
  have hscope := @scope_relocate f m token (following token rest)
  have hclause := @clause_relocate f m token rest
  rw [← following_relocate] at hscope
  obtain ⟨kind, span⟩ := token
  cases kind with
  | keyword keyword =>
    cases keyword with
    | in_ => exact hscope
    | where_ | from_ | or | and => exact opens_relocate _ _ _
    | _ => exact hclause
  | _ => exact hclause

/-! ### Expressions -/

theorem addOperand_relocate (tree : Tree) :
    one ((m.relocate f).addOperand tree) = StepResult.relocate f (one (m.addOperand tree)) := by
  unfold addOperand
  rw [append_relocate]
  rfl

theorem openOperand_relocate :
    (m.relocate f).openOperand (token.relocate f) = (m.openOperand token).relocate f := by
  obtain ⟨kind, span⟩ := token
  cases kind with
  | symbol symbol => cases symbol <;> rfl
  | keyword keyword => cases keyword <;> rfl
  | _ => rfl

theorem operand_relocate (h : Relaid (token :: rest) ((token :: rest).map (Token.relocate f))) :
    (m.relocate f).operand (token.relocate f) (rest.map (Token.relocate f)) =
      (m.operand token rest).relocate f := by
  have hopen := @openOperand_relocate f m token
  have hsigned (hkind : token.kind = .symbol .minus) := signedLiteral?_relocate hkind h
  rw [← following_relocate] at hsigned
  obtain ⟨kind, span⟩ := token
  cases kind with
  | integer _ | real _ | text _ | template _ | name _ => exact addOperand_relocate _
  | keyword keyword =>
    cases keyword with
    | null => exact addOperand_relocate _
    | _ => exact hopen
  | symbol symbol =>
    cases symbol with
    | minus =>
      unfold operand
      dsimp only [Token.relocate] at hsigned ⊢
      rw [hsigned rfl]
      split
      · unfold addOperand
        rw [append_relocate]
        rfl
      · exact hopen
    | _ => exact hopen
  | _ => exact hopen

theorem openNegated_relocate (operator : Operator) :
    (m.relocate f).openNegated operator (token.relocate f) (next.relocate f) =
      (m.openNegated operator token next).relocate f := by
  unfold openNegated
  show (m.relocate f).closeTier _ (f token.span) >>= _ = _
  rw [closeTier_relocate]
  apply carry_bind
  intro m₁
  show orNear (f token.span) (m₁.relocate f).takeLast? >>= _ = _
  rw [takeLast?_relocate, orNear_relocate]
  exact carry_bind fun _ => rfl

theorem negated_relocate :
    (m.relocate f).negated (token.relocate f) (rest.map (Token.relocate f)) =
      (m.negated token rest).relocate f := by
  unfold negated
  simp only [← List.map_drop, following_relocate, kind_relocate]
  cases negatable? (following token rest).kind with
  | none => rfl
  | some operator =>
    dsimp only
    split
    · rfl
    · exact openNegated_relocate operator

theorem comma_relocate : (m.relocate f).comma (token.relocate f) = (m.comma token).relocate f := by
  unfold comma
  rw [insideExpression_relocate]
  split
  · rw [closeWhile?_relocate]
    show orNear (f token.span) _ >>= _ = _
    rw [orNear_relocate]
    exact carry_bind fun _ => rfl
  · rfl

theorem method_relocate :
    (m.relocate f).method (token.relocate f) (next.relocate f) = (m.method token next).relocate f := by
  obtain ⟨kind, span⟩ := next
  cases kind with
  | name name =>
    show (m.relocate f).wrapLast .function [.leaf .method name] (f token.span) >>= _ = _
    rw [wrapLast_relocate]
    exact carry_bind fun _ => rfl
  | _ => rfl

theorem interval_relocate (word : String) :
    (m.relocate f).interval word (token.relocate f) = (m.interval word token).relocate f := by
  unfold interval
  rw [lastIsNumber_relocate]
  split
  · split
    · show (m.relocate f).wrapLast .interval _ (f token.span) >>= _ = _
      rw [wrapLast_relocate]
      exact carry_bind fun _ => rfl
    · rfl
  · rfl

theorem infixOrClause_relocate :
    (m.relocate f).infixOrClause (token.relocate f) (rest.map (Token.relocate f)) =
      (m.infixOrClause token rest).relocate f := by
  have hkind : (token.relocate f).kind = token.kind := rfl
  unfold infixOrClause
  rw [hkind]
  cases infixOperator? token.kind with
  | some operator => exact opens_relocate _ _ _
  | none => exact clause_relocate

theorem betweenAnd_relocate :
    (m.relocate f).betweenAnd (token.relocate f) = (m.betweenAnd token).relocate f := by
  unfold betweenAnd
  rw [closeWhile?_relocate]
  show orNear (f token.span) _ >>= _ = _
  rw [orNear_relocate]
  exact carry_bind fun _ => rfl

theorem afterOperand_relocate :
    (m.relocate f).afterOperand (token.relocate f) (rest.map (Token.relocate f)) =
      (m.afterOperand token rest).relocate f := by
  have hmethod := @method_relocate f m token (following token rest)
  have hinfix := @infixOrClause_relocate f m token rest
  have hnegated := @negated_relocate f m token rest
  have hcomma := @comma_relocate f m token
  have hand := @betweenAnd_relocate f m token
  have hinterval (word : String) := @interval_relocate f m token word
  have hfollowing := following_relocate (f := f) token rest
  rw [← hfollowing] at hmethod
  obtain ⟨kind, span⟩ := token
  cases kind with
  | keyword keyword =>
    cases keyword with
    | and =>
      unfold afterOperand
      dsimp only [Token.relocate]
      rw [pendingBetween_relocate]
      split
      · exact hand
      · exact hinfix
    | not => exact hnegated
    | is | between => exact opens_relocate _ _ _
    | in_ =>
      unfold afterOperand
      simp only [hfollowing, kind_relocate]
      split
      · exact opens_relocate _ _ _
      · rfl
    | from_ =>
      unfold afterOperand
      dsimp only [Token.relocate]
      rw [insideExpression_relocate]
      split
      · rfl
      · exact opens_relocate _ _ _
    | _ => exact hinfix
  | symbol symbol =>
    cases symbol with
    | dot => exact hmethod
    | comma => exact hcomma
    | _ => exact hinfix
  | name word => exact hinterval word
  | _ => exact hinfix

/-! ### Values and items of clauses -/

theorem clauseValue_relocate (next : Expect) :
    (m.relocate f).clauseValue next (token.relocate f) = (m.clauseValue next token).relocate f := by
  obtain ⟨kind, span⟩ := token
  cases kind with
  | integer digits =>
    show one (((m.relocate f).append _).expecting next) = _
    rw [append_relocate]
    rfl
  | _ => rfl

theorem clauseName_relocate (tag : Tag) (next : Expect) :
    (m.relocate f).clauseName tag next (token.relocate f) = (m.clauseName tag next token).relocate f := by
  obtain ⟨kind, span⟩ := token
  cases kind with
  | name name =>
    show one (((m.relocate f).append _).expecting next) = _
    rw [append_relocate]
    rfl
  | _ => rfl

theorem afterOrderItem_relocate :
    (m.relocate f).afterOrderItem (token.relocate f) (rest.map (Token.relocate f)) =
      (m.afterOrderItem token rest).relocate f := by
  have hclause := @clause_relocate f m token rest
  have hdirection (tag : Tag) : (do
      let m ← (m.relocate f).wrapLast tag [] (f token.span)
      one (m.expecting .orderSeparator)) = StepResult.relocate f (do
        let m ← m.wrapLast tag [] token.span
        one (m.expecting .orderSeparator)) := by
    rw [wrapLast_relocate]
    exact carry_bind fun _ => rfl
  obtain ⟨kind, span⟩ := token
  cases kind with
  | keyword keyword =>
    cases keyword with
    | asc | desc => exact hdirection _
    | _ => exact hclause
  | symbol symbol =>
    cases symbol with
    | comma => rfl
    | _ => exact hclause
  | _ => exact hclause

theorem separatorOrClause_relocate (allowed : Bool) (next : Expect) :
    (m.relocate f).separatorOrClause allowed next (token.relocate f) (rest.map (Token.relocate f)) =
      (m.separatorOrClause allowed next token rest).relocate f := by
  unfold separatorOrClause
  show (if token.kind = .symbol .comma ∧ allowed = true then _ else _) =
    StepResult.relocate f (if token.kind = .symbol .comma ∧ allowed = true then _ else _)
  split
  · rfl
  · exact clause_relocate

/-- **A step takes the machine to the same machine in other places**, if a minus touches what follows it
as before. -/
theorem step_relocate (h : Relaid (token :: rest) ((token :: rest).map (Token.relocate f))) :
    (m.relocate f).step (token.relocate f) (rest.map (Token.relocate f)) =
      (m.step token rest).relocate f := by
  unfold step
  rw [expects_relocate, hasFirstLimit_relocate]
  cases m.expects with
  | relation => exact relation_relocate
  | afterRelation => exact afterRelation_relocate
  | operand => exact operand_relocate h
  | afterOperand => exact afterOperand_relocate
  | limitValue | offsetValue => exact clauseValue_relocate _
  | pageName | orderItem | groupItem => exact clauseName_relocate _ _
  | afterOrderItem => exact afterOrderItem_relocate
  | afterLimit | orderSeparator | afterGroupItem => exact separatorOrClause_relocate _ _
  | clauseEnd => exact clause_relocate

theorem finish_relocate (last : Token) :
    (m.relocate f).finish (last.relocate f) = carry f id (m.finish last) := by
  have hempty : (m.frames.map (Frame.relocate f)).isEmpty = m.frames.isEmpty := List.isEmpty_map
  unfold finish
  rw [paren?_relocate, closeWhile?_relocate]
  show (if m.expects.acceptsEnd || (m.expects == .relation &&
      (m.frames.map (Frame.relocate f)).isEmpty && m.root.isEmpty) then _ else _) = _
  rw [hempty]
  split
  · cases m.paren? with
    | some frame => rfl
    | none =>
      show orNear (f last.span) _ >>= _ = _
      rw [orNear_relocate]
      exact carry_bind fun _ => rfl
  · rfl

end Machine

/-! ## The token that is used up as well -/

/-- The machine has just opened a `between` over its first operand. -/
def Machine.OpensBetween (m : Machine) : Prop :=
  ∃ span t below root, m = ⟨.operand, ⟨.op .between, span, [t]⟩ :: below, root⟩

/-- If the step used up the token after its own, there is one, and it is not the last. It is a `between`
only if the step has opened that. -/
def Uses (rest : List Token) (result : StepResult) : Prop :=
  ∀ m, result = .ok (m, true) → ∃ next more, rest = next :: more ∧ next.kind.isLast = false ∧
    (next.kind = .keyword .between → m.OpensBetween)

section Uses

variable {m : Machine} {token next : Token} {rest : List Token}

theorem uses_one (m : Machine) : Uses rest (one m) := by
  intro _ h
  cases h

theorem uses_reject (token : Token) : Uses rest (reject token) := by
  intro _ h
  cases h

theorem Uses.bind {α : Type} {x : Except Fault α} {k : α → StepResult}
    (h : ∀ value, Uses rest (k value)) : Uses rest (x >>= k) := by
  cases x with
  | error fault =>
    intro _ hresult
    cases hresult
  | ok value => exact h value

/-- A step that uses up a token of another kind than its own, which is not the last. -/
theorem uses_two {result : StepResult} (hother : (following token rest).kind ≠ token.kind)
    (hlast : (following token rest).kind.isLast = false)
    (hbetween : (following token rest).kind ≠ .keyword .between) : Uses rest result := by
  intro _ _
  cases rest with
  | nil => exact absurd rfl hother
  | cons next more => exact ⟨next, more, rfl, hlast, fun heq => absurd heq hbetween⟩

namespace Machine

theorem uses_closeParen : Uses rest (m.closeParen token) := by
  apply Uses.bind
  rintro ⟨expects, _ | ⟨frame, frames⟩, root⟩
  · exact uses_reject token
  · dsimp only
    split
    · exact uses_one _
    · exact uses_reject token

/-- Only `order` and `group` use up the word after them, and it is `by`. -/
theorem clauseOf?_uses {clause : Tag × Expect × Bool} (h : clauseOf? token next = .ok clause) :
    clause.2.2 = true → next.kind = .keyword .by_ ∧ token.kind ≠ .keyword .by_ := by
  obtain ⟨kind, span⟩ := token
  intro huses
  cases kind with
  | keyword keyword =>
    cases keyword with
    | limit | offset | paginate | having => cases h; cases huses
    | order | group =>
      unfold clauseOf? at h
      dsimp only at h
      split at h
      · next hby => exact ⟨hby, by simp⟩
      · cases h
    | _ => cases h
  | _ => cases h

theorem uses_clause : Uses rest (m.clause token rest) := by
  unfold clause
  split
  · exact uses_closeParen
  · split
    · exact uses_reject token
    · split
      · exact uses_reject _
      · next tag next usesNext hclause =>
        cases usesNext with
        | false =>
          apply Uses.bind
          intro m₁
          exact uses_one m₁
        | true =>
          obtain ⟨hby, htoken⟩ := clauseOf?_uses hclause rfl
          apply @uses_two token
          · rw [hby]
            exact Ne.symm htoken
          · rw [hby]
            rfl
          · simp [hby]

theorem uses_opens {tag : Tag} {expects : Expect} {span : Span} :
    Uses rest (m.openOver tag expects span >>= one) :=
  Uses.bind fun m₁ => uses_one m₁

theorem uses_relation : Uses rest (m.relation token) := by
  unfold relation
  split
  · exact Uses.bind fun m₁ => uses_one _
  · exact uses_one _
  · exact uses_reject token

theorem uses_afterRelation : Uses rest (m.afterRelation token rest) := by
  unfold afterRelation
  split
  · next hin =>
    unfold scope
    split
    · next name hname =>
      apply @uses_two token
      · simp [hname, hin]
      · simp [hname, TokenKind.isLast]
      · simp [hname]
    · exact uses_reject _
  · exact uses_opens
  · exact uses_opens
  · exact uses_opens
  · exact uses_opens
  · exact uses_clause

theorem uses_openOperand : Uses rest (m.openOperand token) := by
  unfold openOperand
  split
  · exact uses_one _
  · split
    · exact uses_one _
    · exact uses_reject token

theorem uses_operand : Uses rest (m.operand token rest) := by
  unfold operand
  split
  · exact uses_one _
  · exact uses_one _
  · exact uses_one _
  · exact uses_one _
  · exact uses_one _
  · exact uses_one _
  · next hminus =>
    split
    · next literal hliteral =>
      -- the token after the minus is a number
      unfold signedLiteral? at hliteral
      split at hliteral
      · cases hnext : (following token rest).kind with
        | integer digits | real digits =>
          apply @uses_two token
          · simp [hnext, hminus]
          · simp [hnext, TokenKind.isLast]
          · simp [hnext]
        | _ => simp [hnext] at hliteral
      · cases hliteral
    · exact uses_openOperand
  · exact uses_openOperand

theorem uses_negated (hnot : token.kind = .keyword .not) :
    Uses rest (m.negated token rest) := by
  unfold negated
  dsimp only
  split
  · exact uses_reject _
  · next operator hnegatable =>
    split
    · exact uses_reject _
    · intro m' h
      cases rest with
      | nil =>
        rw [following, hnot] at hnegatable
        cases hnegatable
      | cons next more =>
        rw [following] at hnegatable h
        refine ⟨next, more, rfl, ?_, fun hbetween => ?_⟩
        · cases hkind : next.kind with
          | invalid reason => rw [hkind] at hnegatable; cases hnegatable
          | finish => rw [hkind] at hnegatable; cases hnegatable
          | _ => rfl
        · rw [hbetween] at hnegatable
          cases hnegatable
          obtain ⟨m₁, -, hopen⟩ := bind_eq_ok h
          obtain ⟨⟨t, m₂⟩, htake, htwo⟩ := bind_eq_ok hopen
          cases htwo
          exact ⟨_, _, _, _, rfl⟩

theorem uses_afterOperand : Uses rest (m.afterOperand token rest) := by
  have hinfix : Uses rest (m.infixOrClause token rest) := by
    unfold infixOrClause
    split
    · exact uses_opens
    · exact uses_clause
  unfold afterOperand
  split
  · split
    · exact Uses.bind fun m₁ => uses_one _
    · exact hinfix
  · next hnot => exact uses_negated hnot
  · exact uses_opens
  · exact uses_opens
  · split
    · exact uses_opens
    · exact uses_reject token
  · split
    · exact uses_reject token
    · exact uses_opens
  · next hdot =>
    unfold method
    split
    · next name hname =>
      apply @uses_two token
      · simp [hname, hdot]
      · simp [hname, TokenKind.isLast]
      · simp [hname]
    · exact uses_reject _
  · unfold comma
    split
    · exact Uses.bind fun m₁ => uses_one _
    · exact uses_reject token
  · unfold interval
    split
    · split
      · exact Uses.bind fun m₁ => uses_one m₁
      · exact uses_reject token
    · exact uses_reject token
  · exact hinfix

theorem uses_afterOrderItem : Uses rest (m.afterOrderItem token rest) := by
  unfold afterOrderItem
  split
  · exact Uses.bind fun m₁ => uses_one _
  · exact Uses.bind fun m₁ => uses_one _
  · exact uses_one _
  · exact uses_clause

theorem uses_separatorOrClause {allowed : Bool} {expects : Expect} :
    Uses rest (m.separatorOrClause allowed expects token rest) := by
  unfold separatorOrClause
  split
  · exact uses_one _
  · exact uses_clause

theorem uses_clauseValue {expects : Expect} : Uses rest (m.clauseValue expects token) := by
  unfold clauseValue
  split
  · exact uses_one _
  · exact uses_reject token

theorem uses_clauseName {tag : Tag} {expects : Expect} :
    Uses rest (m.clauseName tag expects token) := by
  unfold clauseName
  split
  · exact uses_one _
  · exact uses_reject token

/-- **No step uses up the last token of a source together with its own**, nor a `between` that it does not
open. -/
theorem uses_step : Uses rest (m.step token rest) := by
  unfold step
  cases m.expects with
  | relation => exact uses_relation
  | afterRelation => exact uses_afterRelation
  | operand => exact uses_operand
  | afterOperand => exact uses_afterOperand
  | limitValue | offsetValue => exact uses_clauseValue
  | pageName | orderItem | groupItem => exact uses_clauseName
  | afterOrderItem => exact uses_afterOrderItem
  | afterLimit | orderSeparator | afterGroupItem => exact uses_separatorOrClause
  | clauseEnd => exact uses_clause

end Machine

end Uses

/-! ## Runs -/

/-- **A run in other places ends with the same tree, or with the same fault in its other place.** -/
theorem runTokens_relocate {words : List Token} {last : Token} (hlast : last.kind.isLast = true)
    {m : Machine} (h : Relaid (words ++ [last]) ((words ++ [last]).map (Token.relocate f))) :
    runTokens (m.relocate f) ((words ++ [last]).map (Token.relocate f)) =
      carry f id (runTokens m (words ++ [last])) := by
  -- a step may use up two tokens, so the induction is on their number
  induction hlength : words.length using Nat.strongRecOn generalizing m words with
  | ind length ih =>
    subst hlength
    cases words with
    | nil =>
      obtain ⟨kind, span⟩ := last
      cases kind with
      | invalid reason => rfl
      | finish => exact Machine.finish_relocate _
      | _ => cases hlast
    | cons word words =>
      cases hword : word.kind.isLast with
      | true =>
        obtain ⟨kind, span⟩ := word
        cases kind with
        | invalid reason => rfl
        | finish => exact Machine.finish_relocate _
        | _ => cases hword
      | false =>
        rw [List.cons_append] at h ⊢
        have hrest : Relaid (words ++ [last]) ((words ++ [last]).map (Token.relocate f)) := by
          cases h with
          | cons _ _ hrest => exact hrest
        have hword' : (word.relocate f).kind.isLast = false := hword
        rw [List.map_cons, runTokens_cons hword, runTokens_cons hword', Machine.step_relocate h]
        have hspares := @Machine.uses_step m word (words ++ [last])
        cases hstep : m.step word (words ++ [last]) with
        | error fault => rfl
        | ok r =>
          obtain ⟨m₁, used⟩ := r
          cases used with
          | false => exact ih words.length (by simp) hrest rfl
          | true =>
            obtain ⟨next, more, hmore, hnext, -⟩ := hspares m₁ hstep
            cases words with
            | nil =>
              cases hmore
              rw [hlast] at hnext
              cases hnext
            | cons second words =>
              have htail : Relaid (words ++ [last]) ((words ++ [last]).map (Token.relocate f)) := by
                cases hrest with
                | cons _ _ htail => exact htail
              exact ih words.length (Nat.lt_succ_of_lt (Nat.lt_succ_self _)) htail rfl

/-- **The place of a fault is the place of a token.** Otherwise it could be moved by itself, with all
tokens where they are. -/
theorem exists_token_of_fault {words : List Token} {last : Token} (hlast : last.kind.isLast = true)
    {fault : Fault} (h : parseTokens (words ++ [last]) = .error fault) :
    fault.span ∈ (words ++ [last]).map Token.span := by
  by_contra hmem
  let f : Span → Span := fun span => if span = fault.span then ⟨span.start + 1, span.stop⟩ else span
  have hstay : (words ++ [last]).map (Token.relocate f) = words ++ [last] := by
    refine (List.map_congr_left ?_).trans (List.map_id _)
    intro token htoken
    have hne : token.span ≠ fault.span := by
      intro heq
      exact hmem (heq ▸ List.mem_map_of_mem htoken)
    show Token.mk token.kind (if token.span = fault.span then _ else token.span) = token
    rw [if_neg hne]
  have hrelaid : Relaid (words ++ [last]) ((words ++ [last]).map (Token.relocate f)) := by
    rw [hstay]
    exact .refl _
  have hrun := runTokens_relocate hlast (m := .start) hrelaid
  have hstart : Machine.relocate f .start = .start := rfl
  rw [hstay, hstart] at hrun
  have herror : runTokens .start (words ++ [last]) = .error fault := h
  rw [herror] at hrun
  have hspan : fault.span = f fault.span := congrArg Fault.span (Except.error.inj hrun)
  have hmoved : f fault.span = ⟨fault.span.start + 1, fault.span.stop⟩ := if_pos rfl
  rw [hmoved] at hspan
  have hstart' := congrArg Span.start hspan
  simp only at hstart'
  omega

/-! ## Two sources with the same tokens -/

/-- The move that takes the places of one list of tokens to those of another. -/
def relocation : List Token → List Token → Span → Span
  | token :: tokens, token' :: tokens', span =>
    if span = token.span then token'.span else relocation tokens tokens' span
  | _, _, span => span

theorem map_relocation {tokens tokens' : List Token} (h : Relaid tokens tokens')
    (hnodup : (tokens.map Token.span).Nodup) :
    tokens.map (Token.relocate (relocation tokens tokens')) = tokens' := by
  induction h with
  | nil => rfl
  | @cons token token' tokens tokens' kind _ _ ih =>
    rw [List.map_cons, List.nodup_cons] at hnodup
    rw [List.map_cons, List.cons.injEq]
    constructor
    · obtain ⟨kind', span'⟩ := token'
      cases kind
      show Token.mk token.kind (if token.span = token.span then span' else _) = _
      rw [if_pos rfl]
    · -- the later tokens are not in the place of the first
      rw [← ih hnodup.2]
      apply List.map_congr_left
      intro later hlater
      have hne : later.span ≠ token.span := by
        intro heq
        exact hnodup.1 (heq ▸ List.mem_map_of_mem hlater)
      show Token.mk later.kind (if later.span = token.span then _ else _) = _
      rw [if_neg hne, ih hnodup.2]
      rfl

/-- Two faults of the same cause, at the same token of their sources. -/
def SameToken (source source' : String) (fault fault' : SyntaxError) : Prop :=
  fault'.cause = fault.cause ∧ ∃ (index : Nat) (token token' : Token),
    (Source.lex source)[index]? = some token ∧ (Source.lex source')[index]? = some token' ∧
      fault.span = token.span ∧ fault'.span = token'.span

/-- **Sources with the same tokens in other places have the same tree**, or the same fault at the same
token. -/
theorem parse_of_relaid {source source' : String}
    (h : Relaid (Source.lex source) (Source.lex source')) :
    SameOutcome (SameToken source source') Eq (parse source) (parse source') := by
  obtain ⟨words, last, hlex, hlast, hnodup⟩ := Source.exists_lex source
  have hmap := map_relocation h hnodup
  generalize relocation (Source.lex source) (Source.lex source') = f at hmap
  rw [hlex] at hmap
  have hrun := runTokens_relocate (f := f) hlast (m := .start)
    (by rw [hmap, ← hlex]; exact h)
  have hstart : Machine.relocate f .start = .start := rfl
  rw [hmap, hstart] at hrun
  unfold parse parseTokens
  rw [hrun, hlex]
  cases hresult : runTokens .start (words ++ [last]) with
  | ok tree => exact .ok rfl
  | error fault =>
    obtain ⟨token, htoken, hspan⟩ := List.mem_map.1 (exists_token_of_fault hlast hresult)
    obtain ⟨index, hindex⟩ := List.mem_iff_getElem?.1 htoken
    refine .error ⟨rfl, index, token, token.relocate f, by rw [hlex, hindex], ?_, hspan.symm, ?_⟩
    · rw [← hmap, List.getElem?_map, hindex]
      rfl
    · show f fault.span = f token.span
      rw [hspan]

/-- **Layout and capitals do not matter.** Two sources whose tokens are the same, with every minus
touching what follows it in both or in neither, have the same tree, or the same fault at the same
token. Sources that differ in their blanks outside quoted texts and in the capitals of their reserved
words are such sources. -/
theorem parse_layout :
    (∀ source source', Relaid (Source.lex source) (Source.lex source') →
      SameOutcome (SameToken source source') Eq (parse source) (parse source')) ∧
    ∀ source source', Relation.ReflTransGen Source.Restyled source.toList source'.toList →
      SameOutcome (SameToken source source') Eq (parse source) (parse source') := by
  constructor
  · intro source source' h
    exact parse_of_relaid h
  · intro source source' h
    exact parse_of_relaid (Source.relaid_of_restyled h)

/-- A line break in a gap and a reserved word in capitals. -/
theorem parse_layout_shouted :
    Relation.ReflTransGen Source.Restyled "a where -1 = b".toList "a\n WHERE -1 = b".toList ∧
      Relaid (Source.lex "a where -1 = b") (Source.lex "a\n WHERE -1 = b") ∧
      SameOutcome (SameToken "a where -1 = b" "a\n WHERE -1 = b") Eq
        (parse "a where -1 = b") (parse "a\n WHERE -1 = b") := by
  have hbroken : Source.Restyled "a where -1 = b".toList "a\n where -1 = b".toList :=
    @Source.Restyled.blanks ['a'] [' '] ['\n', ' '] "where -1 = b".toList
      (by decide) (by decide) (by decide) (by decide) (by decide)
  have htoken : (⟨.keyword .where_, ⟨3, 8⟩⟩ : Token) ∈
      Source.tokensFrom 0 ("a\n ".toList ++ ("where".toList ++ " -1 = b".toList)) := by
    have htokens : Source.tokensFrom 0 ("a\n ".toList ++ ("where".toList ++ " -1 = b".toList)) =
        [⟨.name "a", ⟨0, 1⟩⟩, ⟨.keyword .where_, ⟨3, 8⟩⟩, ⟨.symbol .minus, ⟨9, 10⟩⟩,
          ⟨.integer "1", ⟨10, 11⟩⟩, ⟨.symbol .equal, ⟨12, 13⟩⟩, ⟨.name "b", ⟨14, 15⟩⟩,
          ⟨.finish, ⟨15, 15⟩⟩] := by
      decide +kernel
    rw [htokens]
    simp
  have hshouted : Source.Restyled "a\n where -1 = b".toList "a\n WHERE -1 = b".toList :=
    @Source.Restyled.capitals "a\n ".toList "where".toList "WHERE".toList " -1 = b".toList _ _ htoken rfl (by decide) (by decide)
  have hstyle := (Relation.ReflTransGen.single hbroken).tail hshouted
  exact ⟨hstyle, Source.relaid_of_restyled hstyle, parse_layout.2 _ _ hstyle⟩

end Grammar

end RelationSql
