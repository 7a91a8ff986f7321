import RelationSql.Proofs.Grammar.Conjoined
import RelationSql.Proofs.Grammar.Member

/-!
# Steps above any base

An expression is read on top of what is already open, its base. Each step over one of its tokens does
something to the nodes that the expression itself has opened (`Goes`), and as long as it closes no
deeper, it does that whatever the base is (`Goes.step`). Where the nodes of the expression cannot all be
closed, because one of them is an open parenthesis for instance (`Held`), these are the only steps there
are (`goes_of_step`).
-/

namespace RelationSql.Grammar

open RelationSql.Source (Span Token TokenKind)

variable {token next : Token} {rest more : List Token} {above left base below : List Frame}
  {root : List Tree} {t u : Tree} {o : Operator} {p : Tag → Bool} {m : Machine} {used : Bool}

/-! ## Bases -/

namespace Above

/-- The machine with the nodes of an expression open over a base. -/
def upon (base : List Frame) (root : List Tree) : Above → Machine
  | operand above => ⟨.operand, above ++ base, root⟩
  | after t above => ⟨.afterOperand, received t (above ++ base), root⟩

end Above

/-- Closing stops above the base, or right at it. -/
def Stops (p : Tag → Bool) (left base : List Frame) : Prop :=
  left ≠ [] ∨ ∃ f below, base = f :: below ∧ p f.tag = false

theorem Stops.append_ne_nil (h : Stops p left base) : left ++ base ≠ [] := by
  rcases h with h | ⟨f, below, rfl, -⟩
  · simp [h]
  · simp

theorem append_ne_nil_of_closeAbove (h : closeAbove p t above = some (left, u))
    (hne : left ++ base ≠ []) : above ++ base ≠ [] := by
  obtain ⟨closed, rfl, -, -⟩ := closeAbove_eq_some h
  intro hnil
  rw [List.append_assoc] at hnil
  exact hne (List.append_eq_nil_iff.1 hnil).2

/-- **Closing that does not go below the base is the same over every base.** -/
theorem closeWhile?_base (h : closeAbove p t above = some (left, u)) (hstop : Stops p left base) :
    ((Above.after t above).upon base root).closeWhile? p = some ((Above.after u left).upon base root) := by
  have hne := append_ne_nil_of_closeAbove h hstop.append_ne_nil
  -- the node that stops closing is left open, above the base or as its innermost one
  have hclose : Machine.closeFrames p [u] (left ++ base) root =
      some (received u (left ++ base), root) := by
    obtain ⟨-, -, -, hleft⟩ := closeAbove_eq_some h
    cases left with
    | cons f left => exact closeFrames_of_stop (hleft f left rfl) _ _
    | nil =>
      obtain ⟨f, below, rfl, hp⟩ := hstop.resolve_left (fun hne => hne rfl)
      exact closeFrames_of_stop hp _ _
  rw [Above.upon, Machine.closeWhile?]
  dsimp only
  rw [closeFrames_received hne, closeFrames_append, h]
  simp only [Option.bind_some, hclose, Option.map_some, Above.upon]

/-- A node that lacks a child cannot be closed, whatever the base is. -/
theorem closeWhile?_base_none (h : closeAbove p t above = none) (hne : above ++ base ≠ []) :
    ((Above.after t above).upon base root).closeWhile? p = none := by
  rw [Above.upon, Machine.closeWhile?]
  dsimp only
  rw [closeFrames_received hne, closeFrames_append, h]
  rfl

/-- The newest tree over a base. -/
theorem takeLast?_base (hne : above ++ base ≠ []) :
    ((Above.after t above).upon base root).takeLast? = some (t, ⟨.afterOperand, above ++ base, root⟩) := by
  cases h : above ++ base with
  | nil => exact absurd h hne
  | cons f frames => simp [Above.upon, Machine.takeLast?, h, received]

/-- A finished tree goes to the innermost node over a base. -/
theorem append_base (hne : above ++ base ≠ []) (expects : Expect) :
    (⟨expects, above ++ base, root⟩ : Machine).append t = ⟨expects, received t (above ++ base), root⟩ := by
  cases h : above ++ base with
  | nil => exact absurd h hne
  | cons f frames => rfl

theorem closeTier_base {least : Int} {span : Span}
    (h : closeAbove (fun tag => decide (least ≤ tier tag)) t above = some (left, u))
    (hstop : Stops (fun tag => decide (least ≤ tier tag)) left base) :
    ((Above.after t above).upon base root).closeTier least span =
      .ok ((Above.after u left).upon base root) := by
  rw [Machine.closeTier, closeWhile?_base h hstop]
  rfl

/-- A node opened over the newest tree, above a base. -/
theorem openOver_base {tag : Tag} {expects : Expect} {span : Span}
    (h : closeAbove (fun g => decide (tier tag ≤ tier g)) t above = some (left, u))
    (hstop : Stops (fun g => decide (tier tag ≤ tier g)) left base) :
    ((Above.after t above).upon base root).openOver tag expects span =
      .ok ⟨expects, ⟨tag, span, [u]⟩ :: (left ++ base), root⟩ := by
  rw [Machine.openOver, closeTier_base h hstop]
  simp only [bind, Except.bind, takeLast?_base hstop.append_ne_nil, orNear]
  rfl

/-- A finished node around the newest tree, above a base. -/
theorem wrapLast_base {tag : Tag} {trees : List Tree} {span : Span}
    (h : closeAbove (fun g => decide (tier tag ≤ tier g)) t above = some (left, u))
    (hstop : Stops (fun g => decide (tier tag ≤ tier g)) left base) :
    ((Above.after t above).upon base root).wrapLast tag trees span =
      .ok ((Above.after (.node tag (u :: trees)) left).upon base root) := by
  rw [Machine.wrapLast, closeTier_base h hstop]
  simp only [bind, Except.bind, takeLast?_base hstop.append_ne_nil, orNear]
  exact congrArg Except.ok (append_base hstop.append_ne_nil .afterOperand)

/-! ## The end -/

/-- Receiving a tree keeps the tags of the open nodes. -/
theorem forall_mem_received {P : Tag → Prop} (h : ∀ f ∈ above, P f.tag) (t : Tree) :
    ∀ f ∈ received t above, P f.tag := by
  cases above with
  | nil => simp [received]
  | cons g above =>
    rw [received, List.forall_mem_cons]
    exact List.forall_mem_cons.1 h

/-- At the end of the source, a filter holds what is closed over it. -/
theorem runTokens_finish_filter {name : String} {last : Token} (hfree : ∀ f ∈ above, ¬ f.tag.isParen = true)
    (h : closeAbove (fun _ => true) t above = some ([], u)) (hlast : last.kind = .finish) (s : Span) :
    runTokens ((Above.after t above).upon [⟨.filter, s, [.leaf .relation name]⟩] []) [last] =
      .ok (filtered name u) := by
  let bottom : Frame := ⟨.filter, s, [.leaf .relation name]⟩
  let m : Machine := (Above.after t above).upon [bottom] []
  have hparen : m.paren? = none := by
    have htags : ∀ f ∈ above ++ [bottom], ¬ f.tag.isParen = true := by
      rw [List.forall_mem_append, List.forall_mem_singleton]
      exact ⟨hfree, by simp [bottom, Tag.isParen]⟩
    exact List.find?_eq_none.2 (@forall_mem_received _ (fun tag => ¬ tag.isParen = true) htags t)
  have hclose : m.closeWhile? (fun _ => true) = some ⟨.afterOperand, [], [.node .filter [.leaf .relation name, u]]⟩ := by
    have hframes : Machine.closeFrames (fun _ => true) [] (received t (above ++ [bottom])) [] =
        some ([], [.node .filter [.leaf .relation name, u]]) := by
      rw [closeFrames_received (by simp), closeFrames_append, h]
      rfl
    rw [Machine.closeWhile?]
    exact congrArg _ hframes
  have hexpects : m.expects.acceptsEnd = true := rfl
  rw [runTokens_finish _ hlast]
  show m.finish last = _
  rw [Machine.finish, hexpects, Bool.true_or, if_pos rfl, hparen, hclose]
  rfl

/-! ## Nodes in two parts -/

/-- Nodes above a base may be counted to the base. -/
theorem upon_append (t : Tree) (above below base : List Frame) (root : List Tree) :
    (Above.after t (above ++ below)).upon base root = (Above.after t above).upon (below ++ base) root := by
  rw [Above.upon, Above.upon, List.append_assoc]

/-- Closing goes on below the nodes that were all closed. -/
theorem closeAbove_append (h : closeAbove p t above = some ([], u)) (below : List Frame) :
    closeAbove p t (above ++ below) = closeAbove p u below := by
  induction above generalizing t with
  | nil =>
    cases h
    rfl
  | cons f above ih =>
    rw [closeAbove] at h
    rw [List.cons_append, closeAbove]
    split at h
    · next hp =>
      rw [if_pos hp]
      split at h
      · next hcomplete =>
        rw [if_pos hcomplete]
        exact ih h
      · cases h
    · cases h

/-- An `and` is looked for under operators that bind tighter than `between`. -/
theorem waitsForAnd_above (h : ∀ f ∈ above, 29 < tier f.tag) (below : List Frame) :
    Machine.waitsForAnd true (above ++ below) = Machine.waitsForAnd true below := by
  induction above with
  | nil => rfl
  | cons f above ih =>
    obtain ⟨hf, habove⟩ := List.forall_mem_cons.1 h
    rw [List.cons_append, Machine.waitsForAnd_of_lt_tier hf]
    exact ih habove

/-! ## Steps -/

/-- The operand that a token is by itself, interpolated texts included. -/
def leafOf? : TokenKind → Option Tree
  | .template content => some (.leaf .dstring content)
  | kind => operandOf? kind

/-- Is the tree a number? -/
def isNumber (t : Tree) : Bool :=
  t.tag? == some .integer || t.tag? == some .real

/-- What a step over a token of an expression does to the nodes that the expression has opened, and
whether it uses up the token after it. -/
inductive Goes (token : Token) (rest : List Token) : Above → Above → Bool → Prop
  | leaf {above : List Frame} {t : Tree} (h : leafOf? token.kind = some t) :
      Goes token rest (.operand above) (.after t above) false
  | signed {above : List Frame} {t : Tree} (hminus : token.kind = .symbol .minus)
      (h : signedLiteral? token (following token rest) = some t) :
      Goes token rest (.operand above) (.after t above) true
  | opening {above : List Frame} (h : token.kind = .symbol .leftParen) :
      Goes token rest (.operand above) (.operand (⟨.par, token.span, []⟩ :: above)) false
  | before {above : List Frame} {o : Operator} (h : prefixOperator? token.kind = some o)
      (hunsigned : token.kind = .symbol .minus → signedLiteral? token (following token rest) = none) :
      Goes token rest (.operand above) (.operand (⟨.op o, token.span, []⟩ :: above)) false
  | between {above left : List Frame} {t u : Tree} {o : Operator} (h : operatorOf? token.kind = some o)
      (hlist : o = .in_ → opensList rest)
      (hand : token.kind = .keyword .and → Machine.waitsForAnd true above = false)
      (hclose : closeAbove (closedBy o) t above = some (left, u)) :
      Goes token rest (.after t above) (.operand (⟨.op o, token.span, [u]⟩ :: left)) false
  | negated {above left : List Frame} {t u : Tree} {o : Operator} (hnot : token.kind = .keyword .not)
      {next : Token} {more : List Token} (hrest : rest = next :: more)
      (h : Machine.negatable? next.kind = some o) (hlist : o = .in_ → opensList more)
      (hclose : closeAbove (closedBy o) t above = some (left, u)) :
      Goes token rest (.after t above)
        (.operand (⟨.op o, next.span, [u]⟩ :: ⟨.op .not, token.span, []⟩ :: left)) true
  | upTo {above left : List Frame} {t u : Tree} (h : token.kind = .keyword .and)
      (hwaits : Machine.waitsForAnd true above = true)
      (hclose : closeAbove (fun tag => tag != .op .between) t above = some (left, u)) :
      Goes token rest (.after t above) (.operand (received u left)) false
  | method {above left : List Frame} {t u : Tree} {name : String} (hdot : token.kind = .symbol .dot)
      (h : (following token rest).kind = .name name)
      (hclose : closeAbove (fun tag => decide (tier .function ≤ tier tag)) t above = some (left, u)) :
      Goes token rest (.after t above) (.after (.node .function [u, .leaf .method name]) left) true
  | interval {above left : List Frame} {t u : Tree} {word unit : String} (h : token.kind = .name word)
      (hunit : intervalUnit? word = some unit) (hnumber : isNumber t = true)
      (hclose : closeAbove (fun tag => decide (tier .interval ≤ tier tag)) t above = some (left, u)) :
      Goes token rest (.after t above) (.after (.node .interval [u, .atom unit]) left) false
  | comma {above left : List Frame} {t u : Tree} (h : token.kind = .symbol .comma)
      (hinside : (above.find? fun f => f.tag.isParen).any (fun f => f.tag == .par) = true)
      (hclose : closeAbove (fun tag => tag != .par) t above = some (left, u)) :
      Goes token rest (.after t above) (.operand (received u left)) false
  | closing {above left : List Frame} {t u : Tree} {f : Frame} (h : token.kind = .symbol .rightParen)
      (hpar : f.tag = .par)
      (hclose : closeAbove (fun tag => decide (parenTier ≤ tier tag)) t above = some (f :: left, u)) :
      Goes token rest (.after t above) (.after (.node .par (u :: f.done).reverse) left) false

/-! ### Operands -/

/-- An operand becomes the newest tree. -/
theorem step_leaf (h : leafOf? token.kind = some t) (hne : above ++ base ≠ []) (rest : List Token) :
    ((Above.operand above).upon base root).step token rest =
      .ok ((Above.after t above).upon base root, false) := by
  have hadd : one (((Above.operand above).upon base root).addOperand t) =
      .ok ((Above.after t above).upon base root, false) := by
    rw [Machine.addOperand, Above.upon, append_base hne]
    rfl
  rw [← hadd]
  obtain ⟨kind, span⟩ := token
  cases kind with
  | keyword keyword =>
    cases keyword <;> cases h
    rfl
  | integer _ | real _ | text _ | template _ | name _ => cases h; rfl
  | _ => cases h

/-- A number with its sign becomes the newest tree. -/
theorem step_signed (hminus : token.kind = .symbol .minus)
    (h : signedLiteral? token (following token rest) = some t) (hne : above ++ base ≠ []) :
    ((Above.operand above).upon base root).step token rest =
      .ok ((Above.after t above).upon base root, true) := by
  have hadd : two (((Above.operand above).upon base root).addOperand t) =
      .ok ((Above.after t above).upon base root, true) := by
    rw [Machine.addOperand, Above.upon, append_base hne]
    rfl
  rw [← hadd]
  show Machine.operand _ token rest = _
  rw [Machine.operand, hminus]
  simp only [h]

theorem step_opening (h : token.kind = .symbol .leftParen) (rest : List Token) :
    ((Above.operand above).upon base root).step token rest =
      .ok ((Above.operand (⟨.par, token.span, []⟩ :: above)).upon base root, false) := by
  show Machine.operand _ token rest = _
  rw [Machine.operand, h, Machine.openOperand, h]
  rfl

/-- An operator in front of its operand. -/
theorem step_before (h : prefixOperator? token.kind = some o)
    (hunsigned : token.kind = .symbol .minus → signedLiteral? token (following token rest) = none) :
    ((Above.operand above).upon base root).step token rest =
      .ok ((Above.operand (⟨.op o, token.span, []⟩ :: above)).upon base root, false) := by
  obtain ⟨kind, span⟩ := token
  cases kind with
  | keyword keyword =>
    cases keyword <;> cases h
    rfl
  | symbol symbol =>
    cases symbol with
    | minus =>
      -- a minus that touches a number would be read with it
      cases h
      have hoperand : ((Above.operand above).upon base root).step ⟨.symbol .minus, span⟩ rest =
          ((Above.operand above).upon base root).operand ⟨.symbol .minus, span⟩ rest := rfl
      rw [hoperand, Machine.operand]
      simp only [hunsigned rfl]
      rfl
    | bang | tilde => cases h; rfl
    | _ => cases h
  | _ => cases h

theorem isLast_of_prefixOperator? (h : prefixOperator? token.kind = some o) : token.kind.isLast = false := by
  cases hkind : token.kind with
  | invalid reason => rw [hkind] at h; cases h
  | finish => rw [hkind] at h; cases h
  | _ => rfl

/-! ### Operators -/

/-- Whether an `and` is waited for does not depend on the base if it is known above it. -/
theorem pendingBetween_base (hne : above ++ base ≠ []) :
    ((Above.after t above).upon base root).pendingBetween = Machine.waitsForAnd true (above ++ base) := by
  cases h : above ++ base with
  | nil => exact absurd h hne
  | cons f frames =>
    rw [Machine.pendingBetween, Above.upon, h]
    exact Machine.waitsForAnd_received f t frames

/-- An operator between operands. -/
theorem step_between (h : operatorOf? token.kind = some o) (hlist : o = .in_ → opensList rest)
    (hand : token.kind = .keyword .and → Machine.waitsForAnd true (above ++ base) = false)
    (hclose : closeAbove (closedBy o) t above = some (left, u)) (hstop : Stops (closedBy o) left base) :
    ((Above.after t above).upon base root).step token rest =
      .ok ((Above.operand (⟨.op o, token.span, [u]⟩ :: left)).upon base root, false) := by
  have hne := append_ne_nil_of_closeAbove hclose hstop.append_ne_nil
  have hopen : ((Above.after t above).upon base root).openOver (.op o) .operand token.span =
      .ok ⟨.operand, ⟨.op o, token.span, [u]⟩ :: (left ++ base), root⟩ := openOver_base hclose hstop
  rw [step_operator rfl h hlist fun hk => (pendingBetween_base hne).trans (hand hk), hopen]
  rfl

/-- A `not` and the operator that it negates. -/
theorem step_negated (hnot : token.kind = .keyword .not) (h : Machine.negatable? next.kind = some o)
    (hlist : o = .in_ → opensList more) (hclose : closeAbove (closedBy o) t above = some (left, u))
    (hstop : Stops (closedBy o) left base) :
    ((Above.after t above).upon base root).step token (next :: more) =
      .ok ((Above.operand (⟨.op o, next.span, [u]⟩ :: ⟨.op .not, token.span, []⟩ :: left)).upon base root,
        true) := by
  obtain ⟨ho, hneg⟩ := operatorOf?_of_negatable? h
  have hnegated : ((Above.after t above).upon base root).step token (next :: more) =
      ((Above.after t above).upon base root).negated token (next :: more) := by
    show Machine.afterOperand _ _ _ = _
    rw [Machine.afterOperand, hnot]
  rw [hnegated, negated_eq ho hneg hlist, Machine.openNegated, closeTier_base hclose hstop]
  simp only [bind, Except.bind, takeLast?_base hstop.append_ne_nil, orNear]
  rfl

/-- The `and` of a `between`. -/
theorem step_upTo (h : token.kind = .keyword .and)
    (hwaits : Machine.waitsForAnd true (above ++ base) = true)
    (hclose : closeAbove (fun tag => tag != .op .between) t above = some (left, u))
    (hstop : Stops (fun tag => tag != .op .between) left base) (rest : List Token) :
    ((Above.after t above).upon base root).step token rest =
      .ok (⟨.operand, received u (left ++ base), root⟩, false) := by
  have hne := append_ne_nil_of_closeAbove hclose hstop.append_ne_nil
  show Machine.afterOperand _ _ _ = _
  rw [Machine.afterOperand, h]
  simp only [pendingBetween_base hne, hwaits, if_true, Machine.betweenAnd,
    closeWhile?_base hclose hstop]
  rfl

/-! ### Suffixes -/

/-- A point and its method. -/
theorem step_method {name : String} (hdot : token.kind = .symbol .dot)
    (h : (following token rest).kind = .name name)
    (hclose : closeAbove (fun tag => decide (tier .function ≤ tier tag)) t above = some (left, u))
    (hstop : Stops (fun tag => decide (tier .function ≤ tier tag)) left base) :
    ((Above.after t above).upon base root).step token rest =
      .ok ((Above.after (.node .function [u, .leaf .method name]) left).upon base root, true) := by
  have hmethod : ((Above.after t above).upon base root).step token rest =
      ((Above.after t above).upon base root).method token (following token rest) := by
    show Machine.afterOperand _ _ _ = _
    rw [Machine.afterOperand, hdot]
  rw [hmethod, Machine.method, h]
  simp only [wrapLast_base hclose hstop]
  rfl

/-- Whether the newest tree is a number. -/
theorem lastIsNumber_base (hne : above ++ base ≠ []) :
    ((Above.after t above).upon base root).lastIsNumber = isNumber t := by
  cases h : above ++ base with
  | nil => exact absurd h hne
  | cons f frames =>
    simp only [Above.upon, h, received, Machine.lastIsNumber, Machine.last?, List.head?_cons,
      Option.any_some, isNumber]

/-- A number and its unit. -/
theorem step_interval {word unit : String} (h : token.kind = .name word)
    (hunit : intervalUnit? word = some unit) (hnumber : isNumber t = true)
    (hclose : closeAbove (fun tag => decide (tier .interval ≤ tier tag)) t above = some (left, u))
    (hstop : Stops (fun tag => decide (tier .interval ≤ tier tag)) left base) (rest : List Token) :
    ((Above.after t above).upon base root).step token rest =
      .ok ((Above.after (.node .interval [u, .atom unit]) left).upon base root, false) := by
  have hne := append_ne_nil_of_closeAbove hclose hstop.append_ne_nil
  have hinterval : ((Above.after t above).upon base root).step token rest =
      ((Above.after t above).upon base root).interval word token := by
    show Machine.afterOperand _ _ _ = _
    rw [Machine.afterOperand, h]
  rw [hinterval, Machine.interval, hunit]
  simp only [lastIsNumber_base hne, hnumber, if_true, wrapLast_base hclose hstop]
  rfl

/-! ### Parentheses -/

/-- The innermost open parenthesis is known above the base. -/
theorem insideExpression_base {f : Frame} (hfind : above.find? (fun f => f.tag.isParen) = some f) :
    ((Above.after t above).upon base root).insideExpression = (f.tag == .par) := by
  cases above with
  | nil => cases hfind
  | cons g above =>
    rw [List.find?_cons] at hfind
    cases hg : g.tag.isParen with
    | true =>
      rw [hg] at hfind
      cases hfind
      simp [Above.upon, received, Machine.insideExpression, Machine.paren?, hg]
    | false =>
      rw [hg] at hfind
      have hbelow : (above ++ base).find? (fun f => f.tag.isParen) = some f := by
        rw [List.find?_append]
        dsimp only at hfind
        rw [hfind]
        rfl
      simp [Above.upon, received, Machine.insideExpression, Machine.paren?, hg, hbelow]

/-- A comma in a parenthesis. -/
theorem step_comma (h : token.kind = .symbol .comma)
    (hinside : ((Above.after t above).upon base root).insideExpression = true)
    (hclose : closeAbove (fun tag => tag != .par) t above = some (left, u))
    (hstop : Stops (fun tag => tag != .par) left base) (rest : List Token) :
    ((Above.after t above).upon base root).step token rest =
      .ok (⟨.operand, received u (left ++ base), root⟩, false) := by
  have hcomma : ((Above.after t above).upon base root).step token rest =
      ((Above.after t above).upon base root).comma token := by
    show Machine.afterOperand _ _ _ = _
    rw [Machine.afterOperand, h]
  rw [hcomma, Machine.comma, if_pos hinside, closeWhile?_base hclose hstop]
  rfl

/-- A closing parenthesis over one that was opened above the base. -/
theorem step_closing {f : Frame} (h : token.kind = .symbol .rightParen) (hpar : f.tag = .par)
    (hclose : closeAbove (fun tag => decide (parenTier ≤ tier tag)) t above = some (f :: left, u))
    (hne : left ++ base ≠ []) (rest : List Token) :
    ((Above.after t above).upon base root).step token rest =
      .ok ((Above.after (.node .par (u :: f.done).reverse) left).upon base root, false) := by
  have hclosing := step_rightParen (m := (Above.after t above).upon base root) rfl h rest
  rw [hclosing, Machine.closeParen, closeTier_base hclose (.inl (by simp))]
  obtain ⟨tag, opened, done⟩ := f
  cases hpar
  exact congrArg one (append_base hne .afterOperand)

end RelationSql.Grammar
