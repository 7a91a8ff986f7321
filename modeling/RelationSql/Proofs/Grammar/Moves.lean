import RelationSql.Proofs.Grammar.Above

/-!
# Words of one fragment

The machine moves over the words of one fragment of a conjunction. As long as no operator outside of
all parentheses binds looser than `and`, every step stays above the ground or adds to the conjunction
on it (`Move`).
-/

namespace RelationSql.Grammar

open RelationSql.Source (Span Token TokenKind)

/-! ## Words -/

/-- May the token stand in a rendered condition, in which every operand is a text? -/
def isWord : TokenKind → Bool
  | .text _ => true
  | .symbol .leftParen | .symbol .rightParen | .symbol .comma => true
  | .keyword .not => true
  | kind => (operatorOf? kind).isSome

/-- Does the operator bind looser than `and`? -/
def isLoose (o : Operator) : Bool := decide (operatorTier o < 27)

/-- Is the tag an operator looser than `and`? -/
def isLooseTag : Tag → Bool
  | .op o => isLoose o
  | _ => false

/-- Is an operator looser than `and` at the root of the tree? -/
def isLooseTree : Tree → Bool
  | .node tag _ => isLooseTag tag
  | .atom _ => false

/-- Does an operator outside of all parentheses bind looser than `and`, with so many of them open? -/
def looseAt : (depth : Nat) → List Token → Bool
  | _, [] => false
  | depth, token :: rest =>
    match token.kind with
    | .symbol .leftParen => looseAt (depth + 1) rest
    | .symbol .rightParen => looseAt (depth - 1) rest
    | kind => (depth == 0 && (operatorOf? kind).any isLoose) || looseAt depth rest

/-- What follows the words of a fragment: an `and`, or the end. -/
inductive Neutral : List Token → Prop where
  | end_ {token : Token} {rest : List Token} : token.kind = .finish → Neutral (token :: rest)
  | and_ {token : Token} {rest : List Token} : token.kind = .keyword .and → Neutral (token :: rest)

/-! ## Firm nodes -/

/-- The number of open parentheses. -/
def depth (above : List Frame) : Nat :=
  above.countP fun f => f.tag == .par

/-- Every node under no parenthesis is one, or it binds tighter than `and`. -/
def Firm : List Frame → Prop
  | [] => True
  | f :: above => (depth above = 0 → f.tag = .par ∨ 27 < tier f.tag) ∧ Firm above

theorem Firm.of_append {xs ys : List Frame} (h : Firm (xs ++ ys)) : Firm ys := by
  induction xs with
  | nil => exact h
  | cons f xs ih => exact ih h.2

theorem depth_cons_par {f : Frame} (h : f.tag = .par) (above : List Frame) :
    depth (f :: above) = depth above + 1 := by
  simp [depth, h]

theorem depth_cons_op {f : Frame} (h : f.tag ≠ .par) (above : List Frame) :
    depth (f :: above) = depth above := by
  simp [depth, h]

/-- Closing what is no parenthesis leaves all parentheses open. -/
theorem depth_append {closed : List Frame} (h : ∀ f ∈ closed, f.tag ≠ .par) (left : List Frame) :
    depth (closed ++ left) = depth left := by
  induction closed with
  | nil => rfl
  | cons f closed ih =>
    rw [List.forall_mem_cons] at h
    rw [List.cons_append, depth_cons_op h.1, ih h.2]

/-- A node that opens above firm nodes. -/
theorem Firm.cons_op {above : List Frame} (h : Firm above) {o : Operator} (ho : 27 < operatorTier o)
    (s : Span) (done : List Tree) : Firm (⟨.op o, s, done⟩ :: above) :=
  ⟨fun _ => Or.inr ho, h⟩

/-- A node that received a tree stays firm. -/
theorem Firm.received {above : List Frame} (h : Firm above) (t : Tree) : Firm (received t above) := by
  cases above with
  | nil => exact h
  | cons f above => exact h

theorem depth_received (t : Tree) (above : List Frame) : depth (received t above) = depth above := by
  cases above with
  | nil => rfl
  | cons f above => rfl

/-! ## Moves -/

/-- A step that stays above the ground: the same on every ground, and in front of all that may
follow. -/
structure Move (from_ : Above) (token : Token) (rest : List Token) (dest : Above) (used : Bool) :
    Prop where
  step : ∀ g more, g.IsLow → Neutral more →
    (from_.onto g).step token (rest ++ more) = .ok (dest.onto g, used)
  next : used = true → rest ≠ []
  firm : Firm from_.frames → Firm dest.frames
  inside : (∀ f ∈ from_.frames, f.tag ≠ .clausePar) → ∀ f ∈ dest.frames, f.tag ≠ .clausePar
  loose : Firm from_.frames → looseAt (depth from_.frames) (token :: rest) =
    looseAt (depth dest.frames) (if used then rest.tail else rest)

theorem looseAt_of_tight {kind : TokenKind} (hleft : kind ≠ .symbol .leftParen)
    (hright : kind ≠ .symbol .rightParen) (hkind : (operatorOf? kind).any isLoose = false)
    (depth : Nat) (span : Span) (rest : List Token) :
    looseAt depth (⟨kind, span⟩ :: rest) = looseAt depth rest := by
  rw [looseAt]
  split
  · next heq => exact absurd heq hleft
  · next heq => exact absurd heq hright
  · rw [hkind, Bool.and_false, Bool.false_or]

/-- Inside a parenthesis nothing is loose. -/
theorem looseAt_of_depth {kind : TokenKind} (hleft : kind ≠ .symbol .leftParen)
    (hright : kind ≠ .symbol .rightParen) {depth : Nat} (hdepth : depth ≠ 0) (span : Span)
    (rest : List Token) : looseAt depth (⟨kind, span⟩ :: rest) = looseAt depth rest := by
  rw [looseAt]
  split
  · next heq => exact absurd heq hleft
  · next heq => exact absurd heq hright
  · simp [hdepth]

/-! ### In front of an operand -/

variable {above : List Frame} {token : Token} {rest more : List Token} {g : Ground} {m : Machine}
  {used : Bool}

/-- No number stands among the words of a fragment, so a minus never belongs to one. -/
theorem signedLiteral?_eq_none (hrest : ∀ w ∈ rest, isWord w.kind = true) (hmore : Neutral more)
    (minus : Token) : signedLiteral? minus (following minus (rest ++ more)) = none := by
  have hnumber : ∀ next : Token, isWord next.kind = true ∨ next.kind = .finish →
      signedLiteral? minus next = none := by
    intro next hnext
    unfold signedLiteral?
    split
    · split
      · next heq => rw [heq] at hnext; simp [isWord, operatorOf?, infixOperator?] at hnext
      · next heq => rw [heq] at hnext; simp [isWord, operatorOf?, infixOperator?] at hnext
      · rfl
    · rfl
  apply hnumber
  cases rest with
  | cons next rest => exact Or.inl (hrest next List.mem_cons_self)
  | nil =>
    cases hmore with
    | end_ h => exact Or.inr h
    | and_ h =>
      left
      rw [List.nil_append, following, h]
      rfl

/-- A finished tree goes to the innermost open node. -/
theorem append_over (above : List Frame) (g : Ground) (t : Tree) :
    (⟨.afterOperand, above ++ g.frames, []⟩ : Machine).append t =
      (Above.after t above).onto g := by
  cases h : above ++ g.frames with
  | nil => exact absurd h (append_frames_ne_nil above g)
  | cons f frames => simp [Above.onto, Machine.append, h, received]

theorem addOperand_over (above : List Frame) (g : Ground) (t : Tree) :
    ((Above.operand above).onto g).addOperand t = (Above.after t above).onto g := by
  rw [← append_over]
  cases h : above ++ g.frames with
  | nil => exact absurd h (append_frames_ne_nil above g)
  | cons f frames => simp [Above.onto, Machine.addOperand, Machine.append, Machine.expecting, h]

/-- A step that opens a node in front of its operand. -/
theorem Move.prefixed {kind : TokenKind} {span : Span} {o : Operator} (ho : 27 < operatorTier o)
    (hstep : ∀ g more, Neutral more → ((Above.operand above).onto g).step ⟨kind, span⟩ (rest ++ more) =
      .ok ((Above.operand (⟨.op o, span, []⟩ :: above)).onto g, false))
    (hloose : looseAt (depth above) (⟨kind, span⟩ :: rest) = looseAt (depth above) rest) :
    Move (.operand above) ⟨kind, span⟩ rest (.operand (⟨.op o, span, []⟩ :: above)) false where
  step := fun g more _ hmore => hstep g more hmore
  next := fun hused => nomatch hused
  firm := fun hfirm => hfirm.cons_op ho span []
  inside := fun h => List.forall_mem_cons.2 ⟨by simp, h⟩
  loose := by
    intro _
    have hdepth : depth (⟨.op o, span, []⟩ :: above) = depth above := depth_cons_op (by simp) above
    simpa [Above.frames, hdepth] using hloose

/-- **A step in front of an operand stays above the ground.** -/
theorem move_of_operand (hword : isWord token.kind = true)
    (hrest : ∀ w ∈ rest, isWord w.kind = true)
    (hmore : Neutral more)
    (h : ((Above.operand above).onto g).step token (rest ++ more) = .ok (m, used)) :
    ∃ dest, m = dest.onto g ∧ Move (.operand above) token rest dest used := by
  obtain ⟨kind, span⟩ := token
  cases kind with
  | text content =>
    have hstep : ∀ g rest, ((Above.operand above).onto g).step ⟨.text content, span⟩ rest =
        .ok ((Above.after (.leaf .string content) above).onto g, false) := by
      intro g rest
      rw [← addOperand_over]
      rfl
    rw [hstep] at h
    cases h
    refine ⟨_, rfl, fun g more _ _ => hstep g _, nofun, fun hfirm => hfirm, fun h => h, ?_⟩
    exact fun _ => looseAt_of_tight (by simp) (by simp) rfl _ _ _
  | symbol symbol =>
    cases symbol with
    | leftParen =>
      cases h
      refine ⟨.operand (⟨.par, span, []⟩ :: above), rfl, fun g more _ _ => rfl, nofun, ?_, ?_, ?_⟩
      · exact fun hfirm => ⟨fun _ => Or.inl rfl, hfirm⟩
      · exact fun h => List.forall_mem_cons.2 ⟨by simp, h⟩
      · intro _
        have hdepth : depth (⟨.par, span, []⟩ :: above) = depth above + 1 := depth_cons_par rfl above
        simp [Above.frames, hdepth, looseAt]
    | minus =>
      have hstep : ∀ g more, Neutral more →
          ((Above.operand above).onto g).step ⟨.symbol .minus, span⟩ (rest ++ more) =
            .ok ((Above.operand (⟨.op .changeSign, span, []⟩ :: above)).onto g, false) := by
        intro g more hmore
        have hnone := signedLiteral?_eq_none hrest hmore ⟨.symbol .minus, span⟩
        simp only [Above.onto, Machine.step, Machine.operand, hnone]
        rfl
      rw [hstep g more hmore] at h
      cases h
      exact ⟨_, rfl, .prefixed (by decide) hstep (looseAt_of_tight (by simp) (by simp) rfl _ _ _)⟩
    | _ => first | (cases hword; done) | cases h
  | keyword keyword =>
    cases keyword with
    | not =>
      cases h
      exact ⟨_, rfl, .prefixed (by decide) (fun g more _ => rfl)
        (looseAt_of_tight (by simp) (by simp) rfl _ _ _)⟩
    | _ => first | (cases hword; done) | cases h
  | _ => cases hword

/-! ### After an operand -/

variable {t u : Tree} {left : List Frame} {o : Operator} {p : Tag → Bool}

/-- What an operator of a low ground waits for does not depend on the ground. -/
theorem waitsForAnd_append (hlow : g.IsLow) (waiting : Bool) :
    Machine.waitsForAnd waiting (above ++ g.frames) = Machine.waitsForAnd waiting above := by
  induction above generalizing waiting with
  | nil =>
    have hground : ∀ f : Frame, f.tag = g.tag → ∀ below,
        Machine.waitsForAnd waiting (f :: below) = false := by
      intro f hf below
      apply Machine.waitsForAnd_of_tier_lt
      rw [hf]
      exact Int.lt_of_le_of_lt hlow (by decide)
    cases g <;> exact hground _ rfl _
  | cons f above ih =>
    rw [List.cons_append, Machine.waitsForAnd, Machine.waitsForAnd, ih]

theorem pendingBetween_over (hlow : g.IsLow) :
    ((Above.after t above).onto g).pendingBetween = Machine.waitsForAnd true above := by
  rw [← waitsForAnd_append hlow]
  cases h : above ++ g.frames with
  | nil => exact absurd h (append_frames_ne_nil above g)
  | cons f frames =>
    rw [Machine.pendingBetween, Above.onto, h]
    exact Machine.waitsForAnd_received f t frames

/-- A `between` that waits for its `and` lies under operators that bind tighter. -/
theorem lt_tier_of_waitsForAnd {closed : List Frame} {f : Frame} {below : List Frame} {b : Bool}
    (hclosed : ∀ f ∈ closed, f.tag ≠ .op .between)
    (h : Machine.waitsForAnd b (closed ++ f :: below) = true) : ∀ f ∈ closed, 29 < tier f.tag := by
  induction closed generalizing b with
  | nil => simp
  | cons c closed ih =>
    rw [List.forall_mem_cons] at hclosed
    rw [List.cons_append, Machine.waitsForAnd, if_neg hclosed.1] at h
    split at h
    · cases h
    · next htier => exact List.forall_mem_cons.2 ⟨Int.not_le.1 htier, ih hclosed.2 h⟩

theorem waitsForAnd_of_forall (h : ∀ f ∈ above, f.tag ≠ .op .between) (b : Bool) :
    Machine.waitsForAnd b above = false := by
  induction above generalizing b with
  | nil => rfl
  | cons f above ih =>
    rw [List.forall_mem_cons] at h
    rw [Machine.waitsForAnd, if_neg h.1]
    split
    · rfl
    · exact ih h.2 true

theorem ne_par_of_lt_tier {tag : Tag} {k : Int} (h : k < tier tag) (hk : 0 ≤ k) : tag ≠ .par := by
  rintro rfl
  exact absurd (Int.lt_of_le_of_lt hk h) (by decide)

/-- What stays open after closing, if no parenthesis is closed. -/
theorem closeAbove_spec (h : closeAbove p t above = some (left, u))
    (hpar : ∀ tag, p tag = true → tag ≠ .par) :
    depth left = depth above ∧ (Firm above → Firm left) ∧
      ((∀ f ∈ above, f.tag ≠ .clausePar) → ∀ f ∈ left, f.tag ≠ .clausePar) := by
  obtain ⟨closed, rfl, hclosed, -⟩ := closeAbove_eq_some h
  refine ⟨?_, fun hfirm => hfirm.of_append, ?_⟩
  · rw [depth_append]
    exact fun f hf => hpar _ (hclosed f hf)
  · exact fun h f hf => h f (List.mem_append_right _ hf)

theorem received_append (h : left ≠ []) (u : Tree) (below : List Frame) :
    received u (left ++ below) = received u left ++ below := by
  cases left with
  | nil => exact absurd rfl h
  | cons f left => rfl

theorem forall_received {P : Tag → Prop} (h : ∀ f ∈ left, P f.tag) (u : Tree) :
    ∀ f ∈ received u left, P f.tag := by
  cases left with
  | nil => exact h
  | cons f left =>
    rw [List.forall_mem_cons] at h
    exact List.forall_mem_cons.2 h

/-- **The `and` of a `between` stays above the ground.** -/
theorem move_of_betweenAnd {span : Span} (hwaits : Machine.waitsForAnd true above = true)
    (hlow : g.IsLow)
    (h : ((Above.after t above).onto g).step ⟨.keyword .and, span⟩ (rest ++ more) = .ok (m, used)) :
    ∃ dest, m = dest.onto g ∧ Move (.after t above) ⟨.keyword .and, span⟩ rest dest used := by
  have hstep : ∀ {g : Ground} (more), g.IsLow →
      ((Above.after t above).onto g).step ⟨.keyword .and, span⟩ (rest ++ more) =
        ((Above.after t above).onto g).betweenAnd ⟨.keyword .and, span⟩ := by
    intro g more hlow
    have hpending : ((Above.after t above).onto g).pendingBetween = true :=
      (pendingBetween_over hlow).trans hwaits
    show (if ((Above.after t above).onto g).pendingBetween then _ else _) = _
    rw [if_pos hpending]
  rw [hstep more hlow] at h
  cases hclose : closeAbove (fun tag => tag != .op .between) t above with
  | none =>
    rw [Machine.betweenAnd, closeWhile?_over_none hclose] at h
    cases h
  | some result =>
    obtain ⟨left, u⟩ := result
    obtain ⟨closed, heq, hclosed, -⟩ := closeAbove_eq_some hclose
    have hleft : left ≠ [] := by
      rintro rfl
      rw [waitsForAnd_of_forall] at hwaits
      · cases hwaits
      · rw [heq, List.append_nil]
        exact fun f hf => by simpa using hclosed f hf
    have hto : ∀ {g : Ground}, g.IsLow → ((Above.after t above).onto g).betweenAnd
        ⟨.keyword .and, span⟩ = .ok ((Above.operand (received u left)).onto g, false) := by
      intro g _
      rw [Machine.betweenAnd, closeWhile?_over hclose (Or.inl hleft)]
      simp [orNear, bind, Except.bind, one, Above.onto, Machine.expecting, received_append hleft]
    have hdepth : depth above = depth left := by
      obtain ⟨f, below, rfl⟩ := List.exists_cons_of_ne_nil hleft
      rw [heq] at hwaits ⊢
      have htier := lt_tier_of_waitsForAnd (fun f hf => by simpa using hclosed f hf) hwaits
      exact depth_append (fun f hf => ne_par_of_lt_tier (htier f hf) (by decide)) _
    rw [hto hlow] at h
    cases h
    refine ⟨_, rfl, fun g more hlow _ => ?_, (fun hused => by cases hused), fun hfirm => ?_,
      fun hinside => ?_, fun _ => ?_⟩
    · rw [hstep more hlow, hto hlow]
    · rw [Above.frames, heq] at hfirm
      exact hfirm.of_append.received u
    · apply forall_received (P := fun tag => tag ≠ .clausePar)
      intro f hf
      apply hinside f
      rw [Above.frames, heq]
      exact List.mem_append_right _ hf
    · rw [Above.frames, Above.frames, depth_received, ← hdepth]
      exact looseAt_of_tight (by simp) (by simp) rfl _ _ _

/-- Firm nodes that an `and` or a looser operator leaves open hold an open parenthesis. -/
theorem depth_ne_zero (hfirm : Firm left) (hleft : left ≠ [])
    (hstop : ∀ f rest, left = f :: rest → tier f.tag ≤ 27) : depth left ≠ 0 := by
  obtain ⟨f, below, rfl⟩ := List.exists_cons_of_ne_nil hleft
  intro hdepth
  have hpar : f.tag ≠ .par := by
    intro hpar
    rw [depth_cons_par hpar] at hdepth
    cases hdepth
  rw [depth_cons_op hpar] at hdepth
  rcases hfirm.1 hdepth with h | h
  · exact hpar h
  · exact absurd (hstop f below rfl) (Int.not_le.2 h)

/-- A firm state in which an operator does not reach the ground. -/
theorem tight_of_closeAbove (hclose : closeAbove (closedBy o) t above = some (left, u))
    (hstop : left ≠ [] ∨ 27 < operatorTier o) (hfirm : Firm above) :
    27 < operatorTier o ∨ depth left ≠ 0 := by
  by_cases ho : 27 < operatorTier o
  · exact Or.inl ho
  · right
    obtain ⟨-, hleft, -⟩ := closeAbove_spec hclose fun tag htag heq => by
      rw [heq, closedBy_par] at htag
      cases htag
    obtain ⟨-, -, -, hstays⟩ := closeAbove_eq_some hclose
    apply depth_ne_zero (hleft hfirm) (hstop.resolve_right ho)
    intro f below heq
    have hlt := Int.not_le.1 (of_decide_eq_false (hstays f below heq))
    exact Int.le_of_lt (Int.lt_of_lt_of_le hlt (Int.not_lt.1 ho))

/-- No list starts after the words of a fragment. -/
theorem Neutral.not_opensList {tokens : List Token} (h : Neutral tokens) : ¬ opensList tokens := by
  cases h with
  | end_ hk =>
    intro hopens
    exact nomatch hk.symm.trans hopens
  | and_ hk =>
    intro hopens
    exact nomatch hk.symm.trans hopens

/-- An operator that stays above the ground opens its node there. -/
theorem Move.opened {kind : TokenKind} {span : Span} (ho : operatorOf? kind = some o)
    (hclose : closeAbove (closedBy o) t above = some (left, u))
    (hstop : left ≠ [] ∨ 27 < operatorTier o)
    (hstep : ∀ g more, g.IsLow → Neutral more →
      ((Above.after t above).onto g).step ⟨kind, span⟩ (rest ++ more) =
        .ok ((Above.operand (⟨.op o, span, [u]⟩ :: left)).onto g, false)) :
    Move (.after t above) ⟨kind, span⟩ rest (.operand (⟨.op o, span, [u]⟩ :: left)) false := by
  have hleftParen : kind ≠ .symbol .leftParen := by
    rintro rfl
    cases ho
  have hrightParen : kind ≠ .symbol .rightParen := by
    rintro rfl
    cases ho
  obtain ⟨hdepth, hfirmLeft, hinside⟩ := closeAbove_spec hclose fun tag htag heq => by
    rw [heq, closedBy_par] at htag
    cases htag
  have hdepth' : depth (⟨.op o, span, [u]⟩ :: left) = depth above := by
    rw [depth_cons_op (by simp), hdepth]
  refine ⟨hstep, nofun, fun hfirm => ⟨?_, hfirmLeft hfirm⟩, fun h => ?_, fun hfirm => ?_⟩
  · intro hzero
    rcases tight_of_closeAbove hclose hstop hfirm with htight | hne
    · exact Or.inr htight
    · exact absurd hzero hne
  · exact List.forall_mem_cons.2 ⟨by simp, hinside h⟩
  · rw [Above.frames, Above.frames, hdepth']
    rcases tight_of_closeAbove hclose hstop hfirm with htight | hne
    · apply looseAt_of_tight hleftParen hrightParen
      rw [ho, Option.any_some, isLoose]
      exact decide_eq_false (Int.not_lt.2 (Int.le_of_lt htight))
    · exact looseAt_of_depth hleftParen hrightParen (by rwa [← hdepth]) _ _

/-- **An operator after an operand stays above the ground, or it takes all that stands on it.** -/
theorem move_of_operator {kind : TokenKind} {span : Span} (ho : operatorOf? kind = some o)
    (hand : kind = .keyword .and → Machine.waitsForAnd true above = false) (hlow : g.IsLow)
    (hmore : Neutral more)
    (h : ((Above.after t above).onto g).step ⟨kind, span⟩ (rest ++ more) = .ok (m, used)) :
    (∃ dest, m = dest.onto g ∧ Move (.after t above) ⟨kind, span⟩ rest dest used) ∨
      ∃ u, closeAbove (closedBy o) t above = some ([], u) ∧ operatorTier o ≤ 27 ∧ used = false ∧
        ∀ g more, g.IsLow → Neutral more →
          ((Above.after t above).onto g).step ⟨kind, span⟩ (rest ++ more) =
            ((Above.after t above).onto g).openOver (.op o) .operand span >>= one := by
  have hlist : o = .in_ → opensList rest := by
    rintro rfl
    have hopens := opensList_of_step rfl ho h
    cases rest with
    | cons next rest => exact hopens
    | nil => exact absurd hopens hmore.not_opensList
  have hstep : ∀ {g : Ground} {more : List Token}, g.IsLow → Neutral more →
      ((Above.after t above).onto g).step ⟨kind, span⟩ (rest ++ more) =
        ((Above.after t above).onto g).openOver (.op o) .operand span >>= one := by
    intro g more hlow _
    apply step_operator rfl ho
    · exact fun hin => opensList_append (hlist hin) more
    · exact fun hk => (pendingBetween_over hlow).trans (hand hk)
  rw [hstep hlow hmore] at h
  cases hclose : closeAbove (closedBy o) t above with
  | none =>
    rw [openOver_over_none hclose] at h
    cases h
  | some result =>
    obtain ⟨left, u⟩ := result
    by_cases hstop : left ≠ [] ∨ 27 < operatorTier o
    · left
      have hopen : ∀ {g : Ground}, g.IsLow →
          ((Above.after t above).onto g).openOver (.op o) .operand span >>= one =
            .ok ((Above.operand (⟨.op o, span, [u]⟩ :: left)).onto g, false) := by
        intro g hlow
        rw [openOver_over hclose]
        · rfl
        · refine hstop.imp_right fun ho => decide_eq_false ?_
          exact Int.not_le.2 (Int.lt_of_le_of_lt hlow ho)
      rw [hopen hlow] at h
      cases h
      refine ⟨_, rfl, .opened ho hclose hstop ?_⟩
      intro g more hlow hmore
      rw [hstep hlow hmore, hopen hlow]
    · right
      simp only [not_or, Classical.not_not, Int.not_lt] at hstop
      obtain ⟨rfl, hle⟩ := hstop
      refine ⟨u, rfl, hle, ?_, fun g more hlow hmore => hstep hlow hmore⟩
      obtain ⟨m', -, hone⟩ := bind_eq_ok h
      cases hone
      rfl

/-- A negated operator opens two nodes above the ground. -/
theorem openNegated_over (hclose : closeAbove (closedBy o) t above = some (left, u))
    (ho : 28 < operatorTier o) (hlow : g.IsLow) (token next : Token) :
    ((Above.after t above).onto g).openNegated o token next =
      .ok ((Above.operand (⟨.op o, next.span, [u]⟩ :: ⟨.op .not, token.span, []⟩ :: left)).onto g,
        true) := by
  have hground : closedBy o g.tag = false :=
    decide_eq_false (Int.not_le.2 (Int.lt_of_le_of_lt hlow (Int.lt_trans (by decide) ho)))
  have hwhile := closeWhile?_over hclose (Or.inr hground)
  simp only [Machine.openNegated, closeTier_eq, hwhile, orNear, bind, Except.bind, takeLast?_over]
  rfl

/-- **A negated operator after an operand stays above the ground.** -/
theorem move_of_negated {span : Span} (hlow : g.IsLow) (hmore : Neutral more)
    (h : ((Above.after t above).onto g).step ⟨.keyword .not, span⟩ (rest ++ more) = .ok (m, used)) :
    ∃ dest, m = dest.onto g ∧ Move (.after t above) ⟨.keyword .not, span⟩ rest dest used := by
  have hstep : ∀ (g : Ground) (tokens), ((Above.after t above).onto g).step ⟨.keyword .not, span⟩
      tokens = ((Above.after t above).onto g).negated ⟨.keyword .not, span⟩ tokens :=
    fun _ _ => rfl
  rw [hstep] at h
  cases rest with
  | nil =>
    cases hmore with
    | end_ hk => simp [Machine.negated, following, hk, Machine.negatable?, reject] at h
    | and_ hk => simp [Machine.negated, following, hk, Machine.negatable?, reject] at h
  | cons next rest =>
    cases hneg : Machine.negatable? next.kind with
    | none => simp [Machine.negated, following, hneg, reject] at h
    | some o =>
      obtain ⟨ho, hnegatable⟩ := operatorOf?_of_negatable? hneg
      obtain ⟨htier, -, -, hparen⟩ := negatable?_spec hneg
      have hlist : o = .in_ → opensList rest := by
        intro hin
        have hopens := opensList_of_negated (hin ▸ hneg) h
        cases rest with
        | cons head rest => exact hopens
        | nil => exact absurd hopens hmore.not_opensList
      have hopen : ∀ (g : Ground) more, ((Above.after t above).onto g).negated ⟨.keyword .not, span⟩
          (next :: rest ++ more) =
            ((Above.after t above).onto g).openNegated o ⟨.keyword .not, span⟩ next :=
        fun g more => negated_eq ho hnegatable fun hin => opensList_append (hlist hin) more
      rw [hopen] at h
      cases hclose : closeAbove (closedBy o) t above with
      | none =>
        rw [Machine.openNegated, closeTier_eq, closeWhile?_over_none hclose] at h
        cases h
      | some result =>
        obtain ⟨left, u⟩ := result
        rw [openNegated_over hclose htier hlow] at h
        cases h
        obtain ⟨hdepth, hfirm, hinside⟩ := closeAbove_spec hclose fun tag htag heq => by
          rw [heq, closedBy_par] at htag
          cases htag
        refine ⟨_, rfl, fun g more hlow _ => ?_, fun _ => by simp, fun h => ?_, fun h => ?_,
          fun _ => ?_⟩
        · rw [hstep, hopen, openNegated_over hclose htier hlow]
        · exact ((hfirm h).cons_op (by decide) _ _).cons_op (Int.lt_trans (by decide) htier) _ _
        · exact List.forall_mem_cons.2 ⟨by simp, List.forall_mem_cons.2 ⟨by simp, hinside h⟩⟩
        · have hdepth' : depth (⟨.op o, next.span, [u]⟩ :: ⟨.op .not, span, []⟩ :: left) =
              depth above := by
            rw [depth_cons_op (by simp), depth_cons_op (by simp), hdepth]
          rw [Above.frames, Above.frames, hdepth']
          have hnot : ∀ d, looseAt d (⟨.keyword .not, span⟩ :: next :: rest) =
              looseAt d (next :: rest) := fun d => looseAt_of_tight (by simp) (by simp) rfl d _ _
          have hright : next.kind ≠ .symbol .rightParen := by
            intro heq
            rw [heq] at ho
            cases ho
          have hnext : (operatorOf? next.kind).any isLoose = false := by
            rw [ho, Option.any_some, isLoose]
            exact decide_eq_false (Int.not_lt.2 (Int.le_of_lt (Int.lt_trans (by decide) htier)))
          rw [hnot]
          exact looseAt_of_tight hparen hright hnext _ next.span _

/-- A closing parenthesis is stopped by nothing but an open one. -/
theorem isParen_of_tier_lt {tag : Tag} (h : decide (parenTier ≤ tier tag) = false) :
    tag.isParen = true := by
  have hlt := Int.not_le.1 (of_decide_eq_false h)
  cases tag with
  | op o => exact absurd (parenTier_le_operatorTier o) (Int.not_le.2 hlt)
  | par => rfl
  | clausePar => rfl
  | _ => exact absurd hlt (by decide)

/-- A parenthesis that was not opened above the ground cannot be closed. -/
theorem closeParen_ground {span : Span} (hlow : g.IsLow)
    (hclose : closeAbove (fun tag => decide (parenTier ≤ tier tag)) t above = some ([], u)) :
    ((Above.after t above).onto g).closeParen ⟨.symbol .rightParen, span⟩ = .error (.near span) := by
  have hroot := closeFrames_ground (p := fun tag => decide (parenTier ≤ tier tag)) (u := u) hlow
    (decide_eq_true (by decide)) (decide_eq_true (by
      cases g with
      | bare => decide
      | op o s first => exact parenTier_le_operatorTier o))
  rw [← List.nil_append g.frames] at hroot
  have hwhile : ((Above.after t above).onto g).closeWhile?
      (fun tag => decide (parenTier ≤ tier tag)) = _ := closeWhile?_after g
  simp only [hclose, Option.bind_some, hroot] at hwhile
  simp only [Machine.closeParen, Machine.closeTier, hwhile, orNear, bind, Except.bind]
  rfl

/-- **A closing parenthesis stays above the ground.** -/
theorem move_of_closing {span : Span} (hlow : g.IsLow)
    (hinside : ∀ f ∈ above, f.tag ≠ .clausePar)
    (h : ((Above.after t above).onto g).step ⟨.symbol .rightParen, span⟩ (rest ++ more) =
      .ok (m, used)) :
    ∃ dest, m = dest.onto g ∧ Move (.after t above) ⟨.symbol .rightParen, span⟩ rest dest used := by
  have hstep : ∀ (g : Ground) tokens, ((Above.after t above).onto g).step
      ⟨.symbol .rightParen, span⟩ tokens =
        ((Above.after t above).onto g).closeParen ⟨.symbol .rightParen, span⟩ := fun _ _ => rfl
  rw [hstep] at h
  cases hclose : closeAbove (fun tag => decide (parenTier ≤ tier tag)) t above with
  | none =>
    rw [Machine.closeParen, Machine.closeTier, closeWhile?_over_none hclose] at h
    cases h
  | some result =>
    obtain ⟨left, u⟩ := result
    cases left with
    | nil =>
      rw [closeParen_ground hlow hclose] at h
      cases h
    | cons f left =>
      obtain ⟨closed, heq, hclosed, hstop⟩ := closeAbove_eq_some hclose
      have hpar : f.tag = .par := by
        have hparen := isParen_of_tier_lt (hstop f left rfl)
        have hne : f.tag ≠ .clausePar := hinside f (by rw [heq]; simp)
        simpa [Tag.isParen, hne] using hparen
      have hto : ∀ g : Ground, ((Above.after t above).onto g).closeParen
          ⟨.symbol .rightParen, span⟩ =
            .ok ((Above.after (.node .par (u :: f.done).reverse) left).onto g, false) := by
        intro g
        have hwhile := closeWhile?_over hclose (g := g) (Or.inl (by simp))
        simp only [Machine.closeParen, Machine.closeTier, hwhile, orNear, bind, Except.bind]
        obtain ⟨tag, opened, done⟩ := f
        cases hpar
        exact congrArg one (append_over left g (.node .par (u :: done).reverse))
      rw [hto] at h
      cases h
      have hdepth : depth above = depth left + 1 := by
        rw [heq, depth_append, depth_cons_par hpar]
        intro c hc hcpar
        have hp := hclosed c hc
        rw [hcpar] at hp
        cases hp
      refine ⟨_, rfl, fun g more _ _ => ?_, (fun hused => by cases hused), fun hfirm => ?_,
        fun hinside c hc => ?_, fun _ => ?_⟩
      · rw [hstep, hto]
      · rw [Above.frames, heq] at hfirm
        exact hfirm.of_append.2
      · apply hinside c
        rw [Above.frames, heq]
        exact List.mem_append_right _ (List.mem_cons_of_mem _ hc)
      · rw [Above.frames, Above.frames, hdepth, looseAt]
        rfl

/-- The innermost open parenthesis does not depend on the ground. -/
theorem paren?_over (t : Tree) (above : List Frame) (g : Ground) :
    ((Above.after t above).onto g).paren?.map Frame.tag =
      (above.find? fun f => f.tag.isParen).map Frame.tag := by
  have hground : (g.frames.find? fun f => f.tag.isParen) = none := by
    cases g <;> rfl
  have htag : ∀ frames : List Frame, ((received t frames).find? fun f => f.tag.isParen).map Frame.tag =
      (frames.find? fun f => f.tag.isParen).map Frame.tag := by
    intro frames
    cases frames with
    | nil => rfl
    | cons f frames =>
      cases hf : f.tag.isParen <;> simp [received, hf]
  rw [Machine.paren?, Above.onto, htag, List.find?_append, hground, Option.or_none]

/-- Whether a list is open does not depend on the ground. -/
theorem insideExpression_over (t : Tree) (above : List Frame) (g : Ground) :
    ((Above.after t above).onto g).insideExpression =
      (above.find? fun f => f.tag.isParen).any fun f => f.tag == .par := by
  have hany : ∀ x : Option Frame, (x.any fun f => f.tag == .par) =
      (x.map Frame.tag).any fun tag => tag == .par := by
    intro x
    cases x <;> rfl
  rw [Machine.insideExpression, hany, paren?_over, ← hany]

/-- **A comma stays above the ground.** -/
theorem move_of_comma {span : Span}
    (h : ((Above.after t above).onto g).step ⟨.symbol .comma, span⟩ (rest ++ more) =
      .ok (m, used)) :
    ∃ dest, m = dest.onto g ∧ Move (.after t above) ⟨.symbol .comma, span⟩ rest dest used := by
  have hstep : ∀ (g : Ground) tokens, ((Above.after t above).onto g).step ⟨.symbol .comma, span⟩
      tokens = ((Above.after t above).onto g).comma ⟨.symbol .comma, span⟩ := fun _ _ => rfl
  rw [hstep] at h
  have hparen : (above.find? fun f => f.tag.isParen).any (fun f => f.tag == .par) = true := by
    rw [← insideExpression_over t above g]
    cases hinside : ((Above.after t above).onto g).insideExpression with
    | true => rfl
    | false =>
      rw [Machine.comma, hinside] at h
      cases h
  have hinside : ∀ g : Ground, ((Above.after t above).onto g).insideExpression = true :=
    fun g => (insideExpression_over t above g).trans hparen
  cases hclose : closeAbove (fun tag => tag != .par) t above with
  | none =>
    rw [Machine.comma, hinside, closeWhile?_over_none hclose] at h
    cases h
  | some result =>
    obtain ⟨left, u⟩ := result
    obtain ⟨closed, heq, hclosed, -⟩ := closeAbove_eq_some hclose
    have hleft : left ≠ [] := by
      rintro rfl
      obtain ⟨f, hfind, htag⟩ := (Option.any_eq_true _ _).1 hparen
      have hmem : f ∈ closed := by
        rw [List.append_nil] at heq
        exact heq ▸ List.mem_of_find?_eq_some hfind
      simpa [beq_iff_eq.1 htag] using hclosed f hmem
    have hto : ∀ g : Ground, ((Above.after t above).onto g).comma ⟨.symbol .comma, span⟩ =
        .ok ((Above.operand (received u left)).onto g, false) := by
      intro g
      rw [Machine.comma, if_pos (hinside g), closeWhile?_over hclose (Or.inl hleft)]
      simp [orNear, bind, Except.bind, one, Above.onto, Machine.expecting, received_append hleft]
    obtain ⟨hdepth, hfirm, hout⟩ := closeAbove_spec hclose fun tag htag => by simpa using htag
    rw [hto] at h
    cases h
    refine ⟨_, rfl, fun g more _ _ => ?_, (fun hused => by cases hused),
      fun h => (hfirm h).received u, fun h => ?_, fun _ => ?_⟩
    · rw [hstep, hto]
    · exact forall_received (P := fun tag => tag ≠ .clausePar) (hout h) u
    · rw [Above.frames, Above.frames, depth_received, hdepth]
      exact looseAt_of_tight (by simp) (by simp) rfl _ _ _

/-- No operand and no opening parenthesis follows an operand. -/
theorem clause_of_operand {kind : TokenKind}
    (hkind : (∃ content, kind = .text content) ∨ kind = .symbol .leftParen) (m : Machine)
    (span : Span) (tokens : List Token) :
    m.clause ⟨kind, span⟩ tokens = reject ⟨kind, span⟩ := by
  have hclosing : kind ≠ .symbol .rightParen := by
    rcases hkind with ⟨content, rfl⟩ | rfl <;> simp
  have hclause : ∀ next, Machine.clauseOf? ⟨kind, span⟩ next = .error ⟨kind, span⟩ := by
    intro next
    rcases hkind with ⟨content, rfl⟩ | rfl <;> rfl
  rw [Machine.clause, if_neg hclosing, hclause]
  split <;> rfl

/-- **A step after an operand stays above the ground, unless an operator takes all that stands on
it.** -/
theorem move_of_after (hword : isWord token.kind = true) (hlow : g.IsLow) (hmore : Neutral more)
    (hinside : ∀ f ∈ above, f.tag ≠ .clausePar)
    (h : ((Above.after t above).onto g).step token (rest ++ more) = .ok (m, used)) :
    (∃ dest, m = dest.onto g ∧ Move (.after t above) token rest dest used) ∨
      ∃ o u, operatorOf? token.kind = some o ∧ closeAbove (closedBy o) t above = some ([], u) ∧
        operatorTier o ≤ 27 ∧ used = false ∧ ∀ g more, g.IsLow → Neutral more →
          ((Above.after t above).onto g).step token (rest ++ more) =
            ((Above.after t above).onto g).openOver (.op o) .operand token.span >>= one := by
  obtain ⟨kind, span⟩ := token
  cases ho : operatorOf? kind with
  | some o =>
    by_cases hwaits : kind = .keyword .and ∧ Machine.waitsForAnd true above = true
    · left
      obtain ⟨rfl, hwaits⟩ := hwaits
      exact move_of_betweenAnd hwaits hlow h
    · have hand : kind = .keyword .and → Machine.waitsForAnd true above = false := by
        intro hk
        simpa [hk] using hwaits
      rcases move_of_operator ho hand hlow hmore h with hmove | ⟨u, hclose, hle, hused, hstep⟩
      · exact Or.inl hmove
      · exact Or.inr ⟨o, u, rfl, hclose, hle, hused, hstep⟩
  | none =>
    left
    cases kind with
    | text content =>
      have hreject := clause_of_operand (Or.inl ⟨content, rfl⟩) ((Above.after t above).onto g) span
        (rest ++ more)
      exact nomatch hreject.symm.trans h
    | symbol symbol =>
      cases symbol with
      | leftParen =>
        have hreject := clause_of_operand (Or.inr rfl) ((Above.after t above).onto g) span
          (rest ++ more)
        exact nomatch hreject.symm.trans h
      | rightParen => exact move_of_closing hlow hinside h
      | comma => exact move_of_comma h
      | _ => first | (cases ho; done) | cases hword
    | keyword keyword =>
      cases keyword with
      | not => exact move_of_negated hlow hmore h
      | _ => first | (cases ho; done) | cases hword
    | _ => cases hword

end RelationSql.Grammar
