import RelationSql.Proofs.Grammar.Derivation

/-!
# Derivations are read

Over a node of the right tier, the machine reads the tokens of a derivation and leaves nodes open that all
close to the derived tree (`Derives.leaves`). A relation with the tokens of a condition is parsed into the
relation with that condition (`Derives.parseTokens`).
-/

namespace RelationSql.Grammar

open RelationSql.Source (Span Token TokenKind)

variable {token last : Token} {words more joint : List Token} {above left base below nots : List Frame}
  {root : List Tree} {o : Operator} {k : Int} {n m : Nat} {t u l r : Tree} {f g : Frame} {p : Tag → Bool}

/-! ## The right edge of a tree -/

/-- The tree is what the nodes close to, and they are the operators along its right edge. -/
structure Edge (t : Tree) (left : List Frame) (u : Tree) : Prop where
  closes : closeAbove (fun _ => true) u left = some ([], t)
  tags : ∀ f ∈ left, ∃ q ∈ spine t, f.tag = .op q

/-- A tree with nothing open. -/
theorem Edge.refl (t : Tree) : Edge t [] t := ⟨rfl, by simp⟩

/-- What closes the operators along the edge closes all of it. -/
theorem Edge.closeAbove (h : Edge t left u) (hp : ∀ q ∈ spine t, p (.op q) = true) :
    Grammar.closeAbove p u left = some ([], t) := by
  rw [← h.closes]
  refine closeAbove_congr fun f hf => ?_
  obtain ⟨q, hq, htag⟩ := h.tags f hf
  rw [htag]
  exact hp q hq

/-- An operator node around the tree. -/
theorem Edge.node (h : Edge t left u) (s : Span) (done : List Tree)
    (hcomplete : (⟨.op o, s, t :: done⟩ : Frame).isComplete = true)
    (hspine : spine (.node (.op o) (t :: done).reverse) = o :: spine t) :
    Edge (.node (.op o) (t :: done).reverse) (left ++ [⟨.op o, s, done⟩]) u where
  closes := by
    rw [closeAbove_append h.closes, Grammar.closeAbove, if_pos rfl, if_pos hcomplete]
    rfl
  tags := by
    rw [hspine]
    intro f hf
    rcases List.mem_append.1 hf with hf | hf
    · obtain ⟨q, hq, htag⟩ := h.tags f hf
      exact ⟨q, List.mem_cons_of_mem _ hq, htag⟩
    · rw [List.mem_singleton] at hf
      subst hf
      exact ⟨o, List.mem_cons_self, rfl⟩

/-- No `between` that is complete waits for an `and`. -/
theorem waitsForAnd_of_complete (h : closeAbove p u left = some ([], t))
    (hbase : Machine.waitsForAnd true base = false) : Machine.waitsForAnd true (left ++ base) = false := by
  induction left generalizing u with
  | nil => exact hbase
  | cons f left ih =>
    rw [closeAbove] at h
    split at h
    · split at h
      · next hcomplete =>
        rw [List.cons_append, Machine.waitsForAnd]
        split
        · next htag =>
          simp only [Frame.isComplete, htag, bne_self_eq_false, Bool.false_or, List.length_cons,
            beq_iff_eq] at hcomplete
          have hlength : f.done.length = 2 := Nat.succ.inj hcomplete
          simp [hlength]
        · split
          · rfl
          · exact ih h
      · cases h
    · cases h

/-! ## Negations around an expression -/

/-- The node is a negation that waits for its operand. -/
structure Frame.IsNegation (f : Frame) : Prop where
  tag : f.tag = .op .not
  done : f.done = []

/-- Open negations over a node, and the tier of the innermost of these nodes. -/
structure Grounded (k : Int) (nots : List Frame) (f : Frame) : Prop where
  negations : ∀ g ∈ nots, g.IsNegation
  tier_eq : tier f.tag = k

/-- The innermost node of a ground. -/
theorem Grounded.exists_cons (h : Grounded k nots f) (below : List Frame) :
    ∃ g rest, nots ++ f :: below = g :: rest ∧ tier g.tag = ground k nots.length := by
  cases nots with
  | nil => exact ⟨f, below, rfl, h.tier_eq⟩
  | cons g nots =>
    refine ⟨g, nots ++ f :: below, rfl, ?_⟩
    rw [(h.negations g List.mem_cons_self).tag]
    rfl

/-- A ground stays open under an operator that binds tighter. -/
theorem Grounded.stops (h : Grounded k nots f) (hground : ground k nots.length < operatorTier o)
    (below : List Frame) : Stops (closedBy o) [] (nots ++ f :: below) := by
  obtain ⟨g, rest, hsplit, htier⟩ := h.exists_cons below
  refine .inr ⟨g, rest, hsplit, ?_⟩
  rw [closedBy, decide_eq_false_iff_not, htier]
  omega

theorem Grounded.cons (h : Grounded k nots f) (s : Span) : Grounded k (⟨.op .not, s, []⟩ :: nots) f :=
  ⟨List.forall_mem_cons.2 ⟨⟨rfl, rfl⟩, h.negations⟩, h.tier_eq⟩

/-! ## What is left open -/

/-- What the machine has left open when it has read the words. -/
def Leaves (k : Int) (n : Nat) : Piece → List Token → Prop
  | .tree t, words => ∀ f below root more, tier f.tag = k → ∃ nots left u, Grounded k nots f ∧
      nots.length = n ∧ Edge t left u ∧
      runTokens ((Above.operand []).upon (f :: below) root) (words ++ more) =
        runTokens ((Above.after u left).upon (nots ++ f :: below) root) more
  | .list ts, words => ∀ s base root more, ∃ t done left u, (t :: done).reverse = ts ∧ Edge t left u ∧
      runTokens ((Above.operand []).upon (⟨.par, s, []⟩ :: base) root) (words ++ more) =
        runTokens ((Above.after u left).upon (⟨.par, s, done⟩ :: base) root) more

/-- An operand leaves nothing open. -/
theorem leaves_leaf (h : operandOf? token.kind = some t) : Leaves k 0 (.tree t) [token] := by
  intro f below root more hf
  have hleaf : leafOf? token.kind = some t := by
    cases hkind : token.kind with
    | template content =>
      rw [hkind] at h
      cases h
    | _ =>
      rw [hkind] at h
      exact h
  refine ⟨[], [], t, ⟨by simp, hf⟩, rfl, .refl t, ?_⟩
  exact runTokens_of_step (isLast_of_operandOf? h) (step_leaf hleaf (by simp) more)

theorem leaves_signed {minus number : Token} (hminus : minus.kind = .symbol .minus)
    (h : signedLiteral? minus number = some t) : Leaves k 0 (.tree t) [minus, number] := by
  intro f below root more hf
  have hlast : minus.kind.isLast = false := by
    rw [hminus]
    rfl
  have hstep : ((Above.operand []).upon (f :: below) root).step minus (number :: more) =
      .ok ((Above.after t []).upon (f :: below) root, true) := step_signed hminus h (by simp)
  exact ⟨[], [], t, ⟨by simp, hf⟩, rfl, .refl t, runTokens_of_step hlast hstep⟩

/-- A parenthesis leaves nothing open. -/
theorem leaves_parenthesis {opening closing : Token} {ts : List Tree}
    (hopening : opening.kind = .symbol .leftParen) (hclosing : closing.kind = .symbol .rightParen)
    (ih : Leaves (tier .par) 0 (.list ts) words) :
    Leaves k 0 (.tree (.node .par ts)) (opening :: (words ++ [closing])) := by
  intro f below root more hf
  obtain ⟨t, done, left, u, hts, hedge, hrun⟩ := ih opening.span (f :: below) root (closing :: more)
  have hopen : opening.kind.isLast = false := by
    rw [hopening]
    rfl
  have hclose : closing.kind.isLast = false := by
    rw [hclosing]
    rfl
  -- the parenthesis is the only node above the base that the closing one leaves open
  have hcloses : closeAbove (fun tag => decide (parenTier ≤ tier tag)) u (left ++ [⟨.par, opening.span, done⟩]) =
      some ([⟨.par, opening.span, done⟩], t) := by
    rw [closeAbove_append (hedge.closeAbove fun q _ => decide_eq_true (parenTier_le_operatorTier q))]
    rfl
  have hstep : ((Above.after u left).upon (⟨.par, opening.span, done⟩ :: f :: below) root).step closing more =
      .ok ((Above.after (.node .par ts) []).upon (f :: below) root, false) := by
    rw [← hts]
    have hbase := upon_append u left [⟨.par, opening.span, done⟩] (f :: below) root
    rw [List.singleton_append] at hbase
    rw [← hbase]
    exact step_closing hclosing rfl hcloses (by simp) more
  refine ⟨[], [], .node .par ts, ⟨by simp, hf⟩, rfl, .refl _, ?_⟩
  rw [List.cons_append, List.append_assoc,
    runTokens_of_step hopen (step_opening hopening (words ++ ([closing] ++ more)))]
  exact hrun.trans (runTokens_of_step hclose hstep)

theorem spine_before (o : Operator) (t : Tree) : spine (.node (.op o) [t]) = o :: spine t := rfl

theorem isComplete_before {s : Span} (ho : o ≠ .between) (done : List Tree) :
    (⟨.op o, s, done⟩ : Frame).isComplete = true := by
  simp [Frame.isComplete, ho]

theorem ne_between_of_prefixOperator? (h : prefixOperator? token.kind = some o) : o ≠ .between := by
  rintro rfl
  cases hkind : token.kind with
  | keyword keyword => rw [hkind] at h; cases keyword <;> cases h
  | symbol symbol => rw [hkind] at h; cases symbol <;> cases h
  | _ => rw [hkind] at h; cases h

/-- An operator in front of its operand is left open around it. -/
theorem leaves_before (ho : prefixOperator? token.kind = some o)
    (hunsigned : token.kind = .symbol .minus → signedLiteral? token (following token words) = none)
    (hne : words ≠ []) (ih : Leaves (operatorTier o) 0 (.tree t) words) :
    Leaves k 0 (.tree (.node (.op o) [t])) (token :: words) := by
  intro f below root more hf
  let opened : Frame := ⟨.op o, token.span, []⟩
  obtain ⟨nots, left, u, -, hnots, hedge, hrun⟩ := ih opened (f :: below) root more rfl
  obtain rfl := List.length_eq_zero_iff.1 hnots
  have hstep : ((Above.operand []).upon (f :: below) root).step token (words ++ more) =
      .ok ((Above.operand []).upon (opened :: f :: below) root, false) := by
    obtain ⟨next, words, rfl⟩ := List.exists_cons_of_ne_nil hne
    exact step_before ho hunsigned
  have hnode : Edge (.node (.op o) [t]) (left ++ [opened]) u :=
    hedge.node token.span [] (isComplete_before (ne_between_of_prefixOperator? ho) _) (spine_before o t)
  refine ⟨[], left ++ [opened], u, ⟨by simp, hf⟩, rfl, hnode, ?_⟩
  rw [List.cons_append, runTokens_of_step (isLast_of_prefixOperator? ho) hstep, upon_append]
  exact hrun

/-- A joint opens its operator over what stands in front of it. -/
theorem runTokens_joint (hjoint : Coupling o n m joint) (hgrounded : Grounded k nots f) (hnots : nots.length = n)
    (hedge : Edge t left u) (hspine : ∀ q ∈ spine t, operatorTier o ≤ operatorTier q)
    (hground : ground k n < operatorTier o) (below : List Frame) (root : List Tree) :
    ∃ nots' s, Grounded k nots' f ∧ nots'.length = m ∧ ∀ more, (o = .in_ → opensList more) →
      runTokens ((Above.after u left).upon (nots ++ f :: below) root) (joint ++ more) =
        runTokens ((Above.operand []).upon (⟨.op o, s, [t]⟩ :: (nots' ++ f :: below)) root) more := by
  have hclose : closeAbove (closedBy o) u left = some ([], t) :=
    hedge.closeAbove fun q hq => decide_eq_true (hspine q hq)
  rw [← hnots] at hground
  have hstop := hgrounded.stops hground below
  cases hjoint with
  | @plain token ho =>
    refine ⟨nots, token.span, hgrounded, hnots, fun more hlist => ?_⟩
    have hand : token.kind = .keyword .and →
        Machine.waitsForAnd true (left ++ (nots ++ f :: below)) = false := by
      intro hkind
      rw [hkind] at ho
      cases ho
      obtain ⟨g, rest, hsplit, htier⟩ := hgrounded.exists_cons below
      apply waitsForAnd_of_complete hclose
      rw [hsplit]
      apply Machine.waitsForAnd_of_tier_lt
      rw [htier]
      exact Int.lt_trans hground (by decide)
    exact runTokens_of_step (isLast_of_operatorOf? ho) (step_between ho hlist hand hclose hstop)
  | @negated not token hnot ho =>
    refine ⟨⟨.op .not, not.span, []⟩ :: nots, token.span, hgrounded.cons _, ?_, fun more hlist => ?_⟩
    · rw [List.length_cons, hnots]
    · have hlast : not.kind.isLast = false := by
        rw [hnot]
        rfl
      exact runTokens_of_step hlast (step_negated hnot ho hlist hclose hstop)

/-- An operator between its operands is left open, and the second operand above it. -/
theorem leaves_binary (ho : isBinary o = true) (hspine : ∀ q ∈ spine l, operatorTier o ≤ operatorTier q)
    (hground : ground k n < operatorTier o) (hjoint : Coupling o n m joint)
    (hlist : o = .in_ → opensList more) (ihl : Leaves k n (.tree l) words)
    (ihr : Leaves (operatorTier o) 0 (.tree r) more) :
    Leaves k m (.tree (.node (.op o) [l, r])) (words ++ (joint ++ more)) := by
  intro f below root rest hf
  obtain ⟨-, -, -, -, hbetween⟩ := isBinary_iff.1 ho
  obtain ⟨nots, left, u, hgrounded, hnots, hedge, hrun⟩ := ihl f below root (joint ++ (more ++ rest)) hf
  obtain ⟨nots', s, hgrounded', hnots', hopen⟩ :=
    runTokens_joint hjoint hgrounded hnots hedge hspine hground below root
  let opened : Frame := ⟨.op o, s, [l]⟩
  obtain ⟨none, inner, v, -, hnone, hedge', hrun'⟩ := ihr opened (nots' ++ f :: below) root rest rfl
  obtain rfl := List.length_eq_zero_iff.1 hnone
  have hnode : Edge (.node (.op o) [l, r]) (inner ++ [opened]) v :=
    hedge'.node s [l] (isComplete_before hbetween _) (spine_binary o l r)
  refine ⟨nots', inner ++ [opened], v, hgrounded', hnots', hnode, ?_⟩
  rw [List.append_assoc, List.append_assoc, hrun, hopen _ fun hin => opensList_append (hlist hin) rest,
    upon_append]
  exact hrun'

/-- A `between` is left open with both bounds, and the upper bound above it. -/
theorem leaves_between {v lo hi : Tree} {and : Token} {lower upper : List Token}
    (hspine : ∀ q ∈ spine v, operatorTier .between ≤ operatorTier q)
    (hground : ground k n < operatorTier .between) (hjoint : Coupling .between n m joint)
    (htight : ∀ q ∈ spine lo, operatorTier .between < operatorTier q) (hand : and.kind = .keyword .and)
    (ihv : Leaves k n (.tree v) words) (ihlo : Leaves (operatorTier .between) 0 (.tree lo) lower)
    (ihhi : Leaves (operatorTier .between) 0 (.tree hi) upper) :
    Leaves k m (.tree (.node (.op .between) [v, lo, hi])) (words ++ (joint ++ (lower ++ and :: upper))) := by
  intro f below root rest hf
  obtain ⟨nots, left, u, hgrounded, hnots, hedge, hrun⟩ :=
    ihv f below root (joint ++ (lower ++ and :: (upper ++ rest))) hf
  obtain ⟨nots', s, hgrounded', hnots', hopen⟩ :=
    runTokens_joint hjoint hgrounded hnots hedge hspine hground below root
  let waiting : Frame := ⟨.op .between, s, [v]⟩
  let bounded : Frame := ⟨.op .between, s, [lo, v]⟩
  obtain ⟨none, inner, w, -, hnone, hedge', hrun'⟩ :=
    ihlo waiting (nots' ++ f :: below) root (and :: (upper ++ rest)) rfl
  obtain rfl := List.length_eq_zero_iff.1 hnone
  obtain ⟨none, inner', w', -, hnone, hedge'', hrun''⟩ := ihhi bounded (nots' ++ f :: below) root rest rfl
  obtain rfl := List.length_eq_zero_iff.1 hnone
  -- the operators of the lower bound bind tighter, so this `and` finds the `between` under them
  have htiers : ∀ g ∈ inner, 29 < tier g.tag := by
    intro g hg
    obtain ⟨q, hq, htag⟩ := hedge'.tags g hg
    rw [htag]
    exact htight q hq
  have hwaits : Machine.waitsForAnd true (inner ++ waiting :: (nots' ++ f :: below)) = true := by
    rw [waitsForAnd_above htiers]
    rfl
  have hclose : closeAbove (fun tag => tag != .op .between) w inner = some ([], lo) := by
    refine hedge'.closeAbove fun q hq => ?_
    have hne : q ≠ .between := by
      rintro rfl
      exact absurd (htight _ hq) (by decide)
    simpa using hne
  have hlast : and.kind.isLast = false := by
    rw [hand]
    rfl
  have hstep : ((Above.after w inner).upon (waiting :: (nots' ++ f :: below)) root).step and (upper ++ rest) =
      .ok ((Above.operand []).upon (bounded :: (nots' ++ f :: below)) root, false) :=
    step_upTo hand hwaits hclose (.inr ⟨waiting, _, rfl, rfl⟩) _
  have hnode : Edge (.node (.op .between) [v, lo, hi]) (inner' ++ [bounded]) w' :=
    hedge''.node s [lo, v] rfl (spine_between v lo hi)
  refine ⟨nots', inner' ++ [bounded], w', hgrounded', hnots', hnode, ?_⟩
  have hsplit : words ++ (joint ++ (lower ++ and :: upper)) ++ rest =
      words ++ (joint ++ (lower ++ and :: (upper ++ rest))) := by simp
  rw [hsplit, hrun, hopen _ (by simp), upon_append]
  exact hrun'.trans ((runTokens_of_step hlast hstep).trans hrun'')

/-- A negation inside of the words is left open under what it belongs around. -/
theorem leaves_negation (ih : Leaves k (n + 1) (.tree t) words) :
    Leaves k n (.tree (.node (.op .not) [t])) words := by
  intro f below root more hf
  obtain ⟨nots, left, u, hgrounded, hnots, hedge, hrun⟩ := ih f below root more hf
  cases nots with
  | nil => cases hnots
  | cons g nots =>
    obtain ⟨hg, hrest⟩ := List.forall_mem_cons.1 hgrounded.negations
    obtain ⟨tag, s, done⟩ := g
    obtain ⟨rfl, rfl⟩ := hg
    have hnode : Edge (.node (.op .not) [t]) (left ++ [⟨.op .not, s, []⟩]) u :=
      hedge.node s [] rfl (spine_before .not t)
    refine ⟨nots, _, u, ⟨hrest, hgrounded.tier_eq⟩, Nat.succ.inj hnots, hnode, ?_⟩
    rw [upon_append]
    exact hrun

/-- The first item of a parenthesis. -/
theorem leaves_item (ih : Leaves (tier .par) 0 (.tree t) words) :
    Leaves (tier .par) 0 (.list [t]) words := by
  intro s base root more
  obtain ⟨nots, left, u, -, hnots, hedge, hrun⟩ := ih ⟨.par, s, []⟩ base root more rfl
  obtain rfl := List.length_eq_zero_iff.1 hnots
  exact ⟨t, [], left, u, rfl, hedge, hrun⟩

/-- The next item of a parenthesis. -/
theorem leaves_comma {ts : List Tree} {comma : Token} (hcomma : comma.kind = .symbol .comma)
    (ih : Leaves (tier .par) 0 (.list ts) words) (iht : Leaves (tier .par) 0 (.tree t) more) :
    Leaves (tier .par) 0 (.list (ts ++ [t])) (words ++ comma :: more) := by
  intro s base root rest
  obtain ⟨first, done, left, u, hts, hedge, hrun⟩ := ih s base root (comma :: (more ++ rest))
  obtain ⟨nots, left', u', -, hnots, hedge', hrun'⟩ := iht ⟨.par, s, first :: done⟩ base root rest rfl
  obtain rfl := List.length_eq_zero_iff.1 hnots
  let par : Frame := ⟨.par, s, done⟩
  have hclose : closeAbove (fun tag => tag != .par) u (left ++ [par]) = some ([par], first) := by
    rw [closeAbove_append (hedge.closeAbove fun _ _ => rfl)]
    rfl
  have hlast : comma.kind.isLast = false := by
    rw [hcomma]
    rfl
  have hfind : (left ++ [par]).find? (fun g => g.tag.isParen) = some par := by
    rw [List.find?_append, List.find?_eq_none.2]
    · rfl
    · intro g hg hparen
      obtain ⟨q, -, htag⟩ := hedge.tags g hg
      rw [htag] at hparen
      cases hparen
  have hstep : ((Above.after u left).upon (par :: base) root).step comma (more ++ rest) =
      .ok ((Above.operand []).upon (⟨.par, s, first :: done⟩ :: base) root, false) := by
    have hbase := upon_append u left [par] base root
    rw [List.singleton_append] at hbase
    rw [← hbase]
    exact step_comma hcomma ((insideExpression_base hfind).trans rfl) hclose (.inl (by simp)) _
  refine ⟨t, first :: done, left', u', ?_, hedge', ?_⟩
  · rw [List.reverse_cons, hts]
  · rw [List.append_assoc, List.cons_append, hrun]
    exact (runTokens_of_step hlast hstep).trans hrun'

/-- **The machine reads the tokens of a derivation to the derived tree.** -/
theorem Derives.leaves {piece : Piece} (h : Derives k n piece words) : Leaves k n piece words := by
  induction h with
  | operand h => exact leaves_leaf h
  | signed hminus h => exact leaves_signed hminus h
  | parenthesis hopening _ hclosing ih => exact leaves_parenthesis hopening hclosing ih
  | before ho hunsigned h ih => exact leaves_before ho hunsigned h.ne_nil ih
  | binary ho _ hedge hground hjoint hlist _ ihl ihr =>
    exact leaves_binary ho hedge hground hjoint hlist ihl ihr
  | between _ hedge hground hjoint _ htight hand _ ihv ihlo ihhi =>
    exact leaves_between hedge hground hjoint htight hand ihv ihlo ihhi
  | negation _ ih => exact leaves_negation ih
  | item _ ih => exact leaves_item ih
  | comma _ hcomma _ ih iht => exact leaves_comma hcomma ih iht

end RelationSql.Grammar
