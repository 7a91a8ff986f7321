import RelationSql.Proofs.Grammar.Regroup
import RelationSql.Proofs.Grammar.Steps

/-!
# Conditions read back from their words

The machine reads the words of a condition into the regrouped condition, whatever stands around it
(`Condition.reads`); a source that consists of a relation and the words of a condition has the
regrouped condition as its filter (`parseTokens_condition`). In a regular condition nothing is
regrouped, so it is read back as it is.
-/

namespace RelationSql.Grammar

open RelationSql.Source (Span Token TokenKind)

/-- From `from_` on, the tokens are used up and leave the open nodes of `t` over `below`. -/
def ReadsOver (t : Tree) (below from_ : List Frame) (tokens : List Token) : Prop :=
  ∀ root rest, ∃ frames, OpenOver t below frames ∧
    runTokens ⟨.operand, from_, root⟩ (tokens ++ rest) = runTokens ⟨.afterOperand, frames, root⟩ rest

/-- What reading the words of `t` leaves, by the node around them. -/
structure Reads (t : Tree) : Prop where
  /-- Inside a node that binds looser. -/
  inside : ∀ tokens f below, Spells (items t) tokens → tier f.tag < outerTier t →
    (f.tag = .op .between → isNegatedBetween t = false) →
    ReadsOver (regroup t) (f :: below) (f :: below) tokens
  /-- In the place of an upper bound, in front of an operator that closes the `between`. -/
  leftmost : ∀ tokens s v lo f below, Spells (items t) tokens → tier f.tag < 29 →
    (∀ q ∈ spine t, 29 ≤ operatorTier q) →
    ReadsOver (graft v lo (regroup t)) (f :: below) (⟨.op .between, s, [lo, v]⟩ :: f :: below) tokens
  /-- As an upper bound. -/
  upper : ∀ tokens s v lo f below, Spells (items t) tokens → tier f.tag < 29 → 29 < outerTier t →
    ReadsOver (bound v lo t) (f :: below) (⟨.op .between, s, [lo, v]⟩ :: f :: below) tokens
  /-- With its operator negated, inside a node that binds looser. -/
  negated : negatedWithin t = true → ∀ tokens f below,
    Spells (items (.node (.op .not) [t])) tokens → tier f.tag < outerTier t →
    ReadsOver (regroup (.node (.op .not) [t])) (f :: below) (f :: below) tokens
  /-- With its `between` negated, as an upper bound. -/
  negatedUpper : isNegatedBetween (.node (.op .not) [t]) = true → ∀ tokens s v lo f below,
    Spells (items (.node (.op .not) [t])) tokens → tier f.tag < 29 →
    ReadsOver (bound v lo (.node (.op .not) [t])) (f :: below)
      (⟨.op .between, s, [lo, v]⟩ :: f :: below) tokens

/-! ## Composition -/

/-- What was read last stands in the upper bound of a `between`. -/
theorem ReadsOver.between {t v lo : Tree} {s : Span} {below from_ : List Frame}
    {tokens : List Token} (h : ReadsOver t (⟨.op .between, s, [lo, v]⟩ :: below) from_ tokens) :
    ReadsOver (.node (.op .between) [v, lo, t]) below from_ tokens := by
  intro root rest
  obtain ⟨frames, hopen, hrun⟩ := h root rest
  exact ⟨frames, .between hopen, hrun⟩

/-- What was read last stands under a negation. -/
theorem ReadsOver.not {t : Tree} {s : Span} {below from_ : List Frame} {tokens : List Token}
    (h : ReadsOver t (⟨.op .not, s, []⟩ :: below) from_ tokens) :
    ReadsOver (.node (.op .not) [t]) below from_ tokens := by
  intro root rest
  obtain ⟨frames, hopen, hrun⟩ := h root rest
  exact ⟨frames, .not hopen, hrun⟩

/-- What was read last stands to the right of an operator. -/
theorem ReadsOver.binary {o : Operator} {l r : Tree} {s : Span} {below from_ : List Frame}
    {tokens : List Token} (ho : o ≠ .between)
    (h : ReadsOver r (⟨.op o, s, [l]⟩ :: below) from_ tokens) :
    ReadsOver (.node (.op o) [l, r]) below from_ tokens := by
  intro root rest
  obtain ⟨frames, hopen, hrun⟩ := h root rest
  exact ⟨frames, .binary ho hopen, hrun⟩

theorem opensList_append {ks : List Token} (h : opensList ks) (js : List Token) :
    opensList (ks ++ js) := by
  cases ks with
  | nil => exact h.elim
  | cons token ks => exact h

/-- After an operand and an operator, the second operand is read over the operator's node. -/
theorem ReadsOver.operator {t u : Tree} {o : Operator} {f : Frame} {below below' from_ : List Frame}
    {ks js : List Token} {token : Token} (ht : ReadsOver t (f :: below) from_ ks)
    (ho : operatorOf? token.kind = some o) (hspine : ∀ q ∈ spine t, operatorTier o ≤ operatorTier q)
    (hf : tier f.tag < operatorTier o) (hin : o = .in_ → opensList js)
    (hu : ReadsOver u below' (⟨.op o, token.span, [t]⟩ :: f :: below) js) :
    ReadsOver u below' from_ (ks ++ token :: js) := by
  intro root rest
  obtain ⟨frames, hopen, hrun⟩ := ht root (token :: js ++ rest)
  obtain ⟨frames', hopen', hrun'⟩ := hu root rest
  refine ⟨frames', hopen', ?_⟩
  rw [List.append_assoc, hrun, List.cons_append,
    runTokens_operator hopen ho hspine hf fun h => opensList_append (hin h) rest, hrun']

/-- After an operand, a `not` and its operator, the second operand is read over both nodes. -/
theorem ReadsOver.notWithin {t u : Tree} {o : Operator} {f : Frame}
    {below below' from_ : List Frame} {ks js : List Token} {token next : Token}
    (ht : ReadsOver t (f :: below) from_ ks) (hnot : token.kind = .keyword .not)
    (ho : operatorOf? next.kind = some o) (hneg : isNegatable o = true)
    (hspine : ∀ q ∈ spine t, operatorTier o ≤ operatorTier q) (hf : tier f.tag < operatorTier o)
    (hin : o = .in_ → opensList js)
    (hu : ReadsOver u below'
      (⟨.op o, next.span, [t]⟩ :: ⟨.op .not, token.span, []⟩ :: f :: below) js) :
    ReadsOver u below' from_ (ks ++ token :: next :: js) := by
  intro root rest
  obtain ⟨frames, hopen, hrun⟩ := ht root (token :: next :: js ++ rest)
  obtain ⟨frames', hopen', hrun'⟩ := hu root rest
  refine ⟨frames', hopen', ?_⟩
  rw [List.append_assoc, hrun, List.cons_append, List.cons_append,
    runTokens_notWithin hopen hnot ho hneg hspine hf fun h => opensList_append (hin h) rest, hrun']

/-- After a lower bound and its `and`, the upper bound is read over the same `between`. -/
theorem ReadsOver.upTo {lo u v : Tree} {s : Span} {below below' from_ : List Frame}
    {ks js : List Token} {token : Token}
    (hlo : ReadsOver lo (⟨.op .between, s, [v]⟩ :: below) from_ ks)
    (hand : token.kind = .keyword .and) (hspine : ∀ q ∈ spine lo, 29 < operatorTier q)
    (hu : ReadsOver u below' (⟨.op .between, s, [lo, v]⟩ :: below) js) :
    ReadsOver u below' from_ (ks ++ token :: js) := by
  intro root rest
  obtain ⟨frames, hopen, hrun⟩ := hlo root (token :: js ++ rest)
  obtain ⟨frames', hopen', hrun'⟩ := hu root rest
  refine ⟨frames', hopen', ?_⟩
  rw [List.append_assoc, hrun, List.cons_append, runTokens_upTo hopen hand hspine, hrun']

/-! ## Each kind of node -/

/-- The tokens of a single operand. -/
theorem readsOver_operand {t : Tree} {f : Frame} {below : List Frame} {tokens : List Token}
    (h : Spells [.operand t] tokens) : ReadsOver t (f :: below) (f :: below) tokens := by
  intro root rest
  refine ⟨_, .closed, ?_⟩
  cases h with
  | cons hk hnil =>
    cases hnil
    exact runTokens_operand hk rest
  | signed hm hs hnil =>
    cases hnil
    exact runTokens_signed hm hs rest

/-- An upper bound that is no negation closes nothing. -/
theorem graft_of_ne {t : Tree} (h : ∀ a b c, t ≠ .node (.op .between) [a, b, c]) (v lo : Tree) :
    graft v lo t = .node (.op .between) [v, lo, t] := by
  unfold graft
  split
  · next a b c => exact absurd rfl (h a b c)
  · rfl

/-- A tree that is no `between` and no negation is read in the place of a bound as anywhere else. -/
theorem reads_of_inside {t : Tree} (hne : ∀ a b c, regroup t ≠ .node (.op .between) [a, b, c])
    (hneg : isNegatedBetween t = false) (hnot : isNegatedBetween (.node (.op .not) [t]) = false)
    (htier : (∀ q ∈ spine t, 29 ≤ operatorTier q) → 29 < outerTier t)
    (inside : ∀ tokens f below, Spells (items t) tokens → tier f.tag < outerTier t →
      ReadsOver (regroup t) (f :: below) (f :: below) tokens)
    (negated : negatedWithin t = true → ∀ tokens f below,
      Spells (items (.node (.op .not) [t])) tokens → tier f.tag < outerTier t →
      ReadsOver (regroup (.node (.op .not) [t])) (f :: below) (f :: below) tokens) :
    Reads t where
  inside := fun tokens f below h hf _ => inside tokens f below h hf
  leftmost := by
    intro tokens s v lo f below h _ hspine
    rw [graft_of_ne hne]
    exact (inside _ ⟨.op .between, s, [lo, v]⟩ _ h (htier hspine)).between
  upper := by
    intro tokens s v lo f below h _ hlt
    rw [bound_of_not_negated hneg]
    exact (inside _ ⟨.op .between, s, [lo, v]⟩ _ h hlt).between
  negated := negated
  negatedUpper := by
    intro h
    rw [hnot] at h
    cases h

/-- Words that start with a parenthesis are spelled by tokens that do. -/
theorem Condition.opensList {leaf : Tree → Prop} {t : Tree} (h : Condition leaf t)
    (ht : startsWithParen t = true) {words : List Item} {tokens : List Token}
    (hs : Spells (items t ++ words) tokens) : opensList tokens := by
  induction h generalizing words with
  | @leaf t hleaf _ =>
    unfold isLeaf at hleaf
    unfold startsWithParen at ht
    split at hleaf <;> simp_all
  | par _ _ _ =>
    rw [items_par] at hs
    cases hs with
    | cons hk _ => exact hk
  | binary ho _ _ _ _ _ ihl _ =>
    obtain ⟨hnot, -⟩ := isBinary_iff.1 ho
    rw [items_binary ho, List.append_assoc] at hs
    exact ihl (by simpa [startsWithParen, hnot] using ht) hs
  | between _ _ _ _ _ _ _ ihv _ _ =>
    rw [items_between, List.append_assoc, List.append_assoc] at hs
    exact ihv ht hs
  | not => cases ht

theorem reads_leaf {t : Tree} (h : isLeaf t = true) : Reads t := by
  apply reads_of_inside
  · rw [regroup_leaf h]
    rintro a b c rfl
    cases h
  · unfold isNegatedBetween
    split
    · cases h
    · rfl
  · unfold isNegatedBetween
    split
    · next heq => cases heq; cases h
    · rfl
  · intro _
    rw [outerTier_leaf h]
    decide
  · intro tokens f below hs _
    rw [items_leaf h] at hs
    rw [regroup_leaf h]
    exact readsOver_operand hs
  · intro hneg
    unfold negatedWithin at hneg
    split at hneg
    · cases h
    · cases h
    · cases hneg

/-! ### Parentheses -/

/-- The tier of an operator or a leaf lies above those of the clauses. -/
theorem le_outerTier (t : Tree) : 24 ≤ outerTier t := by
  unfold outerTier
  split
  · decide
  · next o _ _ => exact (operatorTier_bounds o).1
  · decide

/-- The words of a list are read into the parenthesis around it; the last tree is still open. -/
theorem readsOver_list {ts : List Tree} (hne : ts ≠ []) (h : ∀ t ∈ ts, Reads t) {s : Span}
    {below : List Frame} (done : List Tree) {tokens : List Token}
    (hs : Spells (itemsAll ts) tokens) (root : List Tree) (rest : List Token) :
    ∃ frames t done', OpenOver t (⟨.par, s, done'⟩ :: below) frames ∧
      t :: done' = (regroupAll ts).reverse ++ done ∧
      runTokens ⟨.operand, ⟨.par, s, done⟩ :: below, root⟩ (tokens ++ rest) =
        runTokens ⟨.afterOperand, frames, root⟩ rest := by
  induction ts generalizing done tokens with
  | nil => exact absurd rfl hne
  | cons t ts ih =>
    have ht := h t List.mem_cons_self
    have hpar : tier .par < outerTier t := Int.lt_of_lt_of_le (by decide) (le_outerTier t)
    cases ts with
    | nil =>
      rw [itemsAll_singleton] at hs
      obtain ⟨frames, hopen, hrun⟩ :=
        ht.inside _ ⟨.par, s, done⟩ below hs hpar (fun heq => nomatch heq) root rest
      exact ⟨frames, regroup t, done, hopen, by simp [regroupAll], hrun⟩
    | cons u ts =>
      rw [itemsAll_cons_cons] at hs
      obtain ⟨ks, comma, js, rfl, hks, hcomma, hjs⟩ := hs.of_append_cons (by simp)
      obtain ⟨frames, hopen, hrun⟩ :=
        ht.inside _ ⟨.par, s, done⟩ below hks hpar (fun heq => nomatch heq) root
          (comma :: js ++ rest)
      have hmore : ∀ t ∈ u :: ts, Reads t := fun v hv => h v (List.mem_cons_of_mem _ hv)
      obtain ⟨frames', last, done', hopen', hdone, hrun'⟩ :=
        ih (by simp) hmore (regroup t :: done) hjs
      refine ⟨frames', last, done', hopen', ?_, ?_⟩
      · rw [hdone]
        simp [regroupAll]
      · rw [List.append_assoc, hrun, List.cons_append, runTokens_comma hopen hcomma, hrun']

theorem reads_par {ts : List Tree} (hne : ts ≠ []) (h : ∀ t ∈ ts, Reads t) :
    Reads (.node .par ts) := by
  apply reads_of_inside
  · simp
  · rfl
  · rfl
  · intro _
    rw [outerTier_par]
    decide
  · intro tokens f below hs _ root rest
    rw [items_par, List.cons_append] at hs
    cases hs with
    | cons hopening hs =>
      obtain ⟨ks, closing, js, rfl, hks, hclosing, hjs⟩ := hs.of_append_cons (by simp)
      cases hjs
      next token =>
      obtain ⟨frames, last, done', hopen, hdone, hrun⟩ :=
        readsOver_list hne h (s := token.span) [] hks root
          (closing :: rest)
      refine ⟨_, .closed, ?_⟩
      rw [List.cons_append, runTokens_opening hopening, List.append_assoc, List.singleton_append,
        hrun, runTokens_closing hopen hclosing, hdone, regroup_par]
      simp
  · exact fun hneg => nomatch hneg

/-! ### Operators -/

/-- A bound on the operators along the right edge of a tree is one on its outer tier. -/
theorem Condition.le_outerTier {leaf : Tree → Prop} {t : Tree} (h : Condition leaf t) {k : Int}
    (hk : k ≤ 60) (hspine : ∀ q ∈ spine t, k ≤ operatorTier q) : k ≤ outerTier t := by
  cases h with
  | leaf ht _ => rwa [outerTier_leaf ht]
  | par => exact hk
  | binary ho =>
    obtain ⟨hnot, -⟩ := isBinary_iff.1 ho
    rw [outerTier_op hnot]
    exact hspine _ (by simp)
  | between => exact hspine .between (by simp)
  | not =>
    have hle : k ≤ 28 := hspine .not (by simp)
    rw [outerTier_not]
    exact Int.le_trans hle (by decide)

/-- A tree to the left of an operator is read inside the nodes that the operator leaves open. -/
theorem Reads.left {leaf : Tree → Prop} {l : Tree} (hl : Reads l) (cl : Condition leaf l) {k : Int}
    (hk : k ≤ 60) (hspine : ∀ q ∈ spine l, k ≤ operatorTier q) {tokens : List Token} {f : Frame}
    {below : List Frame} (hs : Spells (items l) tokens) (hf : tier f.tag < k) :
    ReadsOver (regroup l) (f :: below) (f :: below) tokens := by
  apply hl.inside _ f _ hs
  · exact Int.lt_of_lt_of_le hf (cl.le_outerTier hk hspine)
  · intro htag
    cases hneg : isNegatedBetween l with
    | false => rfl
    | true =>
      -- the edge of a negation is looser than every operator that leaves a `between` open
      obtain ⟨a, b, c, rfl⟩ := isNegatedBetween_eq_true hneg
      rw [htag] at hf
      have hle : k ≤ 28 := hspine .not (by simp)
      exact absurd (Int.lt_of_lt_of_le hf hle) (by decide)

theorem operatorTier_le (o : Operator) : operatorTier o ≤ 60 :=
  Int.le_trans (operatorTier_bounds o).2 (by decide)

theorem reads_binary {leaf : Tree → Prop} {o : Operator} {l r : Tree} (ho : isBinary o = true)
    (cl : Condition leaf l) (hleft : ∀ q ∈ spine l, operatorTier o ≤ operatorTier q)
    (cr : Condition leaf r) (hright : operatorTier o < outerTier r)
    (hlist : o = .in_ → startsWithParen r = true) (hl : Reads l) (hr : Reads r) :
    Reads (.node (.op o) [l, r]) := by
  obtain ⟨hnot, -, -, -, hbetween⟩ := isBinary_iff.1 ho
  have hregroup : ∀ q ∈ spine (regroup l), operatorTier o ≤ operatorTier q := fun q hq =>
    hleft q (cl.edgeKept.regroup q hq)
  have hopens : ∀ {js}, Spells (items r) js → o = .in_ → opensList js := by
    intro js hjs heq
    rw [← List.append_nil (items r)] at hjs
    exact cr.opensList (hlist heq) hjs
  have hinr : ∀ {js : List Token} {s : Span} {left : Tree} {below : List Frame},
      Spells (items r) js → ReadsOver (.node (.op o) [left, regroup r]) below
        (⟨.op o, s, [left]⟩ :: below) js := by
    intro js s left below hjs
    apply ReadsOver.binary hbetween
    exact hr.inside _ ⟨.op o, s, [left]⟩ _ hjs hright fun heq =>
      absurd (Tag.op.inj heq) hbetween
  apply reads_of_inside
  · simp
  · simp [isNegatedBetween]
  · simp [isNegatedBetween]
  · intro hspine
    have hlt := hspine o (by simp)
    rw [outerTier_op hnot]
    rcases tier_of_isBinary ho with h | h
    · exact absurd (Int.le_trans hlt h) (by decide)
    · exact Int.lt_of_lt_of_le (by decide) h
  · intro tokens f below hs hf
    rw [outerTier_op hnot] at hf
    rw [items_binary ho] at hs
    obtain ⟨ks, token, js, rfl, hks, htoken, hjs⟩ := hs.of_append_cons (by simp)
    rw [regroup_binary]
    exact (hl.left cl (operatorTier_le o) hleft hks hf).operator htoken hregroup hf (hopens hjs)
      (hinr hjs)
  · intro hneg tokens f below hs hf
    rw [outerTier_op hnot] at hf
    have hplace : Expression.negatesInPlace o = true := by
      simpa [negatedWithin] using hneg
    rw [items_not_within hplace] at hs
    obtain ⟨ks, token, js, rfl, hks, htoken, hjs⟩ := hs.of_append_cons (by simp)
    cases hjs with
    | cons hnext hjs =>
      rw [regroup_not, regroup_binary]
      exact (hl.left cl (operatorTier_le o) hleft hks hf).notWithin htoken hnext
        (by simp [isNegatable, hplace]) hregroup hf (hopens hjs) (hinr hjs).not

/-! ### `between` -/

/-- Every tier above that of `between` leaves it open. -/
theorem between_lt : tier (.op .between) < 30 := by decide

/-- A negation leaves the `between` under it open. -/
theorem not_lt : tier (.op .not) < 29 := by decide

/-- Both bounds of a `between` whose value was read. -/
theorem readsOver_bounds {leaf : Tree → Prop} {lo hi : Tree} (clo : Condition leaf lo)
    (hspine : ∀ q ∈ spine lo, 29 < operatorTier q) (hlo : Reads lo) (hhi : Reads hi)
    (houter : 29 < outerTier hi) {g : Frame} (hg : tier g.tag < 29) {vt : Tree} {s : Span}
    {below : List Frame} {tokens : List Token}
    (hs : Spells (items lo ++ .upTo :: items hi) tokens) :
    ReadsOver (bound vt (regroup lo) hi) (g :: below) (⟨.op .between, s, [vt]⟩ :: g :: below)
      tokens := by
  obtain ⟨ks, token, js, rfl, hks, hand, hjs⟩ := hs.of_append_cons (by simp)
  have hlow : ReadsOver (regroup lo) (⟨.op .between, s, [vt]⟩ :: g :: below)
      (⟨.op .between, s, [vt]⟩ :: g :: below) ks :=
    hlo.left clo (k := 30) (by decide) hspine hks between_lt
  apply hlow.upTo hand
  · exact fun q hq => hspine q (clo.edgeKept.regroup q hq)
  · exact hhi.upper js s vt (regroup lo) g below hjs hg houter

theorem reads_between {leaf : Tree → Prop} {v lo hi : Tree} (cv : Condition leaf v)
    (hvspine : ∀ q ∈ spine v, 29 ≤ operatorTier q) (clo : Condition leaf lo)
    (hlospine : ∀ q ∈ spine lo, 29 < operatorTier q) (houter : 29 < outerTier hi)
    (hv : Reads v) (hlo : Reads lo) (hhi : Reads hi) :
    Reads (.node (.op .between) [v, lo, hi]) := by
  have hvregroup : ∀ q ∈ spine (regroup v), 29 ≤ operatorTier q := fun q hq =>
    hvspine q (cv.edgeKept.regroup q hq)
  have hgraft : ∀ v' lo', ∀ q ∈ spine (graft v' lo' (regroup v)), 29 ≤ operatorTier q := by
    intro v' lo' q hq
    rcases mem_spine_graft hq with rfl | hq
    · decide
    · exact hvregroup q hq
  refine ⟨?_, ?_, ?_, ?_, ?_⟩
  · intro tokens f below hs hf _
    rw [items_between] at hs
    simp only [List.append_assoc, List.cons_append] at hs
    obtain ⟨ks, token, js, rfl, hks, htoken, hjs⟩ := hs.of_append_cons (by simp)
    rw [regroup_between]
    exact (hv.left cv (by decide) hvspine hks hf).operator htoken hvregroup hf (by simp)
      (readsOver_bounds clo hlospine hlo hhi houter hf hjs)
  · intro tokens s v' lo' f below hs hf hspine
    rw [items_between] at hs
    simp only [List.append_assoc, List.cons_append] at hs
    obtain ⟨ks, token, js, rfl, hks, htoken, hjs⟩ := hs.of_append_cons (by simp)
    -- on a tight edge the upper bound is no negation, so the value takes the outer `between` in
    have hneg : isNegatedBetween hi = false := by
      cases hneg : isNegatedBetween hi with
      | false => rfl
      | true =>
        obtain ⟨a, b, c, rfl⟩ := isNegatedBetween_eq_true hneg
        exact absurd (hspine .not (by simp)) (by decide)
    have hgrafted : graft v' lo' (regroup (.node (.op .between) [v, lo, hi])) =
        bound (graft v' lo' (regroup v)) (regroup lo) hi := by
      rw [regroup_between, bound_of_not_negated hneg, bound_of_not_negated hneg, graft]
    rw [hgrafted]
    exact (hv.leftmost ks s v' lo' f below hks hf hvspine).operator htoken (hgraft v' lo') hf
      (by simp) (readsOver_bounds clo hlospine hlo hhi houter hf hjs)
  · intro _ _ _ _ _ _ _ _ hlt
    rw [outerTier_between] at hlt
    exact absurd hlt (by decide)
  · intro _ tokens f below hs hf
    rw [items_not_between] at hs
    simp only [List.append_assoc, List.cons_append] at hs
    obtain ⟨ks, token, js, rfl, hks, hnot, hjs⟩ := hs.of_append_cons (by simp)
    cases hjs with
    | cons hnext hjs =>
      rw [regroup_not, regroup_between]
      exact (hv.left cv (by decide) hvspine hks hf).notWithin hnot hnext rfl hvregroup hf (by simp)
        (readsOver_bounds (g := ⟨.op .not, _, []⟩) clo hlospine hlo hhi houter not_lt hjs).not
  · intro _ tokens s v' lo' f below hs hf
    rw [items_not_between] at hs
    simp only [List.append_assoc, List.cons_append] at hs
    obtain ⟨ks, token, js, rfl, hks, hnot, hjs⟩ := hs.of_append_cons (by simp)
    cases hjs with
    | cons hnext hjs =>
      rw [bound_negated]
      exact (hv.leftmost ks s v' lo' f below hks hf hvspine).notWithin hnot hnext rfl (hgraft v' lo')
        hf (by simp)
        (readsOver_bounds (g := ⟨.op .not, _, []⟩) clo hlospine hlo hhi houter not_lt hjs).not

/-! ### Negations -/

theorem eq_between_of_tier {tag : Tag} (h : tier tag = 29) : tag = .op .between := by
  cases tag with
  | op o => cases o <;> first | rfl | cases h
  | _ => cases h

/-- The node around a negation leaves the operator of the negation open. -/
theorem tier_lt_of_negatedWithin {t : Tree} (h : negatedWithin t = true) {f : Frame}
    (hf : tier f.tag < 30)
    (hne : f.tag = .op .between → isNegatedBetween (.node (.op .not) [t]) = false) :
    tier f.tag < outerTier t := by
  unfold negatedWithin at h
  split at h
  · have hnot : tier f.tag ≠ 29 := fun heq => by cases hne (eq_between_of_tier heq)
    rw [outerTier_between]
    omega
  · next o _ _ =>
    have htier : operatorTier o = 30 ∧ o ≠ .not := by
      revert h
      cases o <;> decide
    rw [outerTier_op htier.2, htier.1]
    exact hf
  · cases h

theorem reads_not {t : Tree} (ht : Reads t) (houter : 28 < outerTier t) :
    Reads (.node (.op .not) [t]) := by
  have inside : ∀ tokens f below, Spells (items (.node (.op .not) [t])) tokens → tier f.tag < 30 →
      (f.tag = .op .between → isNegatedBetween (.node (.op .not) [t]) = false) →
      ReadsOver (regroup (.node (.op .not) [t])) (f :: below) (f :: below) tokens := by
    intro tokens f below hs hf hne
    cases hneg : negatedWithin t with
    | true => exact ht.negated hneg tokens f below hs (tier_lt_of_negatedWithin hneg hf hne)
    | false =>
      rw [items_not_before hneg] at hs
      cases hs with
      | @cons _ token _ tokens hnot hs =>
        intro root rest
        have hinner := ht.inside tokens ⟨.op .not, token.span, []⟩ (f :: below) hs houter
          (fun heq => nomatch heq)
        obtain ⟨frames, hopen, hrun⟩ := hinner.not root rest
        refine ⟨frames, ?_, ?_⟩
        · rw [regroup_not]
          exact hopen
        · rw [List.cons_append, runTokens_notBefore hnot, hrun]
  refine ⟨inside, ?_, ?_, ?_, ?_⟩
  · intro _ _ _ _ _ _ _ _ hspine
    exact absurd (hspine .not (by simp)) (by decide)
  · intro tokens s v lo f below hs hf _
    cases hneg : isNegatedBetween (.node (.op .not) [t]) with
    | true => exact ht.negatedUpper hneg tokens s v lo f below hs hf
    | false =>
      rw [bound_of_not_negated hneg]
      exact (inside tokens ⟨.op .between, s, [lo, v]⟩ _ hs between_lt fun _ => hneg).between
  · exact fun hneg => nomatch hneg
  · exact fun hneg => nomatch hneg

/-- **The words of a condition are read into the regrouped condition.** -/
theorem Condition.reads {leaf : Tree → Prop} {t : Tree} (h : Condition leaf t) : Reads t := by
  induction h with
  | leaf ht _ => exact reads_leaf ht
  | par hne _ ih => exact reads_par hne ih
  | binary ho cl hleft cr hright hlist ihl ihr =>
    exact reads_binary ho cl hleft cr hright hlist ihl ihr
  | between cv hv clo _ hlo _ hhi ihv ihlo ihhi =>
    exact reads_between cv hv clo hlo hhi ihv ihlo ihhi
  | not _ houter ih => exact reads_not ih houter

/-! ## A relation with a condition -/

/-- The tree of a relation with a condition. -/
def filtered (name : String) (t : Tree) : Tree :=
  .node .query [.node .filter [.leaf .relation name, t]]

/-- Over the name of a relation and the `where`, the machine opens a filter. -/
theorem runTokens_where {name : String} {relation where_ : Token}
    (hrelation : relation.kind = .name name) (hwhere : where_.kind = .keyword .where_)
    (rest : List Token) :
    parseTokens (relation :: where_ :: rest) =
      runTokens ⟨.operand, [⟨.filter, where_.span, [.leaf .relation name]⟩], []⟩ rest := by
  have hopened : runTokens .start (relation :: where_ :: rest) =
      runTokens ⟨.afterRelation, [⟨.relation, relation.span, [.atom name]⟩], []⟩
        (where_ :: rest) := by
    apply runTokens_one
    · rw [hrelation]
      rfl
    · simp only [Machine.step, Machine.start, Machine.relation, hrelation]
      rfl
  rw [parseTokens, hopened]
  apply runTokens_one
  · rw [hwhere]
    rfl
  · simp only [Machine.step, Machine.afterRelation, hwhere]
    rfl

/-- At the end of the source all open nodes are closed. -/
theorem finish_openOver {t : Tree} {s : Span} {relation : Tree} {frames : List Frame}
    (h : OpenOver t [⟨.filter, s, [relation]⟩] frames) (last : Token) :
    Machine.finish ⟨.afterOperand, frames, []⟩ last =
      .ok (.node .query [.node .filter [relation, t]]) := by
  have hparen : Machine.paren? ⟨.afterOperand, frames, []⟩ = none := by
    have hnone := find_paren_openOver h
    simpa [Machine.paren?, Tag.isParen] using hnone
  have hclose := Machine.closeFrames_openOver (p := fun _ => true) h (fun _ _ => rfl) []
  rw [Machine.closeFrames_close rfl _ _ _ rfl] at hclose
  simp [Machine.finish, Expect.acceptsEnd, hparen, Machine.closeWhile?, hclose,
    Machine.closeFrames, orNear, Frame.tree, bind, Except.bind, pure, Except.pure]

/-- **A relation and the words of a condition are read as the relation with the regrouped
condition.** -/
theorem parseTokens_condition {leaf : Tree → Prop} {t : Tree} (h : Condition leaf t)
    {name : String} {relation where_ last : Token} {tokens : List Token}
    (hrelation : relation.kind = .name name) (hwhere : where_.kind = .keyword .where_)
    (hs : Spells (items t) tokens) (hlast : last.kind = .finish) :
    parseTokens (relation :: where_ :: tokens ++ [last]) = .ok (filtered name (regroup t)) := by
  have hfilter : tier .filter < outerTier t := Int.lt_of_lt_of_le (by decide) (le_outerTier t)
  obtain ⟨frames, hopen, hrun⟩ :=
    h.reads.inside tokens ⟨.filter, where_.span, [.leaf .relation name]⟩ [] hs hfilter
      (fun heq => nomatch heq) [] [last]
  rw [List.cons_append, List.cons_append, runTokens_where hrelation hwhere, hrun]
  have hend : runTokens ⟨.afterOperand, frames, []⟩ [last] =
      Machine.finish ⟨.afterOperand, frames, []⟩ last := by
    rw [runTokens]
    simp [hlast]
  rw [hend, finish_openOver hopen]
  rfl

end RelationSql.Grammar
