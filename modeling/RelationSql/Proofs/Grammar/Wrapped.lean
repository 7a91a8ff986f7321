import RelationSql.Proofs.Grammar.Regroup

/-!
# Alternatives in parentheses

`wrapOr` puts a parenthesis around every alternative of two conditions that does not fill one by
itself already. Wrapping keeps conditions (`Condition.wrapOr`) and regular trees
(`isRegular_wrapOr`).
-/

namespace RelationSql.Grammar

/-- A parenthesis around an alternative; any other tree stays as it is. -/
def parenthesised : Tree → Tree
  | .node (.op .or) ts => .node .par [.node (.op .or) ts]
  | t => t

mutual

/-- Wraps the alternatives below the root of a tree. -/
def wrapBelow : Tree → Tree
  | .atom text => .atom text
  -- a parenthesis with a single tree already is the parenthesis of that tree
  | .node .par [t] => .node .par [wrapBelow t]
  | .node tag ts => .node tag (wrapAll ts)

/-- Wraps the alternatives of a list. -/
def wrapAll : List Tree → List Tree
  | [] => []
  | t :: ts => parenthesised (wrapBelow t) :: wrapAll ts

end

/-- Wraps the alternatives of a tree. -/
def wrapOr (t : Tree) : Tree :=
  parenthesised (wrapBelow t)

/-- Is the tree an alternative? -/
def isOr (t : Tree) : Bool :=
  t.tag? == some (.op .or)

theorem wrapAll_eq_map (ts : List Tree) : wrapAll ts = ts.map wrapOr := by
  induction ts with
  | nil => simp [wrapAll]
  | cons t ts ih => rw [wrapAll, ih, List.map_cons, wrapOr]

theorem parenthesised_of_isOr {t : Tree} (h : isOr t = false) : parenthesised t = t := by
  unfold parenthesised
  split
  · cases h
  · rfl

/-- Wrapping below the root keeps the tag of the root. -/
theorem tag?_wrapBelow (t : Tree) : (wrapBelow t).tag? = t.tag? := by
  unfold wrapBelow
  split <;> rfl

/-! ## Each kind of node -/

theorem wrapBelow_op (o : Operator) (ts : List Tree) :
    wrapBelow (.node (.op o) ts) = .node (.op o) (ts.map wrapOr) := by
  rw [wrapBelow, wrapAll_eq_map]
  simp

/-- An operator other than `or` is not wrapped. -/
theorem wrapOr_op {o : Operator} (h : o ≠ .or) (ts : List Tree) :
    wrapOr (.node (.op o) ts) = .node (.op o) (ts.map wrapOr) := by
  rw [wrapOr, wrapBelow_op, parenthesised_of_isOr]
  cases o <;> first | rfl | exact absurd rfl h

theorem wrapOr_or (ts : List Tree) :
    wrapOr (.node (.op .or) ts) = .node .par [.node (.op .or) (ts.map wrapOr)] := by
  rw [wrapOr, wrapBelow_op, parenthesised]

/-- A parenthesis stays a parenthesis. -/
theorem wrapBelow_par (ts : List Tree) : wrapBelow (.node .par ts) = .node .par (ts.map wrapOr) ∨
    ∃ t, ts = [t] ∧ isOr t = true ∧ wrapBelow (.node .par ts) = .node .par [wrapBelow t] := by
  cases ts with
  | nil => exact Or.inl (by simp [wrapBelow, wrapAll])
  | cons t ts =>
    cases ts with
    | nil =>
      cases ht : isOr t with
      | true => exact Or.inr ⟨t, rfl, ht, by rw [wrapBelow]⟩
      | false =>
        have hbelow : isOr (wrapBelow t) = false := by
          rw [isOr, tag?_wrapBelow]
          exact ht
        left
        rw [wrapBelow, List.map_singleton, wrapOr, parenthesised_of_isOr hbelow]
    | cons u ts =>
      left
      rw [wrapBelow, wrapAll_eq_map]
      simp

/-- A parenthesis that holds more than an alternative has the wrapped trees in it. -/
theorem wrapOr_par {ts : List Tree} (h : ∀ t, ts = [t] → isOr t = false) :
    wrapOr (.node .par ts) = .node .par (ts.map wrapOr) := by
  rcases wrapBelow_par ts with heq | ⟨t, hts, hor, -⟩
  · rw [wrapOr, heq, parenthesised]
    simp
  · rw [h t hts] at hor
    cases hor

/-- An alternative in a parenthesis of its own is wrapped like the alternative. -/
theorem wrapOr_par_or (ts : List Tree) :
    wrapOr (.node .par [.node (.op .or) ts]) = wrapOr (.node (.op .or) ts) := by
  rw [wrapOr_or, wrapOr, wrapBelow, wrapBelow_op, parenthesised]
  simp

/-! ## What wrapping keeps -/

/-- Wrapping the alternatives below the root of a tree keeps its shape. -/
structure BelowKept (leaf : Tree → Prop) (t : Tree) : Prop where
  condition : Condition leaf (wrapBelow t)
  spine : ∀ q ∈ spine (wrapBelow t), q ∈ spine t
  outer : outerTier (wrapBelow t) = outerTier t
  starts : startsWithParen t = true → startsWithParen (wrapBelow t) = true
  regular : isRegular (wrapBelow t) = isRegular t
  negated : isNegatedBetween (wrapBelow t) = isNegatedBetween t
  negation : isNegatedBetween (.node (.op .not) [wrapOr t]) =
    isNegatedBetween (.node (.op .not) [t])

section Parenthesised

variable {leaf : Tree → Prop} {t : Tree}

/-- A tree is put into a parenthesis, or it stays as it is. -/
theorem parenthesised_cases (t : Tree) : parenthesised t = t ∨
    ∃ ts, t = .node (.op .or) ts ∧ parenthesised t = .node .par [t] := by
  unfold parenthesised
  split
  · next ts => exact Or.inr ⟨ts, rfl, rfl⟩
  · exact Or.inl rfl

theorem Condition.parenthesised (h : Condition leaf t) : Condition leaf (parenthesised t) := by
  rcases parenthesised_cases t with heq | ⟨ts, -, heq⟩
  · rwa [heq]
  · rw [heq]
    exact .par (by simp) (by simpa using h)

theorem mem_spine_parenthesised {q : Operator} (h : q ∈ spine (parenthesised t)) :
    q ∈ spine t := by
  rcases parenthesised_cases t with heq | ⟨ts, -, heq⟩
  · rwa [heq] at h
  · rw [heq, spine_par] at h
    cases h

theorem le_outerTier_parenthesised (t : Tree) : outerTier t ≤ outerTier (parenthesised t) := by
  rcases parenthesised_cases t with heq | ⟨ts, rfl, heq⟩
  · exact Int.le_of_eq (congrArg outerTier heq.symm)
  · rw [heq]
    show operatorTier .or ≤ 60
    decide

theorem startsWithParen_parenthesised (h : startsWithParen t = true) :
    startsWithParen (parenthesised t) = true := by
  rcases parenthesised_cases t with heq | ⟨ts, -, heq⟩
  · rwa [heq]
  · rw [heq]
    rfl

theorem isRegular_parenthesised (t : Tree) : isRegular (parenthesised t) = isRegular t := by
  rcases parenthesised_cases t with heq | ⟨ts, -, heq⟩
  · rw [heq]
  · rw [heq]
    simp [isRegular, areRegular]

theorem isNegatedBetween_parenthesised (t : Tree) :
    isNegatedBetween (parenthesised t) = isNegatedBetween t := by
  rcases parenthesised_cases t with heq | ⟨ts, rfl, heq⟩
  · rw [heq]
  · rw [heq]
    simp [isNegatedBetween]

end Parenthesised

namespace BelowKept

variable {leaf : Tree → Prop} {t : Tree}

theorem wrapped (h : BelowKept leaf t) : Condition leaf (wrapOr t) :=
  h.condition.parenthesised

theorem spine_wrapOr (h : BelowKept leaf t) : ∀ q ∈ Grammar.spine (wrapOr t), q ∈ Grammar.spine t :=
  fun q hq => h.spine q (mem_spine_parenthesised hq)

theorem le_outerTier (h : BelowKept leaf t) : outerTier t ≤ outerTier (wrapOr t) := by
  rw [← h.outer]
  exact le_outerTier_parenthesised _

theorem starts_wrapOr (h : BelowKept leaf t) (ht : startsWithParen t = true) :
    startsWithParen (wrapOr t) = true :=
  startsWithParen_parenthesised (h.starts ht)

theorem regular_wrapOr (h : BelowKept leaf t) : isRegular (wrapOr t) = isRegular t := by
  rw [wrapOr, isRegular_parenthesised, h.regular]

theorem negated_wrapOr (h : BelowKept leaf t) :
    isNegatedBetween (wrapOr t) = isNegatedBetween t := by
  rw [wrapOr, isNegatedBetween_parenthesised, h.negated]

end BelowKept

/-! ## Wrapped conditions -/

variable {leaf : Tree → Prop}

theorem isNegatedBetween_of_tag {tag : Tag} (h : tag ≠ .op .not) (ts : List Tree) :
    isNegatedBetween (.node tag ts) = false := by
  unfold isNegatedBetween
  split
  · next heq => cases heq; exact absurd rfl h
  · rfl

theorem isNegatedBetween_not_of_tag {t : Tree} (h : t.tag? ≠ some (.op .between)) :
    isNegatedBetween (.node (.op .not) [t]) = false := by
  unfold isNegatedBetween
  split
  · next heq => cases heq; exact absurd rfl h
  · rfl

/-- The negation of a tree that is no `between` is no negated `between`, wrapped or not. -/
theorem negation_of_tag {t : Tree} (h : t.tag? ≠ some (.op .between)) :
    isNegatedBetween (.node (.op .not) [wrapOr t]) = isNegatedBetween (.node (.op .not) [t]) := by
  have hwrapped : (wrapOr t).tag? ≠ some (.op .between) := by
    rcases parenthesised_cases (wrapBelow t) with heq | ⟨ts, -, heq⟩
    · rw [wrapOr, heq, tag?_wrapBelow]
      exact h
    · rw [wrapOr, heq]
      simp [Tree.tag?]
  rw [isNegatedBetween_not_of_tag h, isNegatedBetween_not_of_tag hwrapped]

theorem areRegular_map {ts : List Tree} (h : ∀ t ∈ ts, isRegular (wrapOr t) = isRegular t) :
    areRegular (ts.map wrapOr) = areRegular ts := by
  induction ts with
  | nil => rfl
  | cons t ts ih =>
    rw [List.forall_mem_cons] at h
    rw [List.map_cons, areRegular, areRegular, h.1, ih h.2]

theorem Condition.belowKept_par {ts : List Tree} (hne : ts ≠ [])
    (h : ∀ t ∈ ts, BelowKept leaf t) : BelowKept leaf (.node .par ts) := by
  have hcases : ∃ us, wrapBelow (.node .par ts) = .node .par us ∧ us ≠ [] ∧
      (∀ u ∈ us, Condition leaf u) ∧ areRegular us = areRegular ts := by
    rcases wrapBelow_par ts with heq | ⟨t, rfl, -, heq⟩
    · refine ⟨_, heq, by simpa using hne, ?_, areRegular_map fun t ht => (h t ht).regular_wrapOr⟩
      intro u hu
      obtain ⟨t, ht, rfl⟩ := List.mem_map.1 hu
      exact (h t ht).wrapped
    · have ht := h t List.mem_cons_self
      exact ⟨_, heq, by simp, by simpa using ht.condition, by simp [areRegular, ht.regular]⟩
  obtain ⟨us, heq, hus, hall, hregular⟩ := hcases
  refine ⟨?_, ?_, ?_, ?_, ?_, ?_, ?_⟩
  · rw [heq]
    exact .par hus hall
  · simp [heq]
  · simp [heq]
  · exact fun _ => by rw [heq]; rfl
  · rw [heq, isRegular, isRegular, hregular]
  · rw [heq, isNegatedBetween_of_tag (by simp), isNegatedBetween_of_tag (by simp)]
  · exact negation_of_tag (by simp [Tree.tag?])

theorem Condition.belowKept_binary {o : Operator} {l r : Tree} (ho : isBinary o = true)
    (hleft : ∀ q ∈ spine l, operatorTier o ≤ operatorTier q) (hright : operatorTier o < outerTier r)
    (hlist : o = .in_ → startsWithParen r = true) (hl : BelowKept leaf l) (hr : BelowKept leaf r) :
    BelowKept leaf (.node (.op o) [l, r]) := by
  obtain ⟨hnot, -, -, -, hbetween⟩ := isBinary_iff.1 ho
  have heq : wrapBelow (.node (.op o) [l, r]) = .node (.op o) [wrapOr l, wrapOr r] :=
    wrapBelow_op o [l, r]
  have hregular : ∀ a b, isRegular (.node (.op o) [a, b]) = (isRegular a && isRegular b) := by
    intro a b
    simp [isRegular, areRegular]
  refine ⟨?_, ?_, ?_, ?_, ?_, ?_, ?_⟩
  · rw [heq]
    refine .binary ho hl.wrapped ?_ hr.wrapped ?_ ?_
    · exact fun q hq => hleft q (hl.spine_wrapOr q hq)
    · exact Int.lt_of_lt_of_le hright hr.le_outerTier
    · exact fun hin => hr.starts_wrapOr (hlist hin)
  · intro q hq
    rw [heq, spine_binary, List.mem_cons] at hq
    rw [spine_binary]
    exact List.mem_cons.2 (hq.imp_right (hr.spine_wrapOr q))
  · rw [heq, outerTier_op hnot, outerTier_op hnot]
  · intro hstarts
    have hl' : startsWithParen l = true := by simpa [startsWithParen, hnot] using hstarts
    rw [heq]
    simpa [startsWithParen, hnot] using hl.starts_wrapOr hl'
  · rw [heq, hregular, hregular, hl.regular_wrapOr, hr.regular_wrapOr]
  · have htag : Tag.op o ≠ .op .not := by simpa using hnot
    rw [heq, isNegatedBetween_of_tag htag, isNegatedBetween_of_tag htag]
  · exact negation_of_tag (by simpa [Tree.tag?] using hbetween)

theorem Condition.belowKept_between {v lo hi : Tree} (hvspine : ∀ q ∈ spine v, 29 ≤ operatorTier q)
    (hlotier : 29 < outerTier lo) (hlospine : ∀ q ∈ spine lo, 29 < operatorTier q)
    (hhitier : 29 < outerTier hi) (hv : BelowKept leaf v) (hlo : BelowKept leaf lo)
    (hhi : BelowKept leaf hi) : BelowKept leaf (.node (.op .between) [v, lo, hi]) := by
  have heq : wrapBelow (.node (.op .between) [v, lo, hi]) =
      .node (.op .between) [wrapOr v, wrapOr lo, wrapOr hi] := wrapBelow_op .between [v, lo, hi]
  have hwrap : wrapOr (.node (.op .between) [v, lo, hi]) =
      .node (.op .between) [wrapOr v, wrapOr lo, wrapOr hi] := wrapOr_op (by simp) [v, lo, hi]
  refine ⟨?_, ?_, ?_, ?_, ?_, ?_, ?_⟩
  · rw [heq]
    refine .between hv.wrapped ?_ hlo.wrapped ?_ ?_ hhi.wrapped ?_
    · exact fun q hq => hvspine q (hv.spine_wrapOr q hq)
    · exact Int.lt_of_lt_of_le hlotier hlo.le_outerTier
    · exact fun q hq => hlospine q (hlo.spine_wrapOr q hq)
    · exact Int.lt_of_lt_of_le hhitier hhi.le_outerTier
  · intro q hq
    rw [heq, spine_between, List.mem_cons] at hq
    rw [spine_between]
    exact List.mem_cons.2 (hq.imp_right (hhi.spine_wrapOr q))
  · rw [heq, outerTier_between, outerTier_between]
  · intro hstarts
    have hv' : startsWithParen v = true := by simpa [startsWithParen] using hstarts
    rw [heq]
    simpa [startsWithParen] using hv.starts_wrapOr hv'
  · rw [heq, isRegular, isRegular, hhi.negated_wrapOr, hv.regular_wrapOr, hlo.regular_wrapOr,
      hhi.regular_wrapOr]
  · rw [heq, isNegatedBetween_of_tag (by simp), isNegatedBetween_of_tag (by simp)]
  · rw [hwrap]
    rfl

theorem Condition.belowKept_not {t : Tree} (htier : 28 < outerTier t) (ht : BelowKept leaf t) :
    BelowKept leaf (.node (.op .not) [t]) := by
  have heq : wrapBelow (.node (.op .not) [t]) = .node (.op .not) [wrapOr t] :=
    wrapBelow_op .not [t]
  refine ⟨?_, ?_, ?_, ?_, ?_, ?_, ?_⟩
  · rw [heq]
    exact .not ht.wrapped (Int.lt_of_lt_of_le htier ht.le_outerTier)
  · intro q hq
    rw [heq, spine_not, List.mem_cons] at hq
    rw [spine_not]
    exact List.mem_cons.2 (hq.imp_right (ht.spine_wrapOr q))
  · rw [heq, outerTier_not, outerTier_not]
  · exact fun hstarts => nomatch hstarts
  · rw [heq]
    simp [isRegular, areRegular, ht.regular_wrapOr]
  · rw [heq]
    exact ht.negation
  · exact negation_of_tag (by simp [Tree.tag?])

/-- **Wrapping alternatives keeps conditions and regular trees.** -/
theorem Condition.belowKept {t : Tree} (h : Condition leaf t)
    (hleaf : ∀ t, leaf t → wrapBelow t = t) : BelowKept leaf t := by
  induction h with
  | @leaf t ht hl =>
    have heq := hleaf t hl
    have htag : ∀ o, t.tag? ≠ some (.op o) := by
      intro o htag
      cases t with
      | atom text => cases htag
      | node tag ts =>
        cases htag
        cases ht
    refine ⟨?_, ?_, ?_, ?_, ?_, ?_, negation_of_tag (htag _)⟩
    · rw [heq]
      exact .leaf ht hl
    · rw [heq]
      exact fun q hq => hq
    · rw [heq]
    · rw [heq]
      exact fun h => h
    · rw [heq]
    · rw [heq]
  | par hne _ ih => exact belowKept_par hne ih
  | binary ho _ hleft _ hright hlist ihl ihr => exact belowKept_binary ho hleft hright hlist ihl ihr
  | between _ hv _ hlotier hlo _ hhi ihv ihlo ihhi =>
    exact belowKept_between hv hlotier hlo hhi ihv ihlo ihhi
  | not _ htier ih => exact belowKept_not htier ih

end RelationSql.Grammar
