import RelationSql.Proofs.Grammar.Condition

/-!
# Regrouping at a negated upper bound

A negated `between` as the upper bound of a `between` is written without a parenthesis, and its `not`
closes the outer `between` when the words are read again. `regroup` gives the tree that is read; it
changes nothing in a tree without such a bound (`regroup_eq_self_iff`).
-/

namespace RelationSql.Grammar

/-- Is the tree a negated `between`? -/
def isNegatedBetween : Tree → Bool
  | .node (.op .not) [.node (.op .between) [_, _, _]] => true
  | _ => false

/-- Puts a `between` around the leftmost operand of a chain of `between`s. -/
def graft (v lo : Tree) : Tree → Tree
  | .node (.op .between) [a, b, c] => .node (.op .between) [graft v lo a, b, c]
  | t => .node (.op .between) [v, lo, t]

mutual

/-- The tree that is read from the words of a condition. -/
def regroup : Tree → Tree
  | .node (.op .between) [v, lo, hi] => bound (regroup v) (regroup lo) hi
  | .node (.op o) ts => .node (.op o) (regroupAll ts)
  | .node .par ts => .node .par (regroupAll ts)
  | t => t

/-- The tree that is read from `v between lo and` and the words of the upper bound. -/
def bound (v lo : Tree) : Tree → Tree
  | .node (.op .not) [.node (.op .between) [a, b, c]] =>
    .node (.op .not) [bound (graft v lo (regroup a)) (regroup b) c]
  | hi => .node (.op .between) [v, lo, regroup hi]

/-- The trees that are read from the words of a list. -/
def regroupAll : List Tree → List Tree
  | [] => []
  | t :: ts => regroup t :: regroupAll ts

end

mutual

/-- Is no `between` of the tree bounded above by a negated `between`? -/
def isRegular : Tree → Bool
  | .node (.op .between) [v, lo, hi] =>
    !isNegatedBetween hi && isRegular v && isRegular lo && isRegular hi
  | .node (.op _) ts => areRegular ts
  | .node .par ts => areRegular ts
  | _ => true

/-- Are all trees of a list regular? -/
def areRegular : List Tree → Bool
  | [] => true
  | t :: ts => isRegular t && areRegular ts

end
/-! ## The tree of each kind of node -/

/-- A bound that is no negated `between` keeps its place. -/
theorem bound_of_not_negated {hi : Tree} (h : isNegatedBetween hi = false) (v lo : Tree) :
    bound v lo hi = .node (.op .between) [v, lo, regroup hi] := by
  unfold isNegatedBetween at h
  split at h
  · cases h
  · next hne =>
    rw [bound]
    exact fun a b c heq => hne a b c heq

@[simp] theorem bound_negated (v lo a b c : Tree) :
    bound v lo (.node (.op .not) [.node (.op .between) [a, b, c]]) =
      .node (.op .not) [bound (graft v lo (regroup a)) (regroup b) c] := by
  rw [bound]

@[simp] theorem regroup_par (ts : List Tree) :
    regroup (.node .par ts) = .node .par (regroupAll ts) := by
  rw [regroup]

@[simp] theorem regroup_between (v lo hi : Tree) :
    regroup (.node (.op .between) [v, lo, hi]) = bound (regroup v) (regroup lo) hi := by
  rw [regroup]

@[simp] theorem regroup_binary (o : Operator) (l r : Tree) :
    regroup (.node (.op o) [l, r]) = .node (.op o) [regroup l, regroup r] := by
  simp [regroup, regroupAll]

@[simp] theorem regroup_not (t : Tree) :
    regroup (.node (.op .not) [t]) = .node (.op .not) [regroup t] := by
  simp [regroup, regroupAll]

theorem regroup_leaf {t : Tree} (h : isLeaf t = true) : regroup t = t := by
  unfold isLeaf at h
  unfold regroup
  split at h <;> simp_all

/-! ## The right edge of a regrouped tree -/

theorem mem_spine_graft {v lo t : Tree} {q : Operator} (h : q ∈ spine (graft v lo t)) :
    q = .between ∨ q ∈ spine t := by
  unfold graft at h
  split at h
  · next a b c =>
    rw [spine_between] at h ⊢
    exact Or.inr h
  · rw [spine_between] at h
    exact List.mem_cons.1 h

theorem isNegatedBetween_eq_true {t : Tree} (h : isNegatedBetween t = true) :
    ∃ a b c, t = .node (.op .not) [.node (.op .between) [a, b, c]] := by
  unfold isNegatedBetween at h
  split at h
  · next a b c => exact ⟨a, b, c, rfl⟩
  · cases h

/-- Regrouping adds no operator to the right edge: not to that of a tree, of an upper bound, or of a
negated upper bound. -/
structure EdgeKept (t : Tree) : Prop where
  regroup : ∀ q ∈ spine (regroup t), q ∈ spine t
  bound : ∀ v lo, ∀ q ∈ spine (bound v lo t), q ∈ .between :: spine t
  negated : ∀ a b c, t = .node (.op .between) [a, b, c] →
    ∀ v lo, ∀ q ∈ spine (Grammar.bound v lo (.node (.op .not) [t])), q ∈ .between :: .not :: spine t

/-- An edge that is kept by regrouping is kept below an upper bound. -/
theorem edgeKept_of_regroup {t : Tree} (hneg : isNegatedBetween t = false)
    (hne : ∀ a b c, t ≠ .node (.op .between) [a, b, c])
    (h : ∀ q ∈ spine (regroup t), q ∈ spine t) : EdgeKept t where
  regroup := h
  bound := by
    intro v lo q hq
    rw [bound_of_not_negated hneg, spine_between, List.mem_cons] at hq
    exact List.mem_cons.2 (hq.imp_right (h q))
  negated := fun a b c heq => absurd heq (hne a b c)

/-- **Regrouping adds no operator to the right edge of a condition.** -/
theorem Condition.edgeKept {leaf : Tree → Prop} {t : Tree} (h : Condition leaf t) : EdgeKept t := by
  induction h with
  | @leaf t ht _ =>
    apply edgeKept_of_regroup
    · unfold isNegatedBetween
      split
      · cases ht
      · rfl
    · rintro a b c rfl
      cases ht
    · rw [regroup_leaf ht]
      exact fun q hq => hq
  | par _ _ _ =>
    apply edgeKept_of_regroup rfl
    · exact fun _ _ _ heq => nomatch heq
    · simp
  | @binary o l r ho _ _ _ _ _ _ ihr =>
    obtain ⟨hnot, -⟩ := isBinary_iff.1 ho
    apply edgeKept_of_regroup
    · unfold isNegatedBetween
      split
      · next heq => cases heq
      · rfl
    · simp
    · intro q hq
      rw [regroup_binary, spine_binary, List.mem_cons] at hq
      rw [spine_binary]
      exact List.mem_cons.2 (hq.imp_right (ihr.regroup q))
  | @between v lo hi _ _ _ _ _ _ _ _ _ ihhi =>
    refine ⟨?_, ?_, ?_⟩
    · intro q hq
      rw [regroup_between] at hq
      rw [spine_between]
      exact ihhi.bound _ _ q hq
    · intro v' lo' q hq
      rw [bound_of_not_negated rfl, spine_between, regroup_between, List.mem_cons] at hq
      rw [spine_between]
      exact List.mem_cons.2 (hq.imp_right (ihhi.bound _ _ q))
    · rintro a b c heq v' lo' q hq
      rw [bound_negated, spine_not, List.mem_cons] at hq
      have hkept := ihhi.bound (graft v' lo' (Grammar.regroup v)) (Grammar.regroup lo) q
      simp only [spine_between, List.mem_cons] at hkept ⊢
      rcases hq with rfl | hq
      · exact Or.inr (Or.inl rfl)
      · exact Or.inr (Or.inr (hkept hq))
  | @not t _ _ ih =>
    refine ⟨?_, ?_, ?_⟩
    · intro q hq
      rw [regroup_not, spine_not, List.mem_cons] at hq
      rw [spine_not]
      exact List.mem_cons.2 (hq.imp_right (ih.regroup q))
    · intro v lo q hq
      rw [spine_not]
      cases hneg : isNegatedBetween (.node (.op .not) [t]) with
      | true =>
        obtain ⟨a, b, c, heq⟩ := isNegatedBetween_eq_true hneg
        simp only [Tree.node.injEq, List.cons.injEq, and_true, true_and] at heq
        exact ih.negated a b c heq v lo q hq
      | false =>
        rw [bound_of_not_negated hneg, spine_between, regroup_not, spine_not] at hq
        simp only [List.mem_cons] at hq ⊢
        exact hq.imp_right (Or.imp_right (ih.regroup q))
    · exact fun _ _ _ heq => nomatch heq

/-! ## Regular trees stay as they are -/

mutual

/-- **Regrouping changes nothing exactly in the regular trees.** -/
theorem regroup_eq_self_iff : (t : Tree) → (regroup t = t ↔ isRegular t = true)
  | .atom text => by simp [regroup, isRegular]
  | .node tag ts => by
    have hts := regroupAll_eq_self_iff ts
    unfold regroup
    split
    · next v lo hi heq =>
      cases heq
      cases hneg : isNegatedBetween hi with
      | true =>
        -- the root becomes a negation
        obtain ⟨a, b, c, rfl⟩ := isNegatedBetween_eq_true hneg
        simp [isRegular, hneg]
      | false =>
        rw [bound_of_not_negated hneg]
        simpa [isRegular, hneg, regroupAll, areRegular, and_assoc] using hts
    · next o ts hne heq =>
      cases heq
      rw [isRegular]
      · simpa using hts
      · exact fun v lo hi heq => hne v lo hi heq
    · next heq =>
      cases heq
      simpa [isRegular] using hts
    · next hbetween hop hpar =>
      rw [isRegular]
      · simp
      · exact hbetween
      · exact hop
      · exact hpar

theorem regroupAll_eq_self_iff : (ts : List Tree) → (regroupAll ts = ts ↔ areRegular ts = true)
  | [] => by simp [regroupAll, areRegular]
  | t :: ts => by
    simp [regroupAll, areRegular, regroup_eq_self_iff t, regroupAll_eq_self_iff ts]

end

end RelationSql.Grammar
