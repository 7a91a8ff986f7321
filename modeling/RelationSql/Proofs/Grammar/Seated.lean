import RelationSql.Proofs.Grammar.Chain
import RelationSql.Proofs.Grammar.Shown

/-!
# Operators in their seats

The words that show a tree may be derived for another tree, or for none. They are derived for the tree that is
shown exactly if each operator is in its seat (`Shown.seats`): it binds tighter than the node around it,
and the operators along the right edge of its first operand bind at least as tightly as it does. An operator in
front of its operand may stand anywhere, and a `not` inside of the words takes the seat of its operator.
-/

namespace RelationSql.Grammar

open RelationSql.Source (Span Token TokenKind)

variable {token : Token} {words more front rest joint : List Token} {piece : Piece} {o : Operator} {k : Int}
  {n m : Nat} {t l r : Tree} {ts : List Tree}

/-! ## Seats -/

mutual

/-- Under a node of tier `k`, is each operator of the tree in its seat? -/
def sits : Int → Tree → Bool
  | _, .node .par ts => sitAll ts
  | k, .node (.op .not) [t] => sits (if negatedWithin t then k else operatorTier .not) t
  | _, .node (.op o) [t] => sits (operatorTier o) t
  | k, .node (.op o) [l, r] =>
    decide (k < operatorTier o) && (spine l).all (fun q => decide (operatorTier o ≤ operatorTier q)) &&
      sits k l && sits (operatorTier o) r
  | k, .node (.op o) [v, lo, hi] =>
    decide (k < operatorTier o) && (spine v).all (fun q => decide (operatorTier o ≤ operatorTier q)) &&
      (spine lo).all (fun q => decide (operatorTier o < operatorTier q)) &&
      sits k v && sits (operatorTier o) lo && sits (operatorTier o) hi
  | _, _ => true

/-- Is each operator of the items of a parenthesis in its seat? -/
def sitAll : List Tree → Bool
  | [] => true
  | t :: ts => sits (tier .par) t && sitAll ts

end

/-- An operator between its operands is in its seat, and so are those of its operands. -/
theorem sits_binary : sits k (.node (.op o) [l, r]) = true ↔ k < operatorTier o ∧
    (∀ q ∈ spine l, operatorTier o ≤ operatorTier q) ∧ sits k l = true ∧ sits (operatorTier o) r = true := by
  simp [sits, and_assoc]

theorem sits_between {v lo hi : Tree} : sits k (.node (.op o) [v, lo, hi]) = true ↔ k < operatorTier o ∧
    (∀ q ∈ spine v, operatorTier o ≤ operatorTier q) ∧ (∀ q ∈ spine lo, operatorTier o < operatorTier q) ∧
    sits k v = true ∧ sits (operatorTier o) lo = true ∧ sits (operatorTier o) hi = true := by
  simp [sits, and_assoc]

theorem sits_not (t : Tree) :
    sits k (.node (.op .not) [t]) = sits (if negatedWithin t then k else operatorTier .not) t := by
  simp [sits]

theorem sits_before (ho : o ≠ .not) (t : Tree) : sits k (.node (.op o) [t]) = sits (operatorTier o) t := by
  rw [sits]
  simpa using ho

/-- A tree without operators has no seats. -/
theorem sits_leaf (h : isLeaf t = true) : sits k t = true := by
  unfold isLeaf at h
  unfold sits
  split at h <;> simp_all

theorem sitAll_append (ts : List Tree) (t : Tree) : sitAll (ts ++ [t]) = (sitAll ts && sits (tier .par) t) := by
  induction ts with
  | nil => simp [sitAll]
  | cons u ts ih => rw [List.cons_append, sitAll, ih, sitAll, Bool.and_assoc]

/-! ## What is derived for an operator -/

theorem operandOf?_ne_op (ts : List Tree) : operandOf? token.kind ≠ some (.node (.op o) ts) := by
  unfold operandOf?
  split <;> simp [Tree.leaf]

theorem signedLiteral?_ne_op {minus number : Token} (ts : List Tree) :
    signedLiteral? minus number ≠ some (.node (.op o) ts) := by
  intro h
  unfold signedLiteral? at h
  split at h
  · split at h <;> cases h
  · cases h

/-- Joints in front of any words are the same, and add as many negations. -/
theorem Coupling.unique {n' m' : Nat} {joint' more' : List Token} (h : Coupling o 0 m joint) (h' : Coupling o n' m' joint')
    (heq : joint ++ more = joint' ++ more') : joint = joint' ∧ more = more' ∧ m' = n' + m := by
  have hnone : ∀ {token not : Token}, operatorOf? token.kind = some o → not.kind = .keyword .not → token ≠ not := by
    rintro token not htoken hnot rfl
    rw [hnot] at htoken
    cases htoken
  cases h with
  | plain htoken =>
    cases h' with
    | plain htoken' =>
      obtain ⟨rfl, rfl⟩ := List.cons.inj heq
      exact ⟨rfl, rfl, rfl⟩
    | negated hnot htoken' => exact absurd (List.cons.inj heq).1 (hnone htoken hnot)
  | negated hnot htoken =>
    cases h' with
    | plain htoken' => exact absurd (List.cons.inj heq).1.symm (hnone htoken' hnot)
    | negated hnot' htoken' =>
      obtain ⟨rfl, hrest⟩ := List.cons.inj heq
      obtain ⟨rfl, rfl⟩ := List.cons.inj hrest
      exact ⟨rfl, rfl, rfl⟩

/-- What is derived for an operator with two operands. -/
theorem Derives.of_binary (h : Derives k n (.tree (.node (.op o) [l, r])) words) :
    ∃ n' front joint more, words = front ++ (joint ++ more) ∧ Derives k n' (.tree l) front ∧
      (∀ q ∈ spine l, operatorTier o ≤ operatorTier q) ∧ ground k n' < operatorTier o ∧ Coupling o n' n joint ∧
      Derives (operatorTier o) 0 (.tree r) more := by
  cases h with
  | operand h => exact absurd h (operandOf?_ne_op _)
  | signed _ h => exact absurd h (signedLiteral?_ne_op _)
  | binary _ hl hedge hground hjoint _ hr => exact ⟨_, _, _, _, rfl, hl, hedge, hground, hjoint, hr⟩

/-- What is derived for a `between`. -/
theorem Derives.of_between {v lo hi : Tree} (h : Derives k n (.tree (.node (.op o) [v, lo, hi])) words) :
    ∃ n' front joint lower and upper, words = front ++ (joint ++ (lower ++ and :: upper)) ∧
      Derives k n' (.tree v) front ∧ (∀ q ∈ spine v, operatorTier o ≤ operatorTier q) ∧
      ground k n' < operatorTier o ∧ Coupling o n' n joint ∧ Derives (operatorTier o) 0 (.tree lo) lower ∧
      (∀ q ∈ spine lo, operatorTier o < operatorTier q) ∧ Derives (operatorTier o) 0 (.tree hi) upper := by
  cases h with
  | operand h => exact absurd h (operandOf?_ne_op _)
  | signed _ h => exact absurd h (signedLiteral?_ne_op _)
  | between hv hedge hground hjoint hlo htight _ hhi =>
    exact ⟨_, _, _, _, _, _, rfl, hv, hedge, hground, hjoint, hlo, htight, hhi⟩

/-- What is derived for an operator starts with its first operand and a joint. -/
theorem Derives.first {u : Tree} (h : Derives k n (.tree (.node (.op o) (l :: u :: ts))) words) :
    ∃ n' front joint more, words = front ++ (joint ++ more) ∧ Derives k n' (.tree l) front ∧ Coupling o n' n joint := by
  cases h with
  | operand h => exact absurd h (operandOf?_ne_op _)
  | signed _ h => exact absurd h (signedLiteral?_ne_op _)
  | binary _ hl _ _ hjoint _ _ => exact ⟨_, _, _, _, rfl, hl, hjoint⟩
  | between hv _ _ hjoint _ _ _ _ => exact ⟨_, _, _, _, rfl, hv, hjoint⟩

/-! ## Negations -/

/-- A `not` that stands inside of the words is derived there. -/
theorem derives_denied_iff {u : Tree} (hfront : Ends (endCount l) front) (hjoint : Coupling o 0 n joint) :
    Derives k 0 (.tree (denied n (.node (.op o) (l :: u :: ts)))) (front ++ (joint ++ more)) ↔
      Derives k n (.tree (.node (.op o) (l :: u :: ts))) (front ++ (joint ++ more)) := by
  cases n with
  | zero => exact Iff.rfl
  | succ n =>
    obtain rfl : n = 0 := by
      cases hjoint
      rfl
    refine ⟨fun h => ?_, .negation⟩
    generalize hwords : front ++ (joint ++ more) = words at h
    cases h with
    | operand h => exact absurd h (operandOf?_ne_op _)
    | signed _ h => exact absurd h (signedLiteral?_ne_op _)
    | negation h => exact h
    | before ho _ h =>
      -- the first operand would start with this `not`, and the operator would have none
      obtain ⟨n', front', joint', more', rfl, hl, hjoint'⟩ := h.first
      rw [← List.cons_append] at hwords
      obtain ⟨-, hrest⟩ := hfront.unique (hl.ends.cons (isEnd_of_prefixOperator? ho)) hwords
      obtain ⟨-, -, hcount⟩ := hjoint.unique hjoint' hrest
      omega

/-- Where a `not` comes first, a negation is not closed by anything behind it. -/
def FrontNot (n : Nat) : Piece → List Token → Prop
  | .tree t, words => ∀ token rest, words = token :: rest → token.kind = .keyword .not →
      n = 0 ∧ ∃ q ∈ spine t, operatorTier q ≤ operatorTier .not
  | .list _, _ => True

theorem frontNot_of_kind {kind : TokenKind} (htoken : token.kind = kind) (hkind : kind ≠ .keyword .not) :
    FrontNot n (.tree t) (token :: words) := by
  intro token' rest heq hnot
  obtain ⟨rfl, -⟩ := List.cons.inj heq
  exact absurd (htoken.symm.trans hnot) hkind

theorem Derives.frontNot (h : Derives k n piece words) : FrontNot n piece words := by
  induction h with
  | operand h =>
    refine frontNot_of_kind rfl fun hkind => ?_
    rw [hkind] at h
    cases h
  | signed hminus h => exact frontNot_of_kind hminus (by simp)
  | parenthesis hopening _ _ _ => exact frontNot_of_kind hopening (by simp)
  | before ho _ _ _ =>
    intro token rest heq hnot
    obtain ⟨rfl, -⟩ := List.cons.inj heq
    rw [hnot] at ho
    cases ho
    exact ⟨rfl, .not, List.mem_cons_self, Int.le_refl _⟩
  | @binary k n m o l r words joint more ho hl hedge _ hjoint _ _ ihl _ =>
    intro token rest heq hnot
    obtain ⟨first, words, rfl⟩ := List.exists_cons_of_ne_nil hl.ne_nil
    obtain ⟨rfl, -⟩ := List.cons.inj heq
    obtain ⟨rfl, q, hq, htier⟩ := ihl _ _ rfl hnot
    -- the operator has taken the negation as its first operand, so it binds no tighter than `not`
    have hlow : operatorTier o ≤ operatorTier .not := Int.le_trans (hedge q hq) htier
    refine ⟨?_, o, by simp, hlow⟩
    cases hjoint with
    | plain h => rfl
    | negated _ h =>
      obtain ⟨htight, -⟩ := negatable?_spec h
      exact absurd hlow (Int.not_le.2 htight)
  | between hv hedge _ _ _ _ _ _ ihv _ _ =>
    intro token rest heq hnot
    obtain ⟨first, words, rfl⟩ := List.exists_cons_of_ne_nil hv.ne_nil
    obtain ⟨rfl, -⟩ := List.cons.inj heq
    obtain ⟨-, q, hq, htier⟩ := ihv _ _ rfl hnot
    exact absurd (Int.le_trans (hedge q hq) htier) (by decide)
  | negation _ ih =>
    intro token rest heq hnot
    obtain ⟨hcount, -⟩ := ih token rest heq hnot
    cases hcount
  | item _ _ | comma _ _ _ _ _ => trivial

/-- A `not` that comes first negates what is derived for the words behind it. -/
theorem derives_not_iff (htoken : token.kind = .keyword .not) :
    Derives k 0 (.tree (.node (.op .not) [t])) (token :: words) ↔ Derives (operatorTier .not) 0 (.tree t) words := by
  have ho : prefixOperator? token.kind = some .not := by
    rw [htoken]
    rfl
  constructor
  · intro h
    generalize hwords : token :: words = all at h
    cases h with
    | operand h => exact absurd h (operandOf?_ne_op _)
    | signed _ h => exact absurd h (signedLiteral?_ne_op _)
    | before _ _ h =>
      obtain ⟨rfl, rfl⟩ := List.cons.inj hwords
      exact h
    | negation h =>
      obtain ⟨hcount, -⟩ := h.frontNot token words hwords.symm htoken
      cases hcount
  · intro h
    refine .before ho (fun hminus => ?_) h
    rw [htoken] at hminus
    cases hminus

/-! ## Signs -/

/-- A `not` inside of the words needs a node that binds looser than its operator. -/
theorem Derives.lt_of_negations (h : Derives k n piece words) (hn : n ≠ 0) : k < 30 := by
  -- down the first operands to the operator of the outermost `not`, which is right over the node
  induction h with
  | operand | signed | parenthesis | before | item | comma => exact absurd rfl hn
  | @binary k n m o l r words joint more ho hl hedge hground hjoint _ _ ihl _ =>
    cases hjoint with
    | plain => exact ihl hn
    | negated _ h =>
      obtain ⟨-, htier, -⟩ := negatable?_spec h
      cases n with
      | zero => exact Int.lt_of_lt_of_le hground htier
      | succ n => exact ihl (by simp)
  | @between k n m v lo hi and words joint lower upper hv hedge hground hjoint _ _ _ _ ihv _ _ =>
    cases hjoint with
    | plain => exact ihv hn
    | negated _ h =>
      cases n with
      | zero => exact Int.lt_of_lt_of_le hground (by decide)
      | succ n => exact ihv (by simp)
  | negation _ ih => exact ih (by simp)

theorem Derives.eq_zero (h : Derives k n piece words) (hk : 30 ≤ k) : n = 0 := by
  by_contra hn
  exact absurd (h.lt_of_negations hn) (Int.not_lt.2 hk)

theorem tier_le_of_isBinary (h : isBinary o = true) : operatorTier o ≤ 36 := by
  revert h
  cases o <;> decide

/-- Behind a sign, a number is an operand of its own. -/
theorem Derives.eq_single (h : Derives (operatorTier .changeSign) 0 (.tree t) (token :: words))
    (htoken : ∃ u, operandOf? token.kind = some u) : words = [] := by
  have hend : isEnd token.kind = true := by
    obtain ⟨u, hu⟩ := htoken
    exact isEnd_of_operandOf? hu
  have hkind : ∀ kind, isEnd kind = false → token.kind ≠ kind := by
    rintro kind hkind rfl
    rw [hend] at hkind
    cases hkind
  generalize hwords : token :: words = all at h
  cases h with
  | operand => exact (List.cons.inj hwords).2
  | signed hminus =>
    obtain ⟨rfl, -⟩ := List.cons.inj hwords
    exact absurd hminus (hkind _ rfl)
  | parenthesis hopening =>
    obtain ⟨rfl, -⟩ := List.cons.inj hwords
    exact absurd hopening (hkind _ rfl)
  | before ho =>
    obtain ⟨rfl, -⟩ := List.cons.inj hwords
    rw [isEnd_of_prefixOperator? ho] at hend
    cases hend
  | binary ho hl _ hground =>
    obtain rfl := hl.eq_zero (by decide)
    exact absurd (Int.lt_of_lt_of_le hground (tier_le_of_isBinary ho)) (by decide)
  | between hv _ hground =>
    obtain rfl := hv.eq_zero (by decide)
    exact absurd hground (by decide)
  | negation h => exact absurd (h.eq_zero (by decide)) (by simp)

/-- A sign governs what is derived for the words behind it, unless they are a number that it touches. -/
theorem derives_minus_iff (htoken : token.kind = .symbol .minus)
    (hunsigned : ∀ number, words = [number] → signedLiteral? token number = none) :
    Derives k 0 (.tree (.node (.op .changeSign) [t])) (token :: words) ↔
      Derives (operatorTier .changeSign) 0 (.tree t) words := by
  have ho : prefixOperator? token.kind = some .changeSign := by
    rw [htoken]
    rfl
  constructor
  · intro h
    generalize hwords : token :: words = all at h
    cases h with
    | operand h => exact absurd h (operandOf?_ne_op _)
    | signed _ h => exact absurd h (signedLiteral?_ne_op _)
    | before _ _ h =>
      obtain ⟨rfl, rfl⟩ := List.cons.inj hwords
      exact h
  · intro h
    refine .before ho (fun _ => ?_) h
    obtain ⟨number, words, rfl⟩ := List.exists_cons_of_ne_nil h.ne_nil
    show signedLiteral? token number = none
    cases hsigned : signedLiteral? token number with
    | none => rfl
    | some u =>
      obtain ⟨-, hnumber⟩ := exists_operand_of_signed hsigned
      obtain rfl := h.eq_single hnumber
      rw [← hsigned]
      exact hunsigned number rfl

/-! ## Operators between operands -/

/-- An operator between its operands is derived if it is in its seat. -/
theorem derives_binary_iff (ho : isBinary o = true) (hfront : Ends (endCount l) front) (hjoint : Coupling o 0 n joint)
    (hlist : o = .in_ → opensList more) :
    Derives k n (.tree (.node (.op o) [l, r])) (front ++ (joint ++ more)) ↔
      k < operatorTier o ∧ (∀ q ∈ spine l, operatorTier o ≤ operatorTier q) ∧ Derives k 0 (.tree l) front ∧
        Derives (operatorTier o) 0 (.tree r) more := by
  constructor
  · intro h
    obtain ⟨n', front', joint', more', hwords, hl, hedge, hground, hjoint', hr⟩ := h.of_binary
    -- both cut the words at the end of the first operand
    obtain ⟨rfl, hrest⟩ := hfront.unique hl.ends hwords
    obtain ⟨rfl, rfl, hcount⟩ := hjoint.unique hjoint' hrest
    obtain rfl : n' = 0 := by omega
    exact ⟨hground, hedge, hl, hr⟩
  · rintro ⟨hground, hedge, hl, hr⟩
    exact .binary ho hl hedge hground hjoint hlist hr

/-- A `between` is derived if it is in its seat. -/
theorem derives_between_iff {v lo hi : Tree} {and : Token} {lower upper : List Token}
    (hfront : Ends (endCount v) front) (hjoint : Coupling .between 0 n joint) (hlower : Ends (endCount lo) lower)
    (hand : and.kind = .keyword .and) :
    Derives k n (.tree (.node (.op .between) [v, lo, hi])) (front ++ (joint ++ (lower ++ and :: upper))) ↔
      k < operatorTier .between ∧ (∀ q ∈ spine v, operatorTier .between ≤ operatorTier q) ∧
        (∀ q ∈ spine lo, operatorTier .between < operatorTier q) ∧ Derives k 0 (.tree v) front ∧
        Derives (operatorTier .between) 0 (.tree lo) lower ∧ Derives (operatorTier .between) 0 (.tree hi) upper := by
  constructor
  · intro h
    obtain ⟨n', front', joint', lower', and', upper', hwords, hv, hedge, hground, hjoint', hlo, htight, hhi⟩ :=
      h.of_between
    obtain ⟨rfl, hrest⟩ := hfront.unique hv.ends hwords
    obtain ⟨rfl, hbounds, hcount⟩ := hjoint.unique hjoint' hrest
    obtain ⟨rfl, htail⟩ := hlower.unique hlo.ends hbounds
    obtain ⟨rfl, rfl⟩ := List.cons.inj htail
    obtain rfl : n' = 0 := by omega
    exact ⟨hground, hedge, htight, hv, hlo, hhi⟩
  · rintro ⟨hground, hedge, htight, hv, hlo, hhi⟩
    exact .between hv hedge hground hjoint hlo htight hand hhi

/-! ## Parentheses -/

theorem derives_par_iff {opening closing : Token} (hopening : opening.kind = .symbol .leftParen)
    (hclosing : closing.kind = .symbol .rightParen) :
    Derives k 0 (.tree (.node .par ts)) (opening :: (words ++ [closing])) ↔
      Derives (tier .par) 0 (.list ts) words := by
  constructor
  · intro h
    generalize hwords : opening :: (words ++ [closing]) = all at h
    cases h with
    | operand h =>
      unfold operandOf? at h
      split at h <;> simp [Tree.leaf] at h
    | signed _ h =>
      unfold signedLiteral? at h
      split at h
      · split at h <;> cases h
      · cases h
    | parenthesis _ h _ =>
      obtain ⟨-, hinner⟩ := List.cons.inj hwords
      obtain ⟨rfl, -⟩ := List.append_inj' hinner rfl
      exact h
  · exact fun h => .parenthesis hopening h hclosing

/-- A list of items is not empty. -/
theorem Derives.list_ne_nil (h : Derives k n piece words) : piece ≠ .list [] := by
  cases h <;> simp

theorem derives_item_iff : Derives (tier .par) 0 (.list [t]) words ↔ Derives (tier .par) 0 (.tree t) words := by
  constructor
  · intro h
    generalize hlist : [t] = items at h
    cases h with
    | item h =>
      obtain rfl := List.singleton_inj.1 hlist
      exact h
    | @comma ts _ _ _ _ h _ _ =>
      rcases List.append_eq_singleton_iff.1 hlist.symm with ⟨rfl, -⟩ | ⟨-, hnil⟩
      · exact absurd rfl h.list_ne_nil
      · cases hnil
  · exact .item

theorem derives_comma_iff {comma : Token} (hts : ts ≠ []) (hfront : Ends (endCounts ts) front)
    (hcomma : comma.kind = .symbol .comma) :
    Derives (tier .par) 0 (.list (ts ++ [t])) (front ++ comma :: more) ↔
      Derives (tier .par) 0 (.list ts) front ∧ Derives (tier .par) 0 (.tree t) more := by
  constructor
  · intro h
    generalize hlist : ts ++ [t] = items at h
    generalize hwords : front ++ comma :: more = words at h
    cases h with
    | item h =>
      rcases List.append_eq_singleton_iff.1 hlist with ⟨hnil, -⟩ | ⟨-, hnil⟩
      · exact absurd hnil hts
      · cases hnil
    | comma h _ ht =>
      obtain ⟨rfl, hlast⟩ := List.append_inj' hlist rfl
      obtain rfl := List.singleton_inj.1 hlast
      obtain ⟨rfl, hrest⟩ := hfront.unique h.ends hwords
      obtain ⟨-, rfl⟩ := List.cons.inj hrest
      exact ⟨h, ht⟩
  · rintro ⟨h, ht⟩
    exact .comma h hcomma ht

/-! ## All operators -/

/-- The words are derived for the piece exactly if its operators are in their seats. -/
def Seats : Piece → List Token → Prop
  | .tree t, words => ∀ k, Derives k 0 (.tree t) words ↔ sits k t = true
  | .list ts, words => Derives (tier .par) 0 (.list ts) words ↔ sitAll ts = true

theorem Shown.list_ne_nil (h : Shown (.list ts) words) : ts ≠ [] := by
  cases h <;> simp

/-- A `not` inside of the words takes the seat of its operator. -/
theorem sits_denied (hjoint : Coupling o 0 n joint) (h : negatedWithin t = true ∨ n = 0) :
    sits k (denied n t) = sits k t := by
  cases hjoint with
  | plain => rfl
  | negated =>
    have hwithin : negatedWithin t = true := h.resolve_right (by simp)
    have hdenied : denied 1 t = .node (.op .not) [t] := rfl
    rw [hdenied, sits_not, if_pos hwithin]

/-- A negated operator has its `not` inside of the words. -/
theorem negatesInPlace_of_joint (ho : isBinary o = true) (hjoint : Coupling o 0 n joint) :
    Expression.negatesInPlace o = true ∨ n = 0 := by
  cases hjoint with
  | plain => exact .inr rfl
  | negated _ h =>
    obtain ⟨-, -, -, -, hbetween⟩ := isBinary_iff.1 ho
    obtain ⟨-, hnegatable⟩ := operatorOf?_of_negatable? h
    rw [isNegatable, Bool.or_eq_true, beq_iff_eq] at hnegatable
    exact .inl (hnegatable.resolve_right hbetween)

theorem negatedWithin_binary (o : Operator) (l r : Tree) :
    negatedWithin (.node (.op o) [l, r]) = Expression.negatesInPlace o := by
  cases o <;> rfl

/-- **The words that show a tree are derived for it exactly if its operators are in their seats.** -/
theorem Shown.seats (h : Shown piece words) : Seats piece words := by
  -- by the rules for what is shown: each has one rule of the grammar that its words can be derived by
  induction h with
  | operand h =>
    intro k
    exact iff_of_true (.operand h) (sits_leaf (isLeaf_of_operandOf? h))
  | signed hminus h =>
    intro k
    exact iff_of_true (.signed hminus h) (sits_leaf (isLeaf_of_signedLiteral? h))
  | parenthesis hopening _ hclosing ih =>
    intro k
    rw [derives_par_iff hopening hclosing, sits]
    exact ih
  | not htoken hfront _ ih =>
    intro k
    rw [derives_not_iff htoken, ih, sits_not, hfront]
    rfl
  | minus htoken hunsigned _ ih =>
    intro k
    rw [derives_minus_iff htoken hunsigned, ih, sits_before (by simp)]
  | @binary n o l r words joint more ho hl hjoint hlist _ ihl ihr =>
    intro k
    have hseat : sits k (denied n (.node (.op o) [l, r])) = sits k (.node (.op o) [l, r]) := by
      refine sits_denied hjoint ?_
      rw [negatedWithin_binary]
      exact negatesInPlace_of_joint ho hjoint
    rw [derives_denied_iff hl.ends hjoint, derives_binary_iff ho hl.ends hjoint hlist, ihl, ihr, hseat, sits_binary]
  | @between n v lo hi and words joint lower upper hv hjoint hlo hand _ ihv ihlo ihhi =>
    intro k
    have hseat : sits k (denied n (.node (.op .between) [v, lo, hi])) = sits k (.node (.op .between) [v, lo, hi]) :=
      sits_denied hjoint (.inl rfl)
    rw [derives_denied_iff hv.ends hjoint, derives_between_iff hv.ends hjoint hlo.ends hand, ihv, ihlo, ihhi, hseat,
      sits_between]
  | item _ ih =>
    show Derives _ _ _ _ ↔ _
    rw [derives_item_iff, ih]
    simp [sitAll]
  | @comma ts t comma words more h hcomma _ ih iht =>
    have hts : Derives (tier .par) 0 (.list ts) words ↔ sitAll ts = true := ih
    show Derives _ _ _ _ ↔ _
    rw [derives_comma_iff h.list_ne_nil h.ends hcomma, hts, iht, sitAll_append, Bool.and_eq_true]

/-- **A relation and the words that show a condition are parsed into that condition exactly if its operators are
in their seats.** -/
theorem Shown.parseTokens_iff {name : String} {relation where_ last : Token} (h : Shown (.tree t) words)
    (hrelation : relation.kind = .name name) (hwhere : where_.kind = .keyword .where_)
    (hlast : last.kind = .finish) :
    parseTokens (relation :: where_ :: (words ++ [last])) = .ok (filtered name t) ↔
      sits (tier .filter) t = true := by
  have hphrase : Grammar.phraseOperand (words ++ [last]) = true := by
    rw [h.phraseOperand, phraseAfter, hlast]
    rfl
  have hseats : Derives (tier .filter) 0 (.tree t) words ↔ sits (tier .filter) t = true := h.seats _
  rw [Grammar.parseTokens_iff hrelation hwhere hlast hphrase, ← hseats]
  constructor
  · rintro ⟨e, htree, hderives⟩
    obtain rfl : t = e := by simpa [filtered] using htree
    exact hderives
  · exact fun hderives => ⟨t, rfl, hderives⟩

end RelationSql.Grammar
