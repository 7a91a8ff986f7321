import RelationSql.Proofs.Grammar.Strides

/-!
# Nodes that keep the base out of reach

An open parenthesis is closed by nothing but its closing parenthesis, and a `between` without its `and`
by nothing at all. While one of the nodes of an expression is such a node, no step reaches the base below
(`Held.stays`): all it can do is what `Goes` tells, over this base and over every other
(`Goes.step`, `goes_of_step`). In particular, the source cannot end there (`Held.runTokens_ne_ok`).
-/

namespace RelationSql.Grammar

open RelationSql.Source (Span Token TokenKind)

variable {token : Token} {rest : List Token} {above left base : List Frame} {root : List Tree}
  {t u : Tree} {o : Operator} {p : Tag → Bool} {m : Machine} {used : Bool} {from_ dest : Above}

/-! ## Held nodes -/

/-- Is the node one of an expression? -/
def Frame.InExpression (f : Frame) : Prop := f.tag = .par ∨ ∃ o, f.tag = .op o

/-- Is the node one that cannot be closed with one more tree, unless by a closing parenthesis? -/
def Frame.Holds (f : Frame) : Prop :=
  f.tag = .par ∨ f.tag = .op .between ∧ f.done.length ≠ 2

/-- The outermost node is an open parenthesis. -/
def EndsInPar (above : List Frame) : Prop := (above.map Frame.tag).getLast? = some .par

/-- The nodes of an expression, with one that cannot be closed. -/
structure Held (above : List Frame) : Prop where
  inExpression : ∀ f ∈ above, f.InExpression
  holds : ∃ f ∈ above, f.Holds

/-- No closing passes a node that cannot be closed. -/
theorem closeAbove_of_holds (h : ∃ f ∈ above, f.Holds) (hp : p .par = false) (u : Tree) :
    closeAbove p t above ≠ some ([], u) := by
  intro hclose
  induction above generalizing t with
  | nil => simp at h
  | cons f above ih =>
    rw [closeAbove] at hclose
    split at hclose
    · next hpf =>
      split at hclose
      · next hcomplete =>
        obtain ⟨g, hg, hholds⟩ := h
        rcases List.mem_cons.1 hg with rfl | hg
        · rcases hholds with hpar | ⟨hbetween, hlength⟩
          · rw [hpar, hp] at hpf
            cases hpf
          · simp only [Frame.isComplete, hbetween, bne_self_eq_false, Bool.false_or,
              List.length_cons, beq_iff_eq] at hcomplete
            omega
        · exact ih ⟨g, hg, hholds⟩ hclose
      · cases hclose
    · cases hclose

namespace Held

theorem ne_nil (h : Held above) : above ≠ [] := by
  obtain ⟨f, hf, -⟩ := h.holds
  exact List.ne_nil_of_mem hf

theorem append_ne_nil (h : Held above) (base : List Frame) : above ++ base ≠ [] := by
  intro heq
  exact h.ne_nil (List.append_eq_nil_iff.1 heq).1

/-- **Closing stops above the base.** -/
theorem stays (h : Held above) (hp : p .par = false) (hclose : closeAbove p t above = some (left, u)) :
    left ≠ [] := by
  rintro rfl
  exact closeAbove_of_holds h.holds hp u hclose

/-- Whether an `and` is waited for is known above the base. -/
theorem waits (h : Held above) (base : List Frame) (waiting : Bool) :
    Machine.waitsForAnd waiting (above ++ base) = Machine.waitsForAnd waiting above := by
  obtain ⟨-, hholds⟩ := h
  induction above generalizing waiting with
  | nil => simp at hholds
  | cons f above ih =>
    rw [List.cons_append, Machine.waitsForAnd, Machine.waitsForAnd]
    obtain ⟨g, hg, hg'⟩ := hholds
    rcases List.mem_cons.1 hg with rfl | hg
    · rcases hg' with hpar | ⟨hbetween, -⟩
      · have htier : tier g.tag ≤ operatorTier .between := by
          rw [hpar]
          decide
        simp only [htier, if_true]
      · simp only [hbetween, if_true]
    · rw [ih true ⟨g, hg, hg'⟩]

/-- An open parenthesis above the base is one of an expression. -/
theorem tag_of_isParen (h : Held above) {f : Frame} (hf : f ∈ above) (hparen : f.tag.isParen = true) :
    f.tag = .par := by
  rcases h.inExpression f hf with hpar | ⟨o, ho⟩
  · exact hpar
  · rw [ho] at hparen
    cases hparen

end Held

/-! ## Forward -/

/-- Closing up to a `between` that waits for its `and` stops there. -/
theorem closeAbove_of_waits (h : Machine.waitsForAnd true above = true)
    (hclose : closeAbove (fun tag => tag != .op .between) t above = some (left, u)) : left ≠ [] := by
  rintro rfl
  obtain ⟨closed, heq, hclosed, -⟩ := closeAbove_eq_some hclose
  rw [List.append_nil] at heq
  rw [waitsForAnd_of_forall] at h
  · cases h
  · intro f hf
    rw [heq] at hf
    simpa using hclosed f hf

/-- Closing up to an open parenthesis stops there. -/
theorem closeAbove_of_inside
    (h : (above.find? fun f => f.tag.isParen).any (fun f => f.tag == .par) = true)
    (hclose : closeAbove (fun tag => tag != .par) t above = some (left, u)) : left ≠ [] := by
  rintro rfl
  obtain ⟨closed, heq, hclosed, -⟩ := closeAbove_eq_some hclose
  obtain ⟨f, hfind, htag⟩ := (Option.any_eq_true _ _).1 h
  rw [List.append_nil] at heq
  have hmem : f ∈ closed := heq ▸ List.mem_of_find?_eq_some hfind
  simpa [beq_iff_eq.1 htag] using hclosed f hmem

/-- Inside a parenthesis above the base, the machine is inside an expression. -/
theorem insideExpression_of_inside
    (h : (above.find? fun f => f.tag.isParen).any (fun f => f.tag == .par) = true) :
    ((Above.after t above).upon base root).insideExpression = true := by
  obtain ⟨f, hfind, htag⟩ := (Option.any_eq_true _ _).1 h
  exact (insideExpression_base hfind).trans htag

/-- **While a node cannot be closed, the steps of an expression are the same over every base.** -/
theorem Goes.step (h : Goes token rest from_ dest used) (hheld : Held from_.frames) (hbase : base ≠ [])
    (root : List Tree) : (from_.upon base root).step token rest = .ok (dest.upon base root, used) := by
  cases h with
  | leaf h => exact step_leaf h (hheld.append_ne_nil base) rest
  | signed hminus h => exact step_signed hminus h (hheld.append_ne_nil base)
  | opening h => exact step_opening h rest
  | before h hunsigned => exact step_before h hunsigned
  | between h hlist hand hclose =>
    refine step_between h hlist (fun hk => ?_) hclose (.inl (hheld.stays (closedBy_par _) hclose))
    exact (hheld.waits base true).trans (hand hk)
  | negated hnot hrest h hlist hclose =>
    subst hrest
    exact step_negated hnot h hlist hclose (.inl (hheld.stays (closedBy_par _) hclose))
  | @upTo above left t u h hwaits hclose =>
    have hleft := closeAbove_of_waits hwaits hclose
    have hwaits' : Machine.waitsForAnd true (above ++ base) = true := (hheld.waits base true).trans hwaits
    rw [step_upTo h hwaits' hclose (.inl hleft), Above.upon, received_append hleft]
  | method hdot h hclose => exact step_method hdot h hclose (.inl (hheld.stays rfl hclose))
  | interval h hunit hnumber hclose =>
    exact step_interval h hunit hnumber hclose (.inl (hheld.stays rfl hclose)) rest
  | @comma above left t u h hinside hclose =>
    have hleft := closeAbove_of_inside hinside hclose
    rw [step_comma h (insideExpression_of_inside hinside) hclose (.inl hleft), Above.upon,
      received_append hleft]
  | closing h hpar hclose =>
    refine step_closing h hpar hclose ?_ rest
    intro heq
    exact hbase (List.append_eq_nil_iff.1 heq).2

/-! ## Backward -/

/-- A token that neither is an operand nor stands in front of one does not fit where one is expected. -/
theorem step_operand_reject (hleaf : leafOf? token.kind = none) (hfront : prefixOperator? token.kind = none)
    (hopening : token.kind ≠ .symbol .leftParen) :
    ((Above.operand above).upon base root).step token rest = reject token := by
  obtain ⟨kind, span⟩ := token
  cases kind with
  | keyword keyword => cases keyword <;> first | rfl | (cases hleaf; done) | cases hfront
  | symbol symbol => cases symbol <;> first | rfl | exact absurd rfl hopening | cases hfront
  | integer _ | real _ | text _ | template _ | name _ => cases hleaf
  | _ => rfl

/-- **What a step over an operand can do.** -/
theorem goes_of_operand (hne : above ++ base ≠ [])
    (h : ((Above.operand above).upon base root).step token rest = .ok (m, used)) :
    ∃ dest, Goes token rest (.operand above) dest used ∧ m = dest.upon base root := by
  cases hleaf : leafOf? token.kind with
  | some t =>
    rw [step_leaf hleaf hne] at h
    cases h
    exact ⟨_, .leaf hleaf, rfl⟩
  | none =>
    by_cases hopening : token.kind = .symbol .leftParen
    · rw [step_opening hopening] at h
      cases h
      exact ⟨_, .opening hopening, rfl⟩
    · cases hfront : prefixOperator? token.kind with
      | none =>
        rw [step_operand_reject hleaf hfront hopening] at h
        cases h
      | some o =>
        by_cases hsigned : token.kind = .symbol .minus ∧
            (signedLiteral? token (following token rest)).isSome = true
        · obtain ⟨hminus, hsome⟩ := hsigned
          obtain ⟨t, ht⟩ := Option.isSome_iff_exists.1 hsome
          rw [step_signed hminus ht hne] at h
          cases h
          exact ⟨_, .signed hminus ht, rfl⟩
        · have hunsigned : token.kind = .symbol .minus →
              signedLiteral? token (following token rest) = none := by
            intro hminus
            simpa [hminus] using hsigned
          rw [step_before hfront hunsigned] at h
          cases h
          exact ⟨_, .before hfront hunsigned, rfl⟩

theorem closeTier_base_none {least : Int} {span : Span} (hne : above ++ base ≠ [])
    (h : closeAbove (fun tag => decide (least ≤ tier tag)) t above = none) :
    ((Above.after t above).upon base root).closeTier least span = .error (.near span) := by
  rw [Machine.closeTier, closeWhile?_base_none h hne]
  rfl

/-- Closing to a tier that succeeds leaves nodes above the base. -/
theorem Held.closeTier (hheld : Held above) {least : Int} (hleast : 0 ≤ least) {span : Span}
    (h : ((Above.after t above).upon base root).closeTier least span = .ok m) :
    ∃ left u, closeAbove (fun tag => decide (least ≤ tier tag)) t above = some (left, u) ∧ left ≠ [] ∧
      m = (Above.after u left).upon base root := by
  cases hclose : closeAbove (fun tag => decide (least ≤ tier tag)) t above with
  | none =>
    rw [closeTier_base_none (hheld.append_ne_nil base) hclose] at h
    cases h
  | some result =>
    obtain ⟨left, u⟩ := result
    have hpar : decide (least ≤ tier .par) = false := by
      have htier : tier .par = -1 := rfl
      rw [htier, decide_eq_false_iff_not]
      omega
    have hleft := hheld.stays hpar hclose
    rw [closeTier_base hclose (.inl hleft)] at h
    cases h
    exact ⟨left, u, rfl, hleft, rfl⟩

/-- Closing all operators stops at an open parenthesis. -/
theorem Held.exists_par (hheld : Held above) (hop : ∀ o, p (.op o) = true) (hpar : p .par = false)
    (hclose : closeAbove p t above = some (left, u)) : ∃ f below, left = f :: below ∧ f.tag = .par := by
  obtain ⟨f, below, rfl⟩ := List.exists_cons_of_ne_nil (hheld.stays hpar hclose)
  obtain ⟨closed, heq, -, hstop⟩ := closeAbove_eq_some hclose
  refine ⟨f, below, rfl, ?_⟩
  have hp := hstop f below rfl
  rcases hheld.inExpression f (by rw [heq]; simp) with htag | ⟨o, ho⟩
  · exact htag
  · rw [ho, hop] at hp
    cases hp

/-- The innermost open parenthesis is known if there is one above the base. -/
theorem Held.inside (hheld : Held above) (h : ∃ f ∈ above, f.tag = .par) :
    (above.find? fun f => f.tag.isParen).any (fun f => f.tag == .par) = true := by
  obtain ⟨f, hf, htag⟩ := h
  have hsome : (above.find? fun f => f.tag.isParen).isSome = true :=
    List.find?_isSome.2 ⟨f, hf, by rw [htag]; rfl⟩
  obtain ⟨g, hg⟩ := Option.isSome_iff_exists.1 hsome
  have hparen : g.tag.isParen = true := List.find?_some (p := fun f : Frame => f.tag.isParen) hg
  have hgtag := hheld.tag_of_isParen (List.mem_of_find?_eq_some hg) hparen
  rw [hg, Option.any_some, hgtag]
  rfl

/-- **A clause is not opened in an expression.** Outside of parentheses it would close what cannot be
closed. -/
theorem Held.insideExpression_of_closeTier (hheld : Held above) {least : Int} (hleast : 0 ≤ least)
    (hmost : least ≤ 13) {span : Span}
    (h : ((Above.after t above).upon base root).closeTier least span = .ok m) :
    ((Above.after t above).upon base root).insideExpression = true := by
  obtain ⟨left, u, hclose, -, -⟩ := hheld.closeTier hleast h
  have hop : ∀ o, decide (least ≤ tier (.op o)) = true := fun o =>
    decide_eq_true (Int.le_trans hmost (Int.le_trans (by decide) (operatorTier_bounds o).1))
  have hpar : decide (least ≤ tier .par) = false := by
    have htier : tier .par = -1 := rfl
    rw [htier, decide_eq_false_iff_not]
    omega
  obtain ⟨f, below, rfl, htag⟩ := hheld.exists_par hop hpar hclose
  obtain ⟨closed, heq, -, -⟩ := closeAbove_eq_some hclose
  exact insideExpression_of_inside (hheld.inside ⟨f, by rw [heq]; simp, htag⟩)

theorem tier_of_clauseOf? {next : Token} {tag : Tag} {expects : Expect} {both : Bool}
    (h : Machine.clauseOf? token next = .ok (tag, expects, both)) : tier tag = 2 := by
  unfold Machine.clauseOf? at h
  split at h
  all_goals first | (cases h; done) | (cases h; rfl) | (split at h <;> cases h; rfl)

/-- The clause of a keyword does not fit in an expression. -/
theorem Held.clause_ne_ok (hheld : Held above) (htoken : token.kind ≠ .symbol .rightParen)
    (r : Machine × Bool) : ((Above.after t above).upon base root).clause token rest ≠ .ok r := by
  intro h
  rw [Machine.clause, if_neg htoken] at h
  split at h
  · cases h
  · next hinside =>
    split at h
    · cases h
    · next hclause =>
      obtain ⟨m₁, hopen, -⟩ := bind_eq_ok h
      obtain ⟨m₂, hclose, -⟩ := bind_eq_ok hopen
      rw [tier_of_clauseOf? hclause] at hclose
      exact hinside (hheld.insideExpression_of_closeTier (by decide) (by decide) hclose)

/-- Behind an operand, no step over a token of another kind succeeds. -/
theorem Held.step_ne_ok (hheld : Held above)
    (hstep : ((Above.after t above).upon base root).step token rest =
      ((Above.after t above).upon base root).clause token rest)
    (htoken : token.kind ≠ .symbol .rightParen) (r : Machine × Bool) :
    ((Above.after t above).upon base root).step token rest ≠ .ok r := by
  rw [hstep]
  exact hheld.clause_ne_ok htoken r

/-- Nor does one over a `from`. -/
theorem Held.from_ne_ok (hheld : Held above) (hkind : token.kind = .keyword .from_) (r : Machine × Bool) :
    ((Above.after t above).upon base root).step token rest ≠ .ok r := by
  intro h
  have hstep : ((Above.after t above).upon base root).step token rest =
      ((Above.after t above).upon base root).afterOperand token rest := rfl
  rw [hstep, Machine.afterOperand, hkind] at h
  dsimp only at h
  split at h
  · cases h
  · next hinside =>
    obtain ⟨m₁, hopen, -⟩ := bind_eq_ok h
    obtain ⟨m₂, hclose, -⟩ := bind_eq_ok hopen
    exact hinside (hheld.insideExpression_of_closeTier (by decide) (by decide) hclose)

/-- What an operator behind an operand can do. -/
theorem Held.goes_of_operator (hheld : Held above) (ho : operatorOf? token.kind = some o)
    (h : ((Above.after t above).upon base root).step token rest = .ok (m, used)) :
    ∃ dest, Goes token rest (.after t above) dest used ∧ m = dest.upon base root := by
  have hne := hheld.append_ne_nil base
  have hpending : ((Above.after t above).upon base root).pendingBetween = Machine.waitsForAnd true above :=
    (pendingBetween_base hne).trans (hheld.waits base true)
  by_cases hwaits : token.kind = .keyword .and ∧ Machine.waitsForAnd true above = true
  · obtain ⟨hkind, hwaits⟩ := hwaits
    cases hclose : closeAbove (fun tag => tag != .op .between) t above with
    | none =>
      have hstep : ((Above.after t above).upon base root).step token rest =
          ((Above.after t above).upon base root).betweenAnd token := by
        show Machine.afterOperand _ _ _ = _
        rw [Machine.afterOperand, hkind]
        simp only [hpending, hwaits, if_true]
      rw [hstep, Machine.betweenAnd, closeWhile?_base_none hclose hne] at h
      cases h
    | some result =>
      obtain ⟨left, u⟩ := result
      have hgoes : Goes token rest (.after t above) (.operand (received u left)) false :=
        .upTo hkind hwaits hclose
      have hleft := closeAbove_of_waits hwaits hclose
      rw [step_upTo hkind ((hheld.waits base true).trans hwaits) hclose (.inl hleft)] at h
      cases h
      exact ⟨_, hgoes, by rw [Above.upon, received_append hleft]⟩
  · have hand : token.kind = .keyword .and → Machine.waitsForAnd true above = false := by
      intro hkind
      simpa [hkind] using hwaits
    have hlist : o = .in_ → opensList rest := by
      rintro rfl
      exact opensList_of_step rfl ho h
    rw [step_operator rfl ho hlist fun hkind => hpending.trans (hand hkind)] at h
    obtain ⟨m₁, hopen, hone⟩ := bind_eq_ok h
    cases hone
    obtain ⟨m₂, hclose, hopen⟩ := bind_eq_ok hopen
    obtain ⟨left, u, hclosed, hleft, rfl⟩ :=
      hheld.closeTier (Int.le_trans (by decide) (operatorTier_bounds o).1) hclose
    rw [takeLast?_base (by simp [hleft])] at hopen
    cases hopen
    exact ⟨_, .between ho hlist hand hclosed, rfl⟩

/-- What a `not` behind an operand can do. -/
theorem Held.goes_of_not (hheld : Held above) (hnot : token.kind = .keyword .not)
    (h : ((Above.after t above).upon base root).step token rest = .ok (m, used)) :
    ∃ dest, Goes token rest (.after t above) dest used ∧ m = dest.upon base root := by
  have hstep : ((Above.after t above).upon base root).step token rest =
      ((Above.after t above).upon base root).negated token rest := by
    show Machine.afterOperand _ _ _ = _
    rw [Machine.afterOperand, hnot]
  rw [hstep] at h
  cases hrest : rest with
  | nil =>
    rw [hrest, Machine.negated, following, hnot] at h
    cases h
  | cons next more =>
    rw [hrest] at h
    cases hneg : Machine.negatable? next.kind with
    | none => simp [Machine.negated, following, hneg, reject] at h
    | some o =>
      obtain ⟨ho, hnegatable⟩ := operatorOf?_of_negatable? hneg
      have hlist : o = .in_ → opensList more := by
        rintro rfl
        exact opensList_of_negated hneg h
      rw [negated_eq ho hnegatable hlist] at h
      obtain ⟨m₁, hclose, hopen⟩ := bind_eq_ok h
      obtain ⟨left, u, hclosed, hleft, rfl⟩ :=
        hheld.closeTier (Int.le_trans (by decide) (operatorTier_bounds o).1) hclose
      rw [takeLast?_base (by simp [hleft])] at hopen
      cases hopen
      exact ⟨_, .negated hnot rfl hneg hlist hclosed, rfl⟩

/-- What a suffix behind an operand can do. -/
theorem Held.wrapLast (hheld : Held above) {tag : Tag} {trees : List Tree} {span : Span}
    (htag : 0 ≤ tier tag) (h : ((Above.after t above).upon base root).wrapLast tag trees span = .ok m) :
    ∃ left u, closeAbove (fun g => decide (tier tag ≤ tier g)) t above = some (left, u) ∧
      m = (Above.after (.node tag (u :: trees)) left).upon base root := by
  obtain ⟨m₁, hclose, -⟩ := bind_eq_ok h
  obtain ⟨left, u, hclose, hleft, -⟩ := hheld.closeTier htag hclose
  rw [wrapLast_base hclose (.inl hleft)] at h
  cases h
  exact ⟨left, u, hclose, rfl⟩

/-- What a point behind an operand can do. -/
theorem Held.goes_of_dot (hheld : Held above) (hdot : token.kind = .symbol .dot)
    (h : ((Above.after t above).upon base root).step token rest = .ok (m, used)) :
    ∃ dest, Goes token rest (.after t above) dest used ∧ m = dest.upon base root := by
  have hstep : ((Above.after t above).upon base root).step token rest =
      ((Above.after t above).upon base root).method token (following token rest) := by
    show Machine.afterOperand _ _ _ = _
    rw [Machine.afterOperand, hdot]
  rw [hstep, Machine.method] at h
  split at h
  · next name hname =>
    obtain ⟨m₁, hwrap, htwo⟩ := bind_eq_ok h
    cases htwo
    obtain ⟨left, u, hclose, rfl⟩ := hheld.wrapLast (by decide) hwrap
    exact ⟨_, .method hdot hname hclose, rfl⟩
  · cases h

/-- What a word behind an operand can do. -/
theorem Held.goes_of_name (hheld : Held above) {word : String} (hkind : token.kind = .name word)
    (h : ((Above.after t above).upon base root).step token rest = .ok (m, used)) :
    ∃ dest, Goes token rest (.after t above) dest used ∧ m = dest.upon base root := by
  have hstep : ((Above.after t above).upon base root).step token rest =
      ((Above.after t above).upon base root).interval word token := by
    show Machine.afterOperand _ _ _ = _
    rw [Machine.afterOperand, hkind]
  rw [hstep, Machine.interval] at h
  split at h
  · next unit hunit =>
    split at h
    · next hnumber =>
      rw [lastIsNumber_base (hheld.append_ne_nil base)] at hnumber
      obtain ⟨m₁, hwrap, hone⟩ := bind_eq_ok h
      cases hone
      obtain ⟨left, u, hclose, rfl⟩ := hheld.wrapLast (by decide) hwrap
      exact ⟨_, .interval hkind hunit hnumber hclose, rfl⟩
    · cases h
  · cases h

/-- What a comma behind an operand can do. -/
theorem Held.goes_of_comma (hheld : Held above) (hkind : token.kind = .symbol .comma)
    (h : ((Above.after t above).upon base root).step token rest = .ok (m, used)) :
    ∃ dest, Goes token rest (.after t above) dest used ∧ m = dest.upon base root := by
  have hstep : ((Above.after t above).upon base root).step token rest =
      ((Above.after t above).upon base root).comma token := by
    show Machine.afterOperand _ _ _ = _
    rw [Machine.afterOperand, hkind]
  rw [hstep, Machine.comma] at h
  split at h
  · next hin =>
    cases hclose : closeAbove (fun tag => tag != .par) t above with
    | none =>
      rw [closeWhile?_base_none hclose (hheld.append_ne_nil base)] at h
      cases h
    | some result =>
      obtain ⟨left, u⟩ := result
      obtain ⟨f, below, rfl, htag⟩ := hheld.exists_par (fun o => rfl) rfl hclose
      obtain ⟨closed, heq, -, -⟩ := closeAbove_eq_some hclose
      have hinside := hheld.inside ⟨f, by rw [heq]; simp, htag⟩
      rw [closeWhile?_base hclose (.inl (by simp))] at h
      cases h
      exact ⟨_, .comma hkind hinside hclose, rfl⟩
  · cases h

/-- What a closing parenthesis behind an operand can do. -/
theorem Held.goes_of_closing (hheld : Held above) (hbase : base ≠ [] ∨ ¬ EndsInPar above)
    (hkind : token.kind = .symbol .rightParen)
    (h : ((Above.after t above).upon base root).step token rest = .ok (m, used)) :
    ∃ dest, Goes token rest (.after t above) dest used ∧ m = dest.upon base root := by
  have hstep := step_rightParen (m := (Above.after t above).upon base root) rfl hkind rest
  rw [hstep] at h
  obtain ⟨m₁, htier, -⟩ := bind_eq_ok h
  obtain ⟨left, u, hclose, -, -⟩ := hheld.closeTier (by decide) htier
  obtain ⟨f, below, rfl, htag⟩ := hheld.exists_par
    (fun o => decide_eq_true (parenTier_le_operatorTier o)) rfl hclose
  have hne : below ++ base ≠ [] := by
    intro heq
    obtain ⟨rfl, rfl⟩ := List.append_eq_nil_iff.1 heq
    obtain ⟨closed, heq, -, -⟩ := closeAbove_eq_some hclose
    refine (hbase.resolve_left fun hne => hne rfl) ?_
    rw [EndsInPar, heq, List.map_append, List.getLast?_append_of_ne_nil _ (by simp)]
    exact congrArg some htag
  rw [← hstep, step_closing hkind htag hclose hne rest] at h
  cases h
  exact ⟨_, .closing hkind htag hclose, rfl⟩

/-- **What a step of an expression can do while a node cannot be closed.** -/
theorem goes_of_step (hheld : Held from_.frames) (hbase : base ≠ [] ∨ ¬ EndsInPar from_.frames)
    (h : (from_.upon base root).step token rest = .ok (m, used)) :
    ∃ dest, Goes token rest from_ dest used ∧ m = dest.upon base root := by
  obtain ⟨kind, span⟩ := token
  cases from_ with
  | operand above => exact goes_of_operand (hheld.append_ne_nil base) h
  | after t above =>
    change Held above at hheld
    cases ho : operatorOf? kind with
    | some o => exact hheld.goes_of_operator ho h
    | none =>
      -- all that is left are suffixes, the closing of a list or of its item, and words of clauses
      cases kind with
      | name word => exact hheld.goes_of_name rfl h
      | symbol symbol =>
        cases symbol with
        | rightParen => exact hheld.goes_of_closing hbase rfl h
        | comma => exact hheld.goes_of_comma rfl h
        | dot => exact hheld.goes_of_dot rfl h
        | _ => first | exact absurd h (hheld.step_ne_ok rfl (by simp) _) | cases ho
      | keyword keyword =>
        cases keyword with
        | not => exact hheld.goes_of_not rfl h
        | from_ => exact absurd h (hheld.from_ne_ok rfl _)
        | _ => first | exact absurd h (hheld.step_ne_ok rfl (by simp) _) | cases ho
      | _ => exact absurd h (hheld.step_ne_ok rfl (by simp) _)

/-! ## Nodes of expressions -/

theorem inExpression_op (o : Operator) (s : Span) (done : List Tree) :
    (⟨.op o, s, done⟩ : Frame).InExpression := .inr ⟨o, rfl⟩

theorem inExpression_of_closeAbove (h : ∀ f ∈ above, f.InExpression)
    (hclose : closeAbove p t above = some (left, u)) : ∀ f ∈ left, f.InExpression := by
  obtain ⟨closed, rfl, -, -⟩ := closeAbove_eq_some hclose
  intro f hf
  exact h f (List.mem_append_right _ hf)

theorem inExpression_received (h : ∀ f ∈ above, f.InExpression) (t : Tree) :
    ∀ f ∈ received t above, f.InExpression := by
  cases above with
  | nil => exact h
  | cons f above =>
    obtain ⟨hf, habove⟩ := List.forall_mem_cons.1 h
    exact List.forall_mem_cons.2 ⟨hf, habove⟩

/-- An expression opens nodes of expressions only. -/
theorem Goes.inExpression (h : Goes token rest from_ dest used)
    (hfrom : ∀ f ∈ from_.frames, f.InExpression) : ∀ f ∈ dest.frames, f.InExpression := by
  cases h with
  | leaf h => exact hfrom
  | signed hminus h => exact hfrom
  | opening h => exact List.forall_mem_cons.2 ⟨.inl rfl, hfrom⟩
  | before h hunsigned => exact List.forall_mem_cons.2 ⟨inExpression_op _ _ _, hfrom⟩
  | between h hlist hand hclose =>
    exact List.forall_mem_cons.2 ⟨inExpression_op _ _ _, inExpression_of_closeAbove hfrom hclose⟩
  | negated hnot hrest h hlist hclose =>
    have hleft := inExpression_of_closeAbove hfrom hclose
    exact List.forall_mem_cons.2 ⟨inExpression_op _ _ _,
      List.forall_mem_cons.2 ⟨inExpression_op _ _ _, hleft⟩⟩
  | upTo h hwaits hclose => exact inExpression_received (inExpression_of_closeAbove hfrom hclose) _
  | method hdot h hclose => exact inExpression_of_closeAbove hfrom hclose
  | interval h hunit hnumber hclose => exact inExpression_of_closeAbove hfrom hclose
  | comma h hinside hclose => exact inExpression_received (inExpression_of_closeAbove hfrom hclose) _
  | closing h hpar hclose => exact (List.forall_mem_cons.1 (inExpression_of_closeAbove hfrom hclose)).2

/-! ## The end -/

/-- Closing everything leaves nothing open. -/
theorem closeAbove_true (h : closeAbove (fun _ => true) t above = some (left, u)) : left = [] := by
  obtain ⟨-, -, -, hstop⟩ := closeAbove_eq_some h
  cases left with
  | nil => rfl
  | cons f left => exact absurd (hstop f left rfl) (by simp)

/-- **The source does not end while a node cannot be closed.** -/
theorem Held.finish_ne_ok (hheld : Held from_.frames) (last : Token) (tree : Tree) :
    (from_.upon base root).finish last ≠ .ok tree := by
  intro h
  unfold Machine.finish at h
  split at h
  · next hend =>
    cases from_ with
    | operand above => exact absurd hend (by simp [Above.upon, Expect.acceptsEnd])
    | after t above =>
      change Held above at hheld
      split at h
      · cases h
      · next hparen =>
        obtain ⟨m, hclose, -⟩ := bind_eq_ok h
        cases habove : closeAbove (fun _ => true) t above with
        | none =>
          rw [closeWhile?_base_none habove (hheld.append_ne_nil base)] at hclose
          cases hclose
        | some result =>
          obtain ⟨left, u⟩ := result
          obtain rfl := closeAbove_true habove
          -- no parenthesis is open, so closing all is closing all but parentheses
          have hspares : ∀ f ∈ above, (f.tag != .par) = true := by
            intro f hf
            rw [bne_iff_ne]
            intro hpar
            have hin : ((Above.after t above).upon base root).insideExpression = true :=
              insideExpression_of_inside (hheld.inside ⟨f, hf, hpar⟩)
            rw [Machine.insideExpression, hparen] at hin
            cases hin
          rw [← closeAbove_congr (p := fun tag => tag != .par) hspares] at habove
          exact closeAbove_of_holds hheld.holds rfl u habove
  · cases h

/-- Nor does a run end with a tree there. -/
theorem Held.runTokens_ne_ok (hheld : Held from_.frames) (hlast : token.kind.isLast = true)
    (rest : List Token) (tree : Tree) : runTokens (from_.upon base root) (token :: rest) ≠ .ok tree := by
  intro h
  unfold runTokens at h
  split at h
  · cases h
  · exact hheld.finish_ne_ok token tree h
  · next hinvalid hfinish =>
    cases hkind : token.kind with
    | invalid reason => exact hinvalid reason hkind
    | finish => exact hfinish hkind
    | _ => simp [hkind, TokenKind.isLast] at hlast

end RelationSql.Grammar
