import RelationSql.Proofs.Grammar.Layout

/-!
# Precedence of infix operators

A chain is a sequence of operands with infix operators between them, where an operand may be a chain
in parentheses. `WellTiered` says that every operator of a tree has an operand of at least its own
tier on its left and an operand of a higher tier on its right. A chain is parsed into the only such
tree whose words are the words of the chain (`parse_chain`).
-/

namespace RelationSql.Grammar

open RelationSql.Source (TokenKind)

/-! ## Chains -/

/-- The text of one token. -/
structure Lexeme where
  first : Char
  more : List Char
  kind : TokenKind
  reads : Source.read first more = ⟨kind, first :: more, []⟩

/-- The characters of the token. -/
def Lexeme.text (lexeme : Lexeme) : List Char :=
  lexeme.first :: lexeme.more

/-- The infix operator that a token stands for, `is` included. -/
def chainOperator? : TokenKind → Option Operator
  | .keyword .is => some .is
  | kind => infixOperator? kind

mutual

/-- A name, a literal or a chain in parentheses. -/
inductive Operand where
  | literal (lexeme : Lexeme) (tree : Tree) (stands : operandOf? lexeme.kind = some tree)
  | grouped (chain : Chain)

/-- Operands with infix operators between them. -/
inductive Chain where
  | single (operand : Operand)
  | link (operand : Operand) (lexeme : Lexeme) (operator : Operator)
      (stands : chainOperator? lexeme.kind = some operator) (rest : Chain)

end

mutual

/-- The tokens of an operand with blanks between them. -/
def Operand.text : Operand → List Char
  | .literal lexeme _ _ => lexeme.text
  | .grouped chain => '(' :: ' ' :: (chain.text ++ ' ' :: [')'])

/-- The tokens of a chain with blanks between them. -/
def Chain.text : Chain → List Char
  | .single operand => operand.text
  | .link operand lexeme _ _ rest => operand.text ++ ' ' :: (lexeme.text ++ ' ' :: rest.text)

end

mutual

/-- The words of an operand. -/
def Operand.words : Operand → List Item
  | .literal _ tree _ => [.operand tree]
  | .grouped chain => .opening :: chain.words ++ [.closing]

/-- The words of a chain. -/
def Chain.words : Chain → List Item
  | .single operand => operand.words
  | .link operand _ operator _ rest => operand.words ++ .operator operator :: rest.words

end

/-! ## Trees in the order of the tiers -/

/-- The tier of the root of a tree; a tree without an operator at its root binds tightest. -/
def rootTier : Tree → Int
  | .node (.op o) _ => operatorTier o
  | _ => 60

/-- Every operator binds at most as tightly as the operand on its left and less tightly than the one
on its right; parentheses hold one tree. -/
inductive WellTiered : Tree → Prop where
  | leaf {t : Tree} : isLeaf t = true → WellTiered t
  | par {t : Tree} : WellTiered t → WellTiered (.node .par [t])
  | binary {o : Operator} {l r : Tree} : WellTiered l → WellTiered r →
      operatorTier o ≤ rootTier l → operatorTier o < rootTier r →
      WellTiered (.node (.op o) [l, r])

/-- Puts an operand and an operator in front of a tree. -/
def lead (u : Tree) (o : Operator) : Tree → Tree
  | .node (.op q) [l, r] =>
    if operatorTier q ≤ operatorTier o then .node (.op q) [lead u o l, r]
    else .node (.op o) [u, .node (.op q) [l, r]]
  | t => .node (.op o) [u, t]

mutual

/-- The tree of an operand. -/
def Operand.tree : Operand → Tree
  | .literal _ tree _ => tree
  | .grouped chain => .node .par [chain.tree]

/-- The tree of a chain. -/
def Chain.tree : Chain → Tree
  | .single operand => operand.tree
  | .link operand _ operator _ rest => lead operand.tree operator rest.tree

end

/-- The words of an operator node with two children, whatever the operator is. -/
theorem items_pair (o : Operator) (l r : Tree) :
    items (.node (.op o) [l, r]) = items l ++ .operator o :: items r := by
  cases o <;> simp [items]

theorem lead_of_leaf {t : Tree} (h : isLeaf t = true) (u : Tree) (o : Operator) :
    lead u o t = .node (.op o) [u, t] := by
  unfold lead
  split
  · cases h
  · rfl

/-- What is put in front of a tree comes in front of its words. -/
theorem items_lead {t : Tree} (h : WellTiered t) (u : Tree) (o : Operator) :
    items (lead u o t) = items u ++ .operator o :: items t := by
  induction h with
  | leaf ht => rw [lead_of_leaf ht, items_pair]
  | par _ _ => rw [lead, items_pair]; simp
  | binary _ _ _ _ ihl _ =>
    rw [lead]
    split
    · rw [items_pair, items_pair, ihl, List.append_assoc, List.cons_append]
    · rw [items_pair]

/-- What is put in front of a tree lowers the tier of its root at most to that of the operator. -/
theorem le_rootTier_lead {t u : Tree} {o : Operator} {k : Int} (ht : k ≤ rootTier t)
    (ho : k ≤ operatorTier o) : k ≤ rootTier (lead u o t) := by
  unfold lead
  split
  · split
    · exact ht
    · exact ho
  · exact ho

theorem rootTier_leaf {t : Tree} (h : isLeaf t = true) : rootTier t = 60 := by
  unfold rootTier
  split
  · cases h
  · rfl

/-- An operand and an operator in front of a well-tiered tree keep it well-tiered. -/
theorem WellTiered.lead {t u : Tree} (h : WellTiered t) (hu : WellTiered u) (hroot : rootTier u = 60)
    (o : Operator) : WellTiered (lead u o t) := by
  have ho : operatorTier o < 60 := Int.lt_of_le_of_lt (operatorTier_bounds o).2 (by decide)
  have htight : operatorTier o ≤ rootTier u := by
    rw [hroot]
    exact Int.le_of_lt ho
  induction h with
  | leaf ht =>
    rw [lead_of_leaf ht]
    refine .binary hu (.leaf ht) htight ?_
    rw [rootTier_leaf ht]
    exact ho
  | par ht _ => exact .binary hu (.par ht) htight ho
  | @binary q l r hl hr hleft hright ihl _ =>
    rw [Grammar.lead]
    split
    · next hle => exact .binary ihl hr (le_rootTier_lead hleft hle) hright
    · next hlt => exact .binary hu (.binary hl hr hleft hright) htight (Int.not_le.1 hlt)

/-! ### Well-tiered trees are conditions -/

/-- Along the right edge of a well-tiered tree the tiers do not fall below that of the root. -/
theorem WellTiered.rootTier_le {t : Tree} (h : WellTiered t) :
    ∀ q ∈ spine t, rootTier t ≤ operatorTier q := by
  induction h with
  | leaf ht => simp [spine_leaf ht]
  | par _ _ => simp
  | binary _ _ _ hright _ ihr =>
    intro q hq
    rw [spine_binary, List.mem_cons] at hq
    rcases hq with rfl | hq
    · exact Int.le_refl _
    · exact Int.le_trans (Int.le_of_lt hright) (ihr q hq)

/-- A node that is no negation binds as tightly on its outside as its root. -/
theorem outerTier_eq_rootTier {t : Tree} (h : ∀ ts, t ≠ .node (.op .not) ts) :
    outerTier t = rootTier t := by
  cases t with
  | atom text => rfl
  | node tag ts =>
    cases tag with
    | op o =>
      apply outerTier_op
      rintro rfl
      exact h ts rfl
    | _ => rfl

/-- A well-tiered tree of binary operators other than `in` is a condition. -/
theorem WellTiered.condition {t : Tree} (h : WellTiered t)
    (hops : ∀ o, .operator o ∈ items t → isBinary o = true ∧ o ≠ .in_) :
    Condition (fun _ => True) t := by
  induction h with
  | leaf ht => exact .leaf ht trivial
  | @par t _ ih =>
    refine .par (by simp) ?_
    intro u hu
    rw [List.mem_singleton.1 hu]
    exact ih fun o ho => hops o (by simp [ho])
  | @binary o l r hl hr hleft hright ihl ihr =>
    rw [items_pair] at hops
    obtain ⟨ho, hin⟩ := hops o (by simp)
    have hopsl := fun q hq => hops q (List.mem_append_left _ hq)
    have hopsr := fun q hq => hops q (List.mem_append_right _ (List.mem_cons_of_mem _ hq))
    refine .binary ho (ihl hopsl) ?_ (ihr hopsr) ?_ fun heq => absurd heq hin
    · exact fun q hq => Int.le_trans hleft (hl.rootTier_le q hq)
    · rw [outerTier_eq_rootTier]
      · exact hright
      · rintro ts rfl
        cases hr with
        | leaf ht => cases ht
        | binary =>
          rw [items_pair] at hopsr
          exact absurd (hopsr .not (by simp)).1 (by decide)

/-- A well-tiered tree holds no `between`, so nothing in it is regrouped. -/
theorem WellTiered.isRegular {t : Tree} (h : WellTiered t) : isRegular t = true := by
  induction h with
  | @leaf t ht =>
    unfold Grammar.isLeaf at ht
    unfold Grammar.isRegular
    split at ht <;> simp_all
  | par _ ih => simp [Grammar.isRegular, areRegular, ih]
  | binary _ _ _ _ ihl ihr => simp [Grammar.isRegular, areRegular, ihl, ihr]

/-! ## The tree of a chain -/

theorem isLeaf_of_operandOf? {kind : TokenKind} {t : Tree} (h : operandOf? kind = some t) :
    isLeaf t = true := by
  unfold operandOf? at h
  split at h <;> cases h <;> rfl

theorem operatorOf?_of_chainOperator? {kind : TokenKind} {o : Operator}
    (h : chainOperator? kind = some o) :
    operatorOf? kind = some o ∧ isBinary o = true ∧ o ≠ .in_ := by
  cases kind with
  | keyword k => cases k <;> cases h <;> decide
  | symbol k => cases k <;> cases h <;> decide
  | _ => cases h

mutual

/-- The tree of an operand is well-tiered, binds tightest and has the words of the operand. -/
theorem Operand.tree_spec : (operand : Operand) →
    WellTiered operand.tree ∧ rootTier operand.tree = 60 ∧ items operand.tree = operand.words
  | .literal _ _ stands => by
    have hleaf := isLeaf_of_operandOf? stands
    rw [Operand.tree, Operand.words]
    exact ⟨.leaf hleaf, rootTier_leaf hleaf, items_leaf hleaf⟩
  | .grouped chain => by
    obtain ⟨hwell, hitems⟩ := chain.tree_spec
    rw [Operand.tree, Operand.words, items_par, itemsAll_singleton, hitems]
    exact ⟨.par hwell, rfl, rfl⟩

/-- The tree of a chain is well-tiered and has the words of the chain. -/
theorem Chain.tree_spec : (chain : Chain) →
    WellTiered chain.tree ∧ items chain.tree = chain.words
  | .single operand => by
    obtain ⟨hwell, -, hitems⟩ := operand.tree_spec
    rw [Chain.tree, Chain.words]
    exact ⟨hwell, hitems⟩
  | .link operand _ operator _ rest => by
    obtain ⟨hoperand, hroot, hitems⟩ := operand.tree_spec
    obtain ⟨hrest, hitems'⟩ := rest.tree_spec
    rw [Chain.tree, Chain.words, items_lead hrest, hitems, hitems']
    exact ⟨hrest.lead hoperand hroot operator, rfl⟩

end

mutual

theorem Operand.isBinary_of_mem : (operand : Operand) → ∀ o, .operator o ∈ operand.words →
    isBinary o = true ∧ o ≠ .in_
  | .literal _ _ _, o, h => by
    rw [Operand.words] at h
    simp at h
  | .grouped chain, o, h => by
    rw [Operand.words] at h
    exact chain.isBinary_of_mem o (by simpa using h)

/-- The operators of a chain stand between two operands, and `in` is not among them. -/
theorem Chain.isBinary_of_mem : (chain : Chain) → ∀ o, .operator o ∈ chain.words →
    isBinary o = true ∧ o ≠ .in_
  | .single operand, o, h => by
    rw [Chain.words] at h
    exact operand.isBinary_of_mem o h
  | .link operand _ operator stands rest, o, h => by
    rw [Chain.words] at h
    simp only [List.mem_append, List.mem_cons, Item.operator.injEq] at h
    rcases h with h | rfl | h
    · exact operand.isBinary_of_mem o h
    · exact (operatorOf?_of_chainOperator? stands).2
    · exact rest.isBinary_of_mem o h

end

mutual

theorem Operand.lays : (operand : Operand) → Lays operand.words operand.text
  | .literal lexeme tree stands => by
    rw [Operand.words, Operand.text]
    have hspelled : (Item.operand tree).SpelledBy lexeme.kind := stands
    refine Lays.lexeme hspelled ?_ lexeme.reads
    cases hkind : lexeme.kind with
    | invalid reason => rw [hkind] at stands; cases stands
    | finish => rw [hkind] at stands; cases stands
    | _ => rfl
  | .grouped chain => by
    rw [Operand.words, Operand.text]
    have hopening : Lays [.opening] ['('] := Lays.nil.opening
    have hclosing : Lays [.closing] [')'] := Lays.nil.closing
    exact hopening.spaced (chain.lays.spaced hclosing)

/-- The text of a chain is read into tokens for its words. -/
theorem Chain.lays : (chain : Chain) → Lays chain.words chain.text
  | .single operand => by
    rw [Chain.words, Chain.text]
    exact operand.lays
  | .link operand lexeme operator stands rest => by
    rw [Chain.words, Chain.text]
    have hoperator := (operatorOf?_of_chainOperator? stands).1
    have hlexeme : Lays [.operator operator] lexeme.text :=
      Lays.lexeme hoperator (isLast_of_operatorOf? hoperator) lexeme.reads
    exact operand.lays.spaced (hlexeme.spaced rest.lays)

end

/-- A well-tiered tree with the words of a chain is what the chain is parsed into. -/
theorem Chain.parse_of_wellTiered (chain : Chain) {t : Tree} (ht : WellTiered t)
    (hitems : items t = chain.words) :
    parse (String.ofList ("a where ".toList ++ chain.text)) = .ok (filtered "a" t) := by
  have hcondition : Condition (fun _ => True) t := by
    apply ht.condition
    rw [hitems]
    exact chain.isBinary_of_mem
  have hlays : Lays (items t) chain.text := by
    rw [hitems]
    exact chain.lays
  rw [parse_condition hcondition hlays, (regroup_eq_self_iff t).2 ht.isRegular]

/-- **A chain is parsed into the one tree with its words in which every operator has an operand of at
least its own tier on its left and an operand of a higher tier on its right.** -/
theorem parse_chain (chain : Chain) :
    ∃ t, parse (String.ofList ("a where ".toList ++ chain.text)) = .ok (filtered "a" t) ∧
      items t = chain.words ∧ WellTiered t ∧
      ∀ t', items t' = chain.words → WellTiered t' → t' = t := by
  obtain ⟨hwell, hitems⟩ := chain.tree_spec
  have hparse := chain.parse_of_wellTiered hwell hitems
  refine ⟨chain.tree, hparse, hitems, hwell, ?_⟩
  intro t' hitems' hwell'
  have hparse' := chain.parse_of_wellTiered hwell' hitems'
  rw [hparse] at hparse'
  simp only [filtered, Except.ok.injEq, Tree.node.injEq, List.cons.injEq, and_true, true_and]
    at hparse'
  exact hparse'.symm

end RelationSql.Grammar
