import RelationSql.Proofs.Grammar.Phrases

/-!
# Trees shown without parentheses

A tree is shown by its operands and operators from left to right, without any parentheses but its own
(`Shown`). Where the words of its first operand end can be told from the number of operands in it
(`Ends.unique`), whatever the words are derived for.
-/

namespace RelationSql.Grammar

open RelationSql.Source (Span Token TokenKind)

variable {token : Token} {words more front rest joint : List Token} {piece : Piece} {o : Operator} {k : Int}
  {n m : Nat} {t l r : Tree} {ts : List Tree}

/-! ## Words of a tree -/

/-- The tree with so many negations around it. -/
def denied : Nat → Tree → Tree
  | 0, t => t
  | n + 1, t => .node (.op .not) [denied n t]

/-- The tokens show a tree, or the items of a parenthesis. A `not` in front of `like`, `regexp`, `in` or
`between` stands in front of the operator, any other in front of its operand. -/
inductive Shown : Piece → List Token → Prop
  | operand {token : Token} {t : Tree} (h : operandOf? token.kind = some t) : Shown (.tree t) [token]
  | signed {minus number : Token} {t : Tree} (hminus : minus.kind = .symbol .minus)
      (h : signedLiteral? minus number = some t) : Shown (.tree t) [minus, number]
  | parenthesis {opening closing : Token} {ts : List Tree} {words : List Token}
      (hopening : opening.kind = .symbol .leftParen) (h : Shown (.list ts) words)
      (hclosing : closing.kind = .symbol .rightParen) :
      Shown (.tree (.node .par ts)) (opening :: (words ++ [closing]))
  | not {token : Token} {t : Tree} {words : List Token} (htoken : token.kind = .keyword .not)
      (hfront : negatedWithin t = false) (h : Shown (.tree t) words) :
      Shown (.tree (.node (.op .not) [t])) (token :: words)
  | minus {token : Token} {t : Tree} {words : List Token} (htoken : token.kind = .symbol .minus)
      (hunsigned : ∀ number, words = [number] → signedLiteral? token number = none)
      (h : Shown (.tree t) words) : Shown (.tree (.node (.op .changeSign) [t])) (token :: words)
  | binary {n : Nat} {o : Operator} {l r : Tree} {words joint more : List Token} (ho : isBinary o = true)
      (hl : Shown (.tree l) words) (hjoint : Coupling o 0 n joint) (hlist : o = .in_ → opensList more)
      (hr : Shown (.tree r) more) :
      Shown (.tree (denied n (.node (.op o) [l, r]))) (words ++ (joint ++ more))
  | between {n : Nat} {v lo hi : Tree} {and : Token} {words joint lower upper : List Token}
      (hv : Shown (.tree v) words) (hjoint : Coupling .between 0 n joint) (hlo : Shown (.tree lo) lower)
      (hand : and.kind = .keyword .and) (hhi : Shown (.tree hi) upper) :
      Shown (.tree (denied n (.node (.op .between) [v, lo, hi]))) (words ++ (joint ++ (lower ++ and :: upper)))
  | item {t : Tree} {words : List Token} (h : Shown (.tree t) words) : Shown (.list [t]) words
  | comma {ts : List Tree} {t : Tree} {comma : Token} {words more : List Token} (h : Shown (.list ts) words)
      (hcomma : comma.kind = .symbol .comma) (ht : Shown (.tree t) more) :
      Shown (.list (ts ++ [t])) (words ++ comma :: more)

/-- A list is shown by its first item and the others. -/
theorem Shown.cons {comma : Token} (ht : Shown (.tree t) words) (hcomma : comma.kind = .symbol .comma)
    (h : Shown (.list ts) more) : Shown (.list (t :: ts)) (words ++ comma :: more) := by
  generalize hpiece : Piece.list ts = piece at h
  induction h generalizing ts with
  | item hu =>
    cases hpiece
    exact Shown.comma (.item ht) hcomma hu
  | @comma us u comma' inner more h hcomma' hu ih _ =>
    cases hpiece
    have hall := (ih rfl).comma hcomma' hu
    simpa using hall
  | _ => cases hpiece

/-! ## Where the words of an operand end -/

/-- Does an operand end with the token? -/
def isEnd (kind : TokenKind) : Bool :=
  (operandOf? kind).isSome || kind == .symbol .rightParen

mutual

/-- The number of operands and parentheses in a tree. -/
def endCount : Tree → Nat
  | .node .par ts => endCounts ts + 1
  | .node (.op _) ts => endCounts ts
  | _ => 1

/-- The number of operands and parentheses in trees. -/
def endCounts : List Tree → Nat
  | [] => 0
  | t :: ts => endCount t + endCounts ts

end

/-- The number of operands and parentheses in a piece. -/
def Piece.ends : Piece → Nat
  | .tree t => endCount t
  | .list ts => endCounts ts

/-- So many of the words end operands, and the last one does. -/
structure Ends (count : Nat) (words : List Token) : Prop where
  count_eq : words.countP (fun token => isEnd token.kind) = count
  last : ∃ front token, words = front ++ [token] ∧ isEnd token.kind = true

theorem endCounts_append (ts : List Tree) (t : Tree) : endCounts (ts ++ [t]) = endCounts ts + endCount t := by
  induction ts with
  | nil => simp [endCounts]
  | cons u ts ih => rw [List.cons_append, endCounts, ih, endCounts, Nat.add_assoc]

@[simp] theorem endCount_op (o : Operator) (ts : List Tree) : endCount (.node (.op o) ts) = endCounts ts := by
  simp [endCount]

@[simp] theorem endCount_par (ts : List Tree) : endCount (.node .par ts) = endCounts ts + 1 := by
  simp [endCount]

@[simp] theorem endCounts_one (t : Tree) : endCounts [t] = endCount t := by
  simp [endCounts]

@[simp] theorem endCounts_two (l r : Tree) : endCounts [l, r] = endCount l + endCount r := by
  simp [endCounts]

@[simp] theorem endCounts_three (v lo hi : Tree) : endCounts [v, lo, hi] = endCount v + endCount lo + endCount hi := by
  simp [endCounts, Nat.add_assoc]

theorem endCount_denied (n : Nat) (t : Tree) : endCount (denied n t) = endCount t := by
  induction n with
  | zero => rfl
  | succ n ih => rw [denied, endCount_op, endCounts_one, ih]

namespace Ends

variable {c d : Nat}

theorem ne_nil (h : Ends c words) : words ≠ [] := by
  obtain ⟨inner, token, rfl, -⟩ := h.last
  simp

/-- A token that ends an operand. -/
theorem single (h : isEnd token.kind = true) : Ends 1 [token] where
  count_eq := by simp [h]
  last := ⟨[], token, rfl, h⟩

/-- Words that end no operand stand in front of others. -/
theorem behind (hfront : ∀ token ∈ front, isEnd token.kind = false) (h : Ends c words) : Ends c (front ++ words) where
  count_eq := by
    have hnone : front.countP (fun token => isEnd token.kind) = 0 :=
      List.countP_eq_zero.2 fun token htoken => by simp [hfront token htoken]
    rw [List.countP_append, hnone, h.count_eq, Nat.zero_add]
  last := by
    obtain ⟨inner, token, rfl, htoken⟩ := h.last
    exact ⟨front ++ inner, token, by simp, htoken⟩

theorem cons (htoken : isEnd token.kind = false) (h : Ends c words) : Ends c (token :: words) :=
  @behind _ [token] _ (by simpa using htoken) h

theorem append (h : Ends c words) (h' : Ends d more) : Ends (c + d) (words ++ more) where
  count_eq := by rw [List.countP_append, h.count_eq, h'.count_eq]
  last := by
    obtain ⟨inner, token, rfl, htoken⟩ := h'.last
    exact ⟨words ++ inner, token, by simp, htoken⟩

/-- **Words with so many ends that end with one are found in front of any others in one way only.** -/
theorem unique {words' more' : List Token} (h : Ends c words) (h' : Ends c words')
    (heq : words ++ more = words' ++ more') : words = words' ∧ more = more' := by
  -- words that go on up to another end hold one end more
  have key : ∀ {ws extra : List Token}, Ends c ws → Ends c (ws ++ extra) → extra = [] := by
    intro ws extra hws hall
    by_contra hne
    obtain ⟨inner, token, rfl⟩ := List.eq_nil_or_concat extra |>.resolve_left hne
    obtain ⟨front, last, hlast, hend⟩ := hall.last
    rw [List.concat_eq_append, ← List.append_assoc] at hlast
    obtain ⟨-, htoken⟩ := List.append_inj' hlast rfl
    obtain rfl := List.singleton_inj.1 htoken
    have hcount := hall.count_eq
    simp [List.countP_append, hws.count_eq, hend] at hcount
  rcases List.append_eq_append_iff.1 heq with ⟨extra, rfl, rfl⟩ | ⟨extra, rfl, rfl⟩
  · obtain rfl := key h h'
    simp
  · obtain rfl := key h' h
    simp

end Ends

theorem isEnd_of_operandOf? (h : operandOf? token.kind = some t) : isEnd token.kind = true := by
  rw [isEnd, h]
  rfl

theorem isEnd_of_operatorOf? (h : operatorOf? token.kind = some o) : isEnd token.kind = false := by
  cases hkind : token.kind with
  | keyword keyword => rw [hkind] at h; cases keyword <;> first | rfl | cases h
  | symbol symbol => rw [hkind] at h; cases symbol <;> first | rfl | cases h
  | _ => rw [hkind] at h; cases h

theorem isEnd_of_prefixOperator? (h : prefixOperator? token.kind = some o) : isEnd token.kind = false := by
  cases hkind : token.kind with
  | keyword keyword => rw [hkind] at h; cases keyword <;> first | rfl | cases h
  | symbol symbol => rw [hkind] at h; cases symbol <;> first | rfl | cases h
  | _ => rw [hkind] at h; cases h

theorem isEnd_of_eq {kind : TokenKind} (h : token.kind = kind) (hkind : isEnd kind = false) :
    isEnd token.kind = false := by
  rw [h]
  exact hkind

theorem Coupling.isEnd (h : Coupling o n m joint) : ∀ token ∈ joint, isEnd token.kind = false := by
  cases h with
  | plain h => simpa using isEnd_of_operatorOf? h
  | negated hnot h =>
    obtain ⟨ho, -⟩ := operatorOf?_of_negatable? h
    rw [List.forall_mem_cons, List.forall_mem_singleton]
    exact ⟨isEnd_of_eq hnot rfl, isEnd_of_operatorOf? ho⟩

theorem ends_signed {minus number : Token} (hminus : minus.kind = .symbol .minus)
    (h : signedLiteral? minus number = some t) : Ends (endCount t) [minus, number] := by
  obtain ⟨-, u, hu⟩ := exists_operand_of_signed h
  have hcount : endCount t = 1 := by
    unfold signedLiteral? at h
    split at h
    · split at h
      all_goals first | (cases h; rfl) | cases h
    · cases h
  rw [hcount]
  exact (Ends.single (isEnd_of_operandOf? hu)).cons (isEnd_of_eq hminus rfl)

theorem ends_operand (h : operandOf? token.kind = some t) : Ends (endCount t) [token] := by
  have hcount : endCount t = 1 := by
    unfold operandOf? at h
    split at h
    all_goals first | (cases h; rfl) | cases h
  rw [hcount]
  exact .single (isEnd_of_operandOf? h)

theorem ends_parenthesis {opening closing : Token} (hopening : opening.kind = .symbol .leftParen)
    (h : Ends (endCounts ts) words) (hclosing : closing.kind = .symbol .rightParen) :
    Ends (endCount (.node .par ts)) (opening :: (words ++ [closing])) := by
  have hend : isEnd closing.kind = true := by
    rw [hclosing]
    rfl
  rw [endCount_par]
  exact (h.append (.single hend)).cons (isEnd_of_eq hopening rfl)

theorem ends_binary (hl : Ends (endCount l) words) (hjoint : Coupling o n m joint) (hr : Ends (endCount r) more) :
    Ends (endCount (.node (.op o) [l, r])) (words ++ (joint ++ more)) := by
  rw [endCount_op, endCounts_two]
  exact hl.append (hr.behind hjoint.isEnd)

theorem ends_between {v lo hi : Tree} {and : Token} {lower upper : List Token} (hv : Ends (endCount v) words)
    (hjoint : Coupling .between n m joint) (hlo : Ends (endCount lo) lower) (hand : and.kind = .keyword .and)
    (hhi : Ends (endCount hi) upper) :
    Ends (endCount (.node (.op .between) [v, lo, hi])) (words ++ (joint ++ (lower ++ and :: upper))) := by
  rw [endCount_op, endCounts_three, Nat.add_assoc]
  exact hv.append ((hlo.append (hhi.cons (isEnd_of_eq hand rfl))).behind hjoint.isEnd)

theorem ends_comma {comma : Token} (h : Ends (endCounts ts) words) (hcomma : comma.kind = .symbol .comma)
    (ht : Ends (endCount t) more) : Ends (endCounts (ts ++ [t])) (words ++ comma :: more) := by
  rw [endCounts_append]
  exact h.append (ht.cons (isEnd_of_eq hcomma rfl))

/-- The words that a piece is derived for end its operands. -/
theorem Derives.ends (h : Derives k n piece words) : Ends piece.ends words := by
  induction h with
  | operand h => exact ends_operand h
  | signed hminus h => exact ends_signed hminus h
  | parenthesis hopening _ hclosing ih => exact ends_parenthesis hopening ih hclosing
  | before ho _ _ ih =>
    rw [Piece.ends, endCount_op, endCounts_one]
    exact ih.cons (isEnd_of_prefixOperator? ho)
  | binary _ _ _ _ hjoint _ _ ihl ihr => exact ends_binary ihl hjoint ihr
  | between _ _ _ hjoint _ _ hand _ ihv ihlo ihhi => exact ends_between ihv hjoint ihlo hand ihhi
  | negation _ ih =>
    rw [Piece.ends, endCount_op, endCounts_one]
    exact ih
  | item _ ih =>
    rw [Piece.ends, endCounts_one]
    exact ih
  | comma _ hcomma _ ih iht => exact ends_comma ih hcomma iht

/-- The words that show a piece end its operands. -/
theorem Shown.ends (h : Shown piece words) : Ends piece.ends words := by
  induction h with
  | operand h => exact ends_operand h
  | signed hminus h => exact ends_signed hminus h
  | parenthesis hopening _ hclosing ih => exact ends_parenthesis hopening ih hclosing
  | not htoken _ _ ih =>
    rw [Piece.ends, endCount_op, endCounts_one]
    exact ih.cons (isEnd_of_eq htoken rfl)
  | minus htoken _ _ ih =>
    rw [Piece.ends, endCount_op, endCounts_one]
    exact ih.cons (isEnd_of_eq htoken rfl)
  | binary _ _ hjoint _ _ ihl ihr =>
    rw [Piece.ends, endCount_denied]
    exact ends_binary ihl hjoint ihr
  | between _ hjoint _ hand _ ihv ihlo ihhi =>
    rw [Piece.ends, endCount_denied]
    exact ends_between ihv hjoint ihlo hand ihhi
  | item _ ih =>
    rw [Piece.ends, endCounts_one]
    exact ih
  | comma _ hcomma _ ih iht => exact ends_comma ih hcomma iht

/-! ## Phrases -/

theorem Coupling.phraseAfter (h : Coupling o n m joint) (rest : List Token) :
    Grammar.phraseAfter (joint ++ rest) = phraseOperand rest := by
  cases h with
  | plain h => exact phraseAfter_operator h rest
  | @negated not token hnot h =>
    obtain ⟨ho, -⟩ := operatorOf?_of_negatable? h
    exact (phraseAfter_not hnot (token :: rest)).trans (phraseAfter_operator ho rest)

/-- The words that show a piece are those of a phrase. -/
theorem Shown.phraseOperand (h : Shown piece words) (rest : List Token) :
    Grammar.phraseOperand (words ++ rest) = phraseAfter rest := by
  induction h generalizing rest with
  | operand h => exact phraseOperand_operand h rest
  | @signed minus number t hminus h =>
    obtain ⟨-, u, hu⟩ := exists_operand_of_signed h
    have ho : prefixOperator? minus.kind = some .changeSign := by
      rw [hminus]
      rfl
    exact (phraseOperand_before ho (number :: rest)).trans (phraseOperand_operand hu rest)
  | @parenthesis opening closing ts words hopening _ hclosing ih =>
    rw [List.cons_append, phraseOperand_opening hopening, List.append_assoc, ih]
    exact phraseAfter_closing hclosing rest
  | @not token t words htoken _ _ ih =>
    have ho : prefixOperator? token.kind = some .not := by
      rw [htoken]
      rfl
    rw [List.cons_append, phraseOperand_before ho, ih]
  | @minus token t words htoken _ _ ih =>
    have ho : prefixOperator? token.kind = some .changeSign := by
      rw [htoken]
      rfl
    rw [List.cons_append, phraseOperand_before ho, ih]
  | binary _ _ hjoint _ _ ihl ihr => rw [List.append_assoc, List.append_assoc, ihl, hjoint.phraseAfter, ihr]
  | @between n v lo hi and words joint lower upper _ hjoint _ hand _ ihv ihlo ihhi =>
    have ho : operatorOf? and.kind = some .and := by
      rw [hand]
      rfl
    rw [List.append_assoc, List.append_assoc, List.append_assoc, List.cons_append, ihv, hjoint.phraseAfter, ihlo,
      phraseAfter_operator ho, ihhi]
  | item _ ih => exact ih rest
  | comma _ hcomma _ ih iht => rw [List.append_assoc, List.cons_append, ih, phraseAfter_comma hcomma, iht]

theorem Coupling.isLast_eq_false (h : Coupling o n m joint) : ∀ token ∈ joint, token.kind.isLast = false := by
  cases h with
  | plain h => simpa using isLast_of_operatorOf? h
  | negated hnot h =>
    obtain ⟨ho, -⟩ := operatorOf?_of_negatable? h
    rw [List.forall_mem_cons, List.forall_mem_singleton]
    exact ⟨isLast_of_eq hnot rfl, isLast_of_operatorOf? ho⟩

/-- The source does not end within the words that show a piece. -/
theorem Shown.isLast_eq_false (h : Shown piece words) : ∀ token ∈ words, token.kind.isLast = false := by
  induction h with
  | operand h => simpa using isLast_of_operandOf? h
  | signed hminus h =>
    rw [List.forall_mem_cons, List.forall_mem_singleton]
    exact ⟨isLast_of_eq hminus rfl, isLast_of_signedLiteral? h⟩
  | parenthesis hopening _ hclosing ih =>
    rw [List.forall_mem_cons, List.forall_mem_append, List.forall_mem_singleton]
    exact ⟨isLast_of_eq hopening rfl, ih, isLast_of_eq hclosing rfl⟩
  | not htoken _ _ ih => exact List.forall_mem_cons.2 ⟨isLast_of_eq htoken rfl, ih⟩
  | minus htoken _ _ ih => exact List.forall_mem_cons.2 ⟨isLast_of_eq htoken rfl, ih⟩
  | binary _ _ hjoint _ _ ihl ihr =>
    rw [List.forall_mem_append, List.forall_mem_append]
    exact ⟨ihl, hjoint.isLast_eq_false, ihr⟩
  | between _ hjoint _ hand _ ihv ihlo ihhi =>
    rw [List.forall_mem_append, List.forall_mem_append, List.forall_mem_append, List.forall_mem_cons]
    exact ⟨ihv, hjoint.isLast_eq_false, ihlo, isLast_of_eq hand rfl, ihhi⟩
  | item _ ih => exact ih
  | comma _ hcomma _ ih iht =>
    rw [List.forall_mem_append, List.forall_mem_cons]
    exact ⟨ih, isLast_of_eq hcomma rfl, iht⟩

end RelationSql.Grammar
