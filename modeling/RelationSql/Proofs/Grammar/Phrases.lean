import RelationSql.Proofs.Grammar.Unfinished

/-!
# Phrases

A phrase is written with operands, parentheses, lists and operators, also with those in front of their
operand; it has neither methods nor units nor clauses. A relation with a phrase is parsed exactly if the
words of the phrase are derived (`parseTokens_iff`), so the grammar tells all about how phrases are read.
-/

namespace RelationSql.Grammar

open RelationSql.Source (Span Token TokenKind)

/-! ## Tokens of phrases -/

mutual

/-- Are the tokens up to the end those of a phrase, an operand being expected? -/
def phraseOperand : List Token → Bool
  | [] => false
  | token :: rest =>
    match token.kind with
    | .symbol .leftParen => phraseOperand rest
    | kind =>
      if (prefixOperator? kind).isSome then phraseOperand rest
      else (operandOf? kind).isSome && phraseAfter rest

/-- Are the tokens up to the end those of a phrase, after an operand? -/
def phraseAfter : List Token → Bool
  | [] => false
  | token :: rest =>
    match token.kind with
    | .finish => rest.isEmpty
    | .symbol .rightParen | .keyword .not => phraseAfter rest
    | .symbol .comma => phraseOperand rest
    | kind => (operatorOf? kind).isSome && phraseOperand rest

end

variable {name : String} {tokens front rest words more joint : List Token} {token next last : Token}
  {frames nots : List Frame} {m m' : Machine} {o : Operator} {n : Nat} {t e tree : Tree} {p : Tag → Bool}

theorem phraseOperand_opening (h : token.kind = .symbol .leftParen) (rest : List Token) :
    phraseOperand (token :: rest) = phraseOperand rest := by
  rw [phraseOperand, h]

theorem phraseOperand_before (h : prefixOperator? token.kind = some o) (rest : List Token) :
    phraseOperand (token :: rest) = phraseOperand rest := by
  have hparen : token.kind ≠ .symbol .leftParen := by
    intro hkind
    rw [hkind] at h
    cases h
  rw [phraseOperand]
  split
  · next hkind => exact absurd hkind hparen
  · simp [h]

theorem phraseOperand_operand (h : operandOf? token.kind = some t) (rest : List Token) :
    phraseOperand (token :: rest) = phraseAfter rest := by
  have hparen : token.kind ≠ .symbol .leftParen := by
    intro hkind
    rw [hkind] at h
    cases h
  have hbefore : prefixOperator? token.kind = none := by
    cases hkind : token.kind with
    | keyword keyword => rw [hkind] at h; cases keyword <;> first | rfl | cases h
    | symbol symbol => rw [hkind] at h; cases h
    | _ => rfl
  rw [phraseOperand]
  split
  · next hkind => exact absurd hkind hparen
  · simp [h, hbefore]

theorem phraseAfter_closing (h : token.kind = .symbol .rightParen) (rest : List Token) :
    phraseAfter (token :: rest) = phraseAfter rest := by
  rw [phraseAfter, h]

theorem phraseAfter_not (h : token.kind = .keyword .not) (rest : List Token) :
    phraseAfter (token :: rest) = phraseAfter rest := by
  rw [phraseAfter, h]

theorem phraseAfter_comma (h : token.kind = .symbol .comma) (rest : List Token) :
    phraseAfter (token :: rest) = phraseOperand rest := by
  rw [phraseAfter, h]

theorem phraseAfter_operator (h : operatorOf? token.kind = some o) (rest : List Token) :
    phraseAfter (token :: rest) = phraseOperand rest := by
  have hne : ∀ kind, operatorOf? kind = none → token.kind ≠ kind := by
    rintro kind hkind rfl
    rw [h] at hkind
    cases hkind
  rw [phraseAfter]
  split
  · next hkind => exact absurd hkind (hne _ rfl)
  · next hkind => exact absurd hkind (hne _ rfl)
  · next hkind => exact absurd hkind (hne _ rfl)
  · next hkind => exact absurd hkind (hne _ rfl)
  · simp [h]

/-- Whatever a phrase starts with stands for an operand or in front of one. -/
theorem exists_operand_of_phrase (h : phraseOperand (token :: rest) = true)
    (hparen : token.kind ≠ .symbol .leftParen) (hbefore : prefixOperator? token.kind = none) :
    ∃ t, operandOf? token.kind = some t := by
  rw [phraseOperand] at h
  split at h
  · next hkind => exact absurd hkind hparen
  · rw [hbefore] at h
    simp only [Option.isSome_none, Bool.false_eq_true, if_false, Bool.and_eq_true] at h
    exact Option.isSome_iff_exists.1 h.1

/-! ## States of the machine -/

/-- The machine expects an operand of a phrase, in front of the rest of its tokens. -/
inductive Expects (name : String) (tokens rest : List Token) : Machine → Prop
  | mk {f : Frame} {below : List Frame} {front : List Token} (h : Open name tokens f below front)
      (hrest : front ++ rest = tokens) : Expects name tokens rest ⟨.operand, f :: below, []⟩

/-- The machine has read an operand of a phrase, in front of the rest of its tokens. -/
inductive HasRead (name : String) (tokens rest : List Token) : Machine → Prop
  | mk {frames : List Frame} {t : Tree} {front : List Token} (h : Over name tokens t frames front)
      (hspine : spine t = []) (hrest : front ++ rest = tokens) :
      HasRead name tokens rest ⟨.afterOperand, received t frames, []⟩

/-- An operand was read. -/
theorem Open.holds {f : Frame} {below : List Frame} (h : Open name tokens f below front)
    (ht : Derives (tier f.tag) 0 (.tree t) words) (hspine : spine t = []) (hrest : front ++ (words ++ rest) = tokens) :
    HasRead name tokens rest ⟨.afterOperand, { f with done := t :: f.done } :: below, []⟩ := by
  rw [← List.append_assoc] at hrest
  exact .mk (h.over ht) hspine hrest

theorem spine_of_operandOf? (h : operandOf? token.kind = some t) : spine t = [] := by
  unfold operandOf? at h
  split at h
  all_goals first | (cases h; rfl) | cases h

/-- A number with a sign is an operand without it. -/
theorem exists_operand_of_signed {minus number : Token} (h : signedLiteral? minus number = some t) :
    spine t = [] ∧ ∃ u, operandOf? number.kind = some u := by
  unfold signedLiteral? at h
  split at h
  · split at h
    · next hkind =>
      cases h
      exact ⟨rfl, _, by rw [hkind]; rfl⟩
    · next hkind =>
      cases h
      exact ⟨rfl, _, by rw [hkind]; rfl⟩
    · cases h
  · cases h

/-- An operator in front of its operand. -/
theorem Expects.before (hm : Expects name tokens (token :: rest) m) (ho : prefixOperator? token.kind = some o)
    (hunsigned : token.kind = .symbol .minus → signedLiteral? token (following token rest) = none)
    (hrun : runTokens m (token :: rest) = .ok tree) :
    ∃ m', Expects name tokens rest m' ∧ runTokens m' rest = .ok tree := by
  obtain @⟨f, below, front, hopen, hrest⟩ := hm
  have hstep : ((Above.operand []).upon (f :: below) []).step token rest =
      .ok ((Above.operand [⟨.op o, token.span, []⟩]).upon (f :: below) [], false) := step_before ho hunsigned
  have hbehind : front ++ [token] ++ rest = tokens := by simpa using hrest
  have hopened : Open name tokens ⟨.op o, token.span, []⟩ (f :: below) (front ++ [token]) :=
    hopen.before ho ⟨rest, hbehind, hunsigned⟩
  exact ⟨_, .mk hopened hbehind, (runTokens_of_step (isLast_of_prefixOperator? ho) hstep).symm.trans hrun⟩

/-- **An operand, or what stands in front of one.** -/
theorem Expects.step (hm : Expects name tokens (token :: rest) m) (hphrase : phraseOperand (token :: rest) = true)
    (hrun : runTokens m (token :: rest) = .ok tree) :
    (∃ m', Expects name tokens rest m' ∧ phraseOperand rest = true ∧ runTokens m' rest = .ok tree) ∨
    (∃ m', HasRead name tokens rest m' ∧ phraseAfter rest = true ∧ runTokens m' rest = .ok tree) ∨
      ∃ number more m', rest = number :: more ∧ HasRead name tokens more m' ∧ phraseAfter more = true ∧
        runTokens m' more = .ok tree := by
  obtain @⟨f, below, front, hopen, hrest⟩ := hm
  have hbehind : front ++ [token] ++ rest = tokens := by simpa using hrest
  by_cases hparen : token.kind = .symbol .leftParen
  · rw [runTokens_opening hparen] at hrun
    rw [phraseOperand_opening hparen] at hphrase
    exact .inl ⟨_, .mk (hopen.opening hparen) hbehind, hphrase, hrun⟩
  · cases hbefore : prefixOperator? token.kind with
    | none =>
      obtain ⟨t, ht⟩ := exists_operand_of_phrase hphrase hparen hbefore
      rw [runTokens_operand ht] at hrun
      rw [phraseOperand_operand ht] at hphrase
      exact .inr (.inl ⟨_, hopen.holds (.operand ht) (spine_of_operandOf? ht) hrest, hphrase, hrun⟩)
    | some o =>
      rw [phraseOperand_before hbefore] at hphrase
      -- a minus that touches a number is read together with it
      by_cases hsigned : token.kind = .symbol .minus ∧
          (signedLiteral? token (following token rest)).isSome = true
      · obtain ⟨hminus, hsome⟩ := hsigned
        cases rest with
        | nil => cases hphrase
        | cons number more =>
          obtain ⟨t, ht⟩ : ∃ t, signedLiteral? token number = some t := Option.isSome_iff_exists.1 hsome
          obtain ⟨hspine, u, hu⟩ := exists_operand_of_signed ht
          rw [runTokens_signed hminus ht] at hrun
          rw [phraseOperand_operand hu] at hphrase
          exact .inr (.inr ⟨number, more, _, rfl, hopen.holds (.signed hminus ht) hspine hrest, hphrase, hrun⟩)
      · have hunsigned : token.kind = .symbol .minus →
            signedLiteral? token (following token rest) = none := by
          intro hminus
          simpa [hminus] using hsigned
        obtain ⟨m', hm', hrun'⟩ := (Expects.mk hopen hrest).before hbefore hunsigned hrun
        exact .inl ⟨m', hm', hphrase, hrun'⟩

/-! ## Closing after an operand -/

theorem Over.ne_nil (h : Over name tokens t frames front) : frames ≠ [] := by
  obtain ⟨⟩ := h
  simp

/-- What is closed after an operand. -/
theorem HasRead.closeWhile (hm : HasRead name tokens rest m) (hpar : ∀ f ∈ m.frames, f.tag = .par → p .par = false)
    (h : m.closeWhile? p = some m') :
    ∃ front, front ++ rest = tokens ∧ m'.expects = .afterOperand ∧
      Closes name tokens p front (m'.frames, m'.root) := by
  obtain @⟨frames, t, front, hover, hspine, hrest⟩ := hm
  have hne := hover.ne_nil
  have hpar' : ∀ f ∈ frames, f.tag = .par → p .par = false := by
    obtain ⟨g, frames, rfl⟩ := List.exists_cons_of_ne_nil hne
    rw [received, List.forall_mem_cons] at hpar
    exact List.forall_mem_cons.2 hpar
  rw [Machine.closeWhile?, closeFrames_received hne, Option.map_eq_some_iff] at h
  obtain ⟨⟨frames', root⟩, hclose, rfl⟩ := h
  exact ⟨front, hrest, rfl, hover.close hrest (by simp [hspine]) hpar' hclose⟩

/-- An operator closes down to a node that binds looser than it. -/
theorem HasRead.closeTier (hm : HasRead name tokens rest m) {least : Int} (hleast : 13 < least) {span : Span}
    (h : m.closeTier least span = .ok m') :
    ∃ f below t front, m' = ⟨.afterOperand, { f with done := t :: f.done } :: below, []⟩ ∧
      front ++ rest = tokens ∧ Over name tokens t (f :: below) front ∧ tier f.tag < least ∧
      ∀ q ∈ spine t, least ≤ operatorTier q := by
  obtain ⟨expects, frames, root⟩ := m'
  have hpar : decide (least ≤ tier .par) = false := by
    have htier : tier .par = -1 := rfl
    rw [htier, decide_eq_false_iff_not]
    omega
  obtain ⟨front, hrest, hexpects, hcloses⟩ := hm.closeWhile (fun _ _ _ => hpar) (ok_of_orNear h)
  cases hexpects
  cases hcloses with
  | @stopped f below t hover hp hspine =>
    refine ⟨f, below, t, front, rfl, hrest, hover, ?_, ?_⟩
    · exact Int.not_le.1 (of_decide_eq_false hp)
    · exact fun q hq => of_decide_eq_true (hspine q hq)
  | emptied _ hp =>
    have hle : least ≤ 13 := of_decide_eq_true hp
    exact absurd hle (Int.not_le.2 hleast)

/-! ## Operators -/

/-- An operator takes a derived tree as its first operand. -/
theorem Over.begin {f : Frame} {below : List Frame} (h : Over name tokens t (f :: below) front)
    (htier : tier f.tag < operatorTier o) (hspine : ∀ q ∈ spine t, operatorTier o ≤ operatorTier q)
    (hjoint : ∀ n, Coupling o n (nots.length + n) joint) (hnots : ∀ g ∈ nots, g.IsNegation) :
    ∃ nots' g rest words front', nots ++ f :: below = nots' ++ g :: rest ∧ front ++ joint = front' ++ words ∧
      Open name tokens g rest front' ∧ Begun o t g nots' words := by
  generalize hframes : f :: below = all at h
  obtain @⟨inner, g, rest, front, words, hopen, hinner, ht⟩ := h
  refine ⟨nots ++ inner, g, rest, words ++ joint, front, by simp, by simp, hopen, ?_⟩
  -- right under the operator is the innermost negation, or the node if there is none
  have hground : ground (tier g.tag) inner.length < operatorTier o := by
    cases inner with
    | nil =>
      obtain ⟨rfl, rfl⟩ := List.cons.inj hframes
      exact htier
    | cons not inner =>
      obtain ⟨rfl, rfl⟩ := List.cons.inj hframes
      rw [(hinner f List.mem_cons_self).tag] at htier
      exact htier
  have hjoint' : Coupling o inner.length (nots ++ inner).length joint := by
    rw [List.length_append]
    exact hjoint inner.length
  exact .mk ht hspine hground hjoint' (List.forall_mem_append.2 ⟨hnots, hinner⟩)

/-- An operator over a derived tree waits for its next operand. -/
theorem Over.opens {f : Frame} {below : List Frame} (h : Over name tokens t (f :: below) front)
    (ho : isBinary o = true ∨ o = .between) (htier : tier f.tag < operatorTier o)
    (hspine : ∀ q ∈ spine t, operatorTier o ≤ operatorTier q)
    (hjoint : ∀ n, Coupling o n (nots.length + n) joint) (hnots : ∀ g ∈ nots, g.IsNegation)
    (hlist : GoesOn tokens (front ++ joint) fun rest => o = .in_ → opensList rest) (s : Span) :
    Open name tokens ⟨.op o, s, [t]⟩ (nots ++ f :: below) (front ++ joint) := by
  obtain ⟨nots', g, rest, words, front', hframes, hfront, hopen, hbegun⟩ :=
    h.begin htier hspine hjoint hnots
  rw [hframes, hfront]
  rw [hfront] at hlist
  rcases ho with ho | rfl
  · exact .binary hopen ho hbegun hlist
  · exact .lower hopen hbegun

theorem HasRead.expects_eq (hm : HasRead name tokens rest m) : m.expects = .afterOperand := by
  cases hm
  rfl

/-- The `and` of a `between` leaves the machine in front of the upper bound. -/
theorem HasRead.betweenAnd {used : Bool} (hm : HasRead name tokens (token :: rest) m)
    (htoken : token.kind = .keyword .and) (hpending : m.pendingBetween = true)
    (h : m.betweenAnd token = .ok (m', used)) : used = false ∧ Expects name tokens rest m' := by
  obtain @⟨frames, t, front, hover, hspine, hrest⟩ := hm
  have hne := hover.ne_nil
  have hand : Machine.waitsForAnd true frames = true := by
    obtain ⟨f, frames, rfl⟩ := List.exists_cons_of_ne_nil hne
    rw [← Machine.waitsForAnd_received]
    exact hpending
  obtain ⟨f, below, hclose, hopen⟩ := hover.upTo hrest (by simp [hspine]) hand htoken
  rw [Machine.betweenAnd, Machine.closeWhile?, closeFrames_received hne, hclose] at h
  cases h
  exact ⟨rfl, .mk hopen (by simpa using hrest)⟩

/-- **An operator after an operand leaves the machine in front of its next operand.** -/
theorem HasRead.operator (hm : HasRead name tokens (token :: rest) m) (ho : operatorOf? token.kind = some o)
    (hrun : runTokens m (token :: rest) = .ok tree) :
    ∃ m', Expects name tokens rest m' ∧ runTokens m' rest = .ok tree := by
  obtain ⟨m', used, hstep, hrest⟩ := step_of_runTokens (isLast_of_operatorOf? ho) hrun
  have hexpects := hm.expects_eq
  -- an `and` that a `between` waits for stands between its bounds
  by_cases hand : token.kind = .keyword .and ∧ m.pendingBetween = true
  · simp only [Machine.step, hexpects, Machine.afterOperand, hand.1, hand.2, if_true] at hstep
    obtain ⟨rfl, hm'⟩ := hm.betweenAnd hand.1 hand.2 hstep
    exact ⟨m', hm', hrest⟩
  · have hin : o = .in_ → opensList rest := by
      rintro rfl
      exact opensList_of_step hexpects ho hstep
    have hpending : token.kind = .keyword .and → m.pendingBetween = false := by
      intro hkind
      simpa [hkind] using hand
    rw [step_operator hexpects ho hin hpending] at hstep
    obtain ⟨m₁, hopen, hone⟩ := bind_eq_ok hstep
    cases hone
    obtain ⟨m₂, hclose, hopen⟩ := bind_eq_ok hopen
    have hleast : 13 < tier (.op o) := Int.lt_of_lt_of_le (by decide) (operatorTier_bounds o).1
    obtain ⟨f, below, t, front, rfl, hfront, hover, htier, hspine⟩ := hm.closeTier hleast hclose
    cases hopen
    have hbehind : front ++ [token] ++ rest = tokens := by simpa using hfront
    have hopened : Open name tokens ⟨.op o, token.span, [t]⟩ ([] ++ f :: below) (front ++ [token]) :=
      hover.opens (isBinary_of_operatorOf? ho) htier hspine (fun n => by simpa using Coupling.plain ho) (by simp)
        ⟨rest, hbehind, hin⟩ token.span
    exact ⟨_, .mk hopened hbehind, hrest⟩

/-- **So does an operator with a `not` in front.** -/
theorem HasRead.negated (hm : HasRead name tokens (token :: rest) m) (hnot : token.kind = .keyword .not)
    (hrun : runTokens m (token :: rest) = .ok tree) :
    ∃ next more o m', rest = next :: more ∧ operatorOf? next.kind = some o ∧ Expects name tokens more m' ∧
      runTokens m' more = .ok tree := by
  obtain ⟨m', used, hstep, hrest⟩ := step_of_runTokens (isLast_of_eq hnot rfl) hrun
  have hexpects := hm.expects_eq
  have hnegated : m.negated token rest = .ok (m', used) := by
    rw [← hstep]
    simp only [Machine.step, hexpects, Machine.afterOperand, hnot]
  -- behind an operand, a `not` needs an operator that it negates
  cases rest with
  | nil =>
    have hnone : Machine.negatable? token.kind = none := by
      rw [hnot]
      rfl
    simp only [Machine.negated, following, hnone] at hnegated
    cases hnegated
  | cons next more =>
    cases ho : Machine.negatable? next.kind with
    | none =>
      simp only [Machine.negated, following, ho] at hnegated
      cases hnegated
    | some o =>
      obtain ⟨htier, -, hkind, -⟩ := negatable?_spec ho
      obtain ⟨hoperator, hnegatable⟩ := operatorOf?_of_negatable? ho
      have hin : o = .in_ → opensList more := by
        rintro rfl
        exact opensList_of_negated ho hnegated
      rw [negated_eq hoperator hnegatable hin] at hnegated
      obtain ⟨m₁, hclose, hopen⟩ := bind_eq_ok hnegated
      obtain ⟨f, below, t, front, rfl, hfront, hover, htier, hspine⟩ :=
        hm.closeTier (Int.lt_trans (by decide) htier) hclose
      cases hopen
      have hbehind : front ++ [token, next] ++ more = tokens := by simpa using hfront
      have hjoint : ∀ n, Coupling o n ([(⟨.op .not, token.span, []⟩ : Frame)].length + n) [token, next] := by
        intro n
        rw [Nat.add_comm]
        exact .negated hnot ho
      have hopened : Open name tokens ⟨.op o, next.span, [t]⟩ ([⟨.op .not, token.span, []⟩] ++ f :: below)
          (front ++ [token, next]) :=
        hover.opens hkind htier hspine hjoint (by simpa using ⟨rfl, rfl⟩) ⟨more, hbehind, hin⟩ next.span
      exact ⟨next, more, o, _, rfl, hoperator, .mk hopened hbehind, hrest⟩

/-! ## Parentheses -/

/-- The items of an open parenthesis, with the newest one. -/
inductive Items (name : String) (tokens : List Token) (t : Tree) (f : Frame) (below : List Frame) :
    List Token → Prop
  | mk {opening : Token} {g : Frame} {rest : List Frame} {front words : List Token} (hbelow : below = g :: rest)
      (h : Open name tokens g rest front) (hopening : opening.kind = .symbol .leftParen)
      (hitems : Derives (tier .par) 0 (.list (t :: f.done).reverse) words) :
      Items name tokens t f below (front ++ (opening :: words))

/-- A tree over an open parenthesis is its newest item. -/
theorem Over.items {f : Frame} {below : List Frame} (h : Over name tokens t (f :: below) front)
    (hf : f.tag.isParen = true) : f.tag = .par ∧ Items name tokens t f below front := by
  generalize hframes : f :: below = all at h
  obtain @⟨nots, g, rest, front, words, hopen, hnots, ht⟩ := h
  cases nots with
  | cons not nots =>
    obtain ⟨rfl, rfl⟩ := List.cons.inj hframes
    rw [(hnots f List.mem_cons_self).tag] at hf
    cases hf
  | nil =>
    obtain ⟨rfl, rfl⟩ := List.cons.inj hframes
    cases hopen with
    | @opening _ s _ _ _ h htoken =>
      have hitems : Derives (tier .par) 0 (.list [t]) words := .item ht
      have hpar := Items.mk (f := ⟨.par, s, []⟩) rfl h htoken hitems
      exact ⟨rfl, by simpa using hpar⟩
    | @comma _ _ s done _ _ _ _ h hopening hdone hcomma =>
      have hitems := Derives.comma hdone hcomma ht
      rw [← List.reverse_cons] at hitems
      have hpar := Items.mk (f := ⟨.par, s, done⟩) rfl h hopening hitems
      exact ⟨rfl, by simpa using hpar⟩
    | _ => cases hf

/-- **A comma leaves the machine in front of the next item.** -/
theorem HasRead.comma (hm : HasRead name tokens (token :: rest) m) (hcomma : token.kind = .symbol .comma)
    (hrun : runTokens m (token :: rest) = .ok tree) :
    ∃ m', Expects name tokens rest m' ∧ runTokens m' rest = .ok tree := by
  obtain ⟨m', used, hstep, hrest⟩ := step_of_runTokens (isLast_of_eq hcomma rfl) hrun
  have hexpects := hm.expects_eq
  simp only [Machine.step, hexpects, Machine.afterOperand, hcomma, Machine.comma] at hstep
  split at hstep
  · next hinside =>
    obtain ⟨⟨expects, frames, root⟩, hclose, hone⟩ := bind_eq_ok hstep
    obtain ⟨front, hfront, -, hcloses⟩ := hm.closeWhile (fun _ _ _ => rfl) (ok_of_orNear hclose)
    cases hone
    cases hcloses with
    | emptied =>
      -- the parenthesis around the comma is not closed
      obtain ⟨f, hfind, htag⟩ := (Option.any_eq_true _ _).1 hinside
      obtain ⟨⟨frames, root⟩, hempty, hpair⟩ := Option.map_eq_some_iff.1 (ok_of_orNear hclose)
      cases hpair
      have hp := forall_of_closeFrames hempty f (List.mem_of_find?_eq_some hfind)
      rw [beq_iff_eq.1 htag] at hp
      cases hp
    | @stopped f below t hover hp hspine =>
      have hf : f.tag = .par := by simpa using hp
      obtain ⟨tag, s, done⟩ := f
      obtain rfl := hf
      obtain ⟨-, @⟨opening, g, below, front, words, rfl, hopen, hopening, hitems⟩⟩ := hover.items rfl
      have hopened : Open name tokens ⟨.par, s, t :: done⟩ (g :: below) (front ++ (opening :: words ++ [token])) :=
        .comma hopen hopening hitems hcomma
      exact ⟨_, .mk hopened (by simpa using hfront), hrest⟩
  · cases hstep

/-- **A closing parenthesis is an operand of the node around it.** -/
theorem HasRead.closing (hm : HasRead name tokens (token :: rest) m) (hclosing : token.kind = .symbol .rightParen)
    (hrun : runTokens m (token :: rest) = .ok tree) :
    ∃ m', HasRead name tokens rest m' ∧ runTokens m' rest = .ok tree := by
  obtain ⟨m', used, hstep, hrest⟩ := step_of_runTokens (isLast_of_eq hclosing rfl) hrun
  have hexpects : m.expects.acceptsEnd = true := by
    rw [hm.expects_eq]
    rfl
  rw [step_rightParen hexpects hclosing] at hstep
  obtain ⟨⟨expects, frames, root⟩, hclose, hstep⟩ := bind_eq_ok hstep
  obtain ⟨front, hfront, -, hcloses⟩ := hm.closeWhile (fun _ _ _ => rfl) (ok_of_orNear hclose)
  cases hcloses with
  | emptied => cases hstep
  | @stopped f below t hover hp hspine =>
    dsimp only at hstep
    split at hstep
    · next hparen =>
      cases hstep
      simp only [Bool.and_eq_true] at hparen
      obtain ⟨hf, @⟨opening, g, below, front, words, rfl, hopen, hopening, hitems⟩⟩ := hover.items hparen.1
      obtain ⟨tag, s, done⟩ := f
      obtain rfl := hf
      have hpar : Derives (tier g.tag) 0 (.tree (.node .par (t :: done).reverse)) (opening :: (words ++ [token])) :=
        .parenthesis hopening hitems hclosing
      exact ⟨_, hopen.holds hpar (spine_par _) (by simpa using hfront), hrest⟩
    · cases hstep

/-! ## The end -/

/-- **At the end of the source the phrase is derived.** -/
theorem HasRead.finish (hm : HasRead name tokens rest m) (h : m.finish last = .ok tree) :
    ∃ e front, front ++ rest = tokens ∧ tree = filtered name e ∧ Derives (tier .filter) 0 (.tree e) front := by
  have hexpects := hm.expects_eq
  rw [Machine.finish, hexpects] at h
  simp only [Expect.acceptsEnd, Bool.true_or, if_true] at h
  split at h
  · cases h
  · next hnone =>
    obtain ⟨⟨expects, frames, root⟩, hclose, h⟩ := bind_eq_ok h
    -- with a parenthesis still open the source would not end here
    have hpar : ∀ f ∈ m.frames, f.tag = .par → true = false := by
      intro f hf htag
      have hparen := List.find?_eq_none.1 hnone f hf
      rw [htag] at hparen
      exact absurd rfl hparen
    obtain ⟨front, hfront, -, hcloses⟩ := hm.closeWhile hpar (ok_of_orNear hclose)
    cases hcloses with
    | stopped _ hp _ => cases hp
    | @emptied e he _ =>
      cases h
      exact ⟨e, front, hfront, rfl, he⟩

/-! ## The whole phrase -/

/-- The tree is that of a relation with a condition that all tokens but the last are derived for. -/
def Understood (name : String) (tokens : List Token) (tree : Tree) : Prop :=
  ∃ e words last, words ++ [last] = tokens ∧ tree = filtered name e ∧ Derives (tier .filter) 0 (.tree e) words

mutual

/-- What is read from an operand on is derived. -/
theorem understood_of_phraseOperand : (rest : List Token) → phraseOperand rest = true → ∀ {m : Machine}
    {tree : Tree}, Expects name tokens rest m → runTokens m rest = .ok tree → Understood name tokens tree
  | [], h, _, _, _, _ => by cases h
  | token :: rest, h, m, tree, hm, hrun => by
    rcases hm.step h hrun with ⟨m', hm', h', hrun'⟩ | ⟨m', hm', h', hrun'⟩ | ⟨number, more, m', rfl, hm', h', hrun'⟩
    · exact understood_of_phraseOperand rest h' hm' hrun'
    · exact understood_of_phraseAfter rest h' hm' hrun'
    · exact understood_of_phraseAfter more h' hm' hrun'
termination_by tokens => tokens.length

/-- What is read from after an operand on is derived. -/
theorem understood_of_phraseAfter : (rest : List Token) → phraseAfter rest = true → ∀ {m : Machine}
    {tree : Tree}, HasRead name tokens rest m → runTokens m rest = .ok tree → Understood name tokens tree
  | [], h, _, _, _, _ => by cases h
  | token :: rest, h, m, tree, hm, hrun => by
    rw [phraseAfter] at h
    split at h
    · next hkind =>
      obtain rfl := List.isEmpty_iff.1 h
      rw [runTokens] at hrun
      simp only [hkind] at hrun
      obtain ⟨e, words, hwords, he, hderives⟩ := hm.finish hrun
      exact ⟨e, words, token, hwords, he, hderives⟩
    · next hkind =>
      obtain ⟨m', hm', hrun'⟩ := hm.closing hkind hrun
      exact understood_of_phraseAfter rest h hm' hrun'
    · next hkind =>
      obtain ⟨next, more, o, m', rfl, ho, hm', hrun'⟩ := hm.negated hkind hrun
      rw [phraseAfter_operator ho] at h
      exact understood_of_phraseOperand more h hm' hrun'
    · next hkind =>
      obtain ⟨m', hm', hrun'⟩ := hm.comma hkind hrun
      exact understood_of_phraseOperand rest h hm' hrun'
    · simp only [Bool.and_eq_true] at h
      obtain ⟨o, ho⟩ := Option.isSome_iff_exists.1 h.1
      obtain ⟨m', hm', hrun'⟩ := hm.operator ho hrun
      exact understood_of_phraseOperand rest h.2 hm' hrun'
termination_by tokens => tokens.length

end

/-- **Whatever a phrase is parsed into is derived for it.** -/
theorem understood_of_parseTokens {relation where_ : Token} (hrelation : relation.kind = .name name)
    (hwhere : where_.kind = .keyword .where_) (hphrase : phraseOperand tokens = true)
    (h : parseTokens (relation :: where_ :: tokens) = .ok tree) : Understood name tokens tree := by
  rw [runTokens_where hrelation hwhere] at h
  have hexpects : Expects name tokens tokens ⟨.operand, [⟨.filter, where_.span, [.leaf .relation name]⟩], []⟩ :=
    .mk .filter rfl
  exact understood_of_phraseOperand tokens hphrase hexpects h

/-- Over the filter, the derived words are read up to the end. -/
theorem Derives.finish (h : Derives (tier .filter) 0 (.tree e) words) (hlast : last.kind = .finish) (s : Span) :
    runTokens ⟨.operand, [⟨.filter, s, [.leaf .relation name]⟩], []⟩ (words ++ [last]) = .ok (filtered name e) := by
  obtain ⟨nots, left, u, -, hnots, hedge, hrun⟩ := h.leaves ⟨.filter, s, [.leaf .relation name]⟩ [] [] [last] rfl
  obtain rfl := List.length_eq_zero_iff.1 hnots
  have hfree : ∀ f ∈ left, ¬ f.tag.isParen = true := by
    intro f hf
    obtain ⟨q, -, htag⟩ := hedge.tags f hf
    rw [htag]
    simp [Tag.isParen]
  exact hrun.trans (runTokens_finish_filter hfree hedge.closes hlast s)

/-- **A relation with a phrase is parsed exactly if the words of the phrase are derived.** -/
theorem parseTokens_iff {relation where_ : Token} (hrelation : relation.kind = .name name)
    (hwhere : where_.kind = .keyword .where_) (hlast : last.kind = .finish)
    (hphrase : phraseOperand (words ++ [last]) = true) :
    parseTokens (relation :: where_ :: (words ++ [last])) = .ok tree ↔
      ∃ e, tree = filtered name e ∧ Derives (tier .filter) 0 (.tree e) words := by
  constructor
  · intro hparse
    obtain ⟨e, words', last', htokens, htree, hderives⟩ :=
      understood_of_parseTokens hrelation hwhere hphrase hparse
    obtain ⟨rfl, -⟩ := List.append_inj' htokens rfl
    exact ⟨e, htree, hderives⟩
  · rintro ⟨e, rfl, hderives⟩
    rw [runTokens_where hrelation hwhere]
    exact hderives.finish hlast where_.span

end RelationSql.Grammar
