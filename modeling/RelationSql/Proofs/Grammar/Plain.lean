import RelationSql.Proofs.Grammar.Reading
import RelationSql.Proofs.Grammar.Waiting

/-!
# Plain conditions

A plain condition is written with names, literals, operators between operands, `between`, negated
operators, lists and parentheses, and no sign stands in front of its operand but the minus of a
number. Whatever the machine reads from such tokens is a condition (`condition_of_isPlain`).
-/

namespace RelationSql.Grammar

open RelationSql.Source (Span Token TokenKind)

/-! ## Plain tokens -/

/-- May the token stand for an operand? A text holds neither quotes nor backslashes. -/
def isPlainLiteral : TokenKind → Bool
  | .text content => !content.toList.contains '\'' && !content.toList.contains '\\'
  | kind => (operandOf? kind).isSome

mutual

/-- Are the tokens up to the end those of a plain condition, an operand being expected? -/
def plainOperand : List Token → Bool
  | [] => false
  | token :: rest =>
    match token.kind with
    | .symbol .leftParen => plainOperand rest
    | .symbol .minus =>
      match rest with
      | [] => false
      | number :: rest => (signedLiteral? token number).isSome && plainAfter rest
    | kind => isPlainLiteral kind && plainAfter rest

/-- Are the tokens up to the end those of a plain condition, after an operand? -/
def plainAfter : List Token → Bool
  | [] => false
  | token :: rest =>
    match token.kind with
    | .finish => true
    | .symbol .rightParen => plainAfter rest
    | .symbol .comma => plainOperand rest
    | .keyword .not =>
      match rest with
      | [] => false
      | next :: rest => (Machine.negatable? next.kind).isSome && plainOperand rest
    | kind => (operatorOf? kind).isSome && plainOperand rest

end

/-- Are the tokens those of a relation with a plain condition? -/
def isPlain (name : String) : List Token → Bool
  | relation :: where_ :: rest =>
    relation.kind == .name name && where_.kind == .keyword .where_ && plainOperand rest
  | _ => false

/-! ## States of the machine -/

variable {leaf : Tree → Prop} {name : String}

/-- The machine expects an operand inside a condition. -/
inductive AtOperand (leaf : Tree → Prop) (name : String) (rest : List Token) : Machine → Prop where
  | mk {f : Frame} {below : List Frame} : Waiting leaf name f below →
      (f.tag = .op .in_ → opensList rest) → AtOperand leaf name rest ⟨.operand, f :: below, []⟩

/-- The machine has just read an operand inside a condition. -/
inductive AfterOperand (leaf : Tree → Prop) (name : String) : Machine → Prop where
  | mk {f : Frame} {below : List Frame} {t : Tree} : Waiting leaf name f below →
      Condition leaf t → Fits f t → spine t = [] →
      AfterOperand leaf name ⟨.afterOperand, { f with done := t :: f.done } :: below, []⟩

/-- A run that succeeds takes its first step and goes on. -/
theorem step_of_runTokens {m : Machine} {token : Token} {rest : List Token} {tree : Tree}
    (hk : token.kind.isLast = false) (h : runTokens m (token :: rest) = .ok tree) :
    ∃ m' used, m.step token rest = .ok (m', used) ∧
      runTokens m' (if used then rest.tail else rest) = .ok tree := by
  unfold runTokens at h
  split at h
  · next heq => rw [heq] at hk; cases hk
  · next heq => rw [heq] at hk; cases hk
  · split at h
    · cases h
    · next m' hstep => exact ⟨m', false, hstep, h⟩
    · next m' hstep =>
      refine ⟨m', true, hstep, ?_⟩
      cases rest with
      | nil => exact h
      | cons next rest => exact h

/-! ## Operands -/

/-- A leaf may stand wherever an operand is expected, but not as a list. -/
theorem Waiting.afterLeaf {f : Frame} {below : List Frame} (hw : Waiting leaf name f below)
    (hf : f.tag ≠ .op .in_) {t : Tree} (ht : isLeaf t = true) (hleaf : leaf t) :
    AfterOperand leaf name ⟨.afterOperand, { f with done := t :: f.done } :: below, []⟩ := by
  refine .mk hw (.leaf ht hleaf) ⟨?_, fun heq => absurd heq hf⟩ (spine_leaf ht)
  rw [outerTier_leaf ht]
  exact hw.tier_lt

/-! ## Closing after an operand -/

/-- What is closed after an operand. -/
theorem AfterOperand.closeWhile {m m' : Machine} (hm : AfterOperand leaf name m) {p : Tag → Bool}
    (h : m.closeWhile? p = some m') :
    m'.expects = .afterOperand ∧ Closing leaf name p m.frames [] (m'.frames, m'.root) := by
  cases hm with
  | @mk f below t hw ht hfits hspine =>
    have hsame : Machine.closeFrames p [] ({ f with done := t :: f.done } :: below) [] =
        Machine.closeFrames p [t] (f :: below) [] := by
      simp [Machine.closeFrames]
    simp only [Machine.closeWhile?, hsame, Option.map_eq_some_iff] at h
    obtain ⟨⟨frames, root⟩, hclose, rfl⟩ := h
    refine ⟨rfl, ?_⟩
    cases hw.close ht hfits (by simp [hspine]) hclose with
    | stopped hw' ht' hfits' hp hspine' => exact .stopped hw' ht' hfits' hp hspine'
    | emptied ht' hp hall =>
      refine .emptied ht' hp ?_
      rw [List.forall_mem_cons] at hall ⊢
      exact hall

theorem ok_of_orNear {α : Type} {span : Span} {x : Option α} {a : α}
    (h : orNear span x = .ok a) : x = some a := by
  cases x with
  | none => cases h
  | some b => cases h; rfl

/-- An operator closes down to a node that binds looser than it. -/
theorem AfterOperand.closeTier {m m' : Machine} (hm : AfterOperand leaf name m) {least : Int}
    (hleast : 13 < least) {span : Span} (h : m.closeTier least span = .ok m') :
    ∃ f below t, m' = ⟨.afterOperand, { f with done := t :: f.done } :: below, []⟩ ∧
      Waiting leaf name f below ∧ Condition leaf t ∧ Fits f t ∧ tier f.tag < least ∧
      ∀ q ∈ spine t, least ≤ operatorTier q := by
  obtain ⟨expects, frames, root⟩ := m'
  obtain ⟨hexpects, hclosing⟩ := hm.closeWhile (ok_of_orNear h)
  cases hexpects
  cases hclosing with
  | @stopped f below t hw ht hfits hp hspine =>
    refine ⟨f, below, t, rfl, hw, ht, hfits, ?_, ?_⟩
    · exact Int.not_le.1 (of_decide_eq_false hp)
    · exact fun q hq => of_decide_eq_true (hspine q hq)
  | emptied _ hp _ =>
    have hle : least ≤ 13 := of_decide_eq_true hp
    exact absurd hle (Int.not_le.2 hleast)

/-! ## One token after an operand -/

theorem bind_eq_ok {α β : Type} {x : Except Fault α} {f : α → Except Fault β} {b : β}
    (h : x >>= f = .ok b) : ∃ a, x = .ok a ∧ f a = .ok b := by
  cases x with
  | error fault => cases h
  | ok a => exact ⟨a, rfl, h⟩

/-- An operator between operands takes a condition that its node may hold. -/
theorem AfterOperand.openOver {m m' : Machine} (hm : AfterOperand leaf name m) {o : Operator}
    {span : Span} (h : m.openOver (.op o) .operand span = .ok m')
    (ho : isBinary o = true ∨ o = .between) {rest : List Token} (hin : o = .in_ → opensList rest) :
    AtOperand leaf name rest m' := by
  obtain ⟨m₁, hclose, h⟩ := bind_eq_ok h
  have hleast : 13 < tier (.op o) := Int.lt_of_lt_of_le (by decide) (operatorTier_bounds o).1
  obtain ⟨f, below, t, rfl, hw, ht, hfits, hlt, hspine⟩ := hm.closeTier hleast hclose
  cases h
  rcases ho with ho | rfl
  · exact .mk (.binary hw ho ht hspine hlt hfits.list) fun heq => hin (Tag.op.inj heq)
  · exact .mk (.lower hw ht hspine hlt) fun heq => nomatch heq

theorem opensList_of_following {token : Token} {rest : List Token}
    (htoken : token.kind ≠ .symbol .leftParen)
    (h : (following token rest).kind = .symbol .leftParen) : opensList rest := by
  cases rest with
  | nil => exact absurd h htoken
  | cons next rest => exact h

theorem isBinary_of_operatorOf? {kind : TokenKind} {o : Operator} (h : operatorOf? kind = some o) :
    isBinary o = true ∨ o = .between := by
  cases kind with
  | keyword k => cases k <;> cases h <;> decide
  | symbol k => cases k <;> cases h <;> decide
  | _ => cases h

/-- The `and` of a `between` leaves the machine in front of the upper bound. -/
theorem AfterOperand.betweenAnd {m m' : Machine} (hm : AfterOperand leaf name m) {token : Token}
    {used : Bool} (hpending : m.pendingBetween = true) (h : m.betweenAnd token = .ok (m', used))
    (rest : List Token) : used = false ∧ AtOperand leaf name rest m' := by
  cases hm with
  | @mk f below t hw ht hfits hspine =>
    have hand : Machine.waitsForAnd true (f :: below) = true := by
      rw [← Machine.waitsForAnd_received]
      exact hpending
    obtain ⟨s, v, lo, g, frames, hclose, hwaiting⟩ :=
      hw.upTo ht hfits (by simp [hspine]) hand []
    have hsame : Machine.closeFrames (fun tag => tag != .op .between) []
        ({ f with done := t :: f.done } :: below) [] =
          some (⟨.op .between, s, [lo, v]⟩ :: g :: frames, []) := by
      rw [← hclose]
      simp [Machine.closeFrames]
    simp only [Machine.betweenAnd, Machine.closeWhile?, hsame] at h
    cases h
    exact ⟨rfl, .mk hwaiting fun heq => by cases heq⟩

/-- A step over `in` after an operand looks for its list. -/
theorem opensList_of_step {m : Machine} (hm : m.expects = .afterOperand) {token : Token}
    {rest : List Token} (ho : operatorOf? token.kind = some .in_) {result : Machine × Bool}
    (h : m.step token rest = .ok result) : opensList rest := by
  have hkind : token.kind = .keyword .in_ := by
    cases hk : token.kind with
    | keyword k => rw [hk] at ho; cases k <;> cases ho; rfl
    | symbol k => rw [hk] at ho; cases k <;> cases ho
    | _ => rw [hk] at ho; cases ho
  simp only [Machine.step, hm, Machine.afterOperand, hkind] at h
  split at h
  · next hparen => exact opensList_of_following (by simp [hkind]) hparen
  · cases h

/-- **An operator after an operand leaves the machine in front of its second operand.** -/
theorem AfterOperand.operator {m : Machine} (hm : AfterOperand leaf name m) {token : Token}
    {rest : List Token} {o : Operator} (ho : operatorOf? token.kind = some o) {tree : Tree}
    (hrun : runTokens m (token :: rest) = .ok tree) :
    ∃ m', AtOperand leaf name rest m' ∧ runTokens m' rest = .ok tree := by
  obtain ⟨m', used, hstep, hrest⟩ := step_of_runTokens (isLast_of_operatorOf? ho) hrun
  have hexpects : m.expects = .afterOperand := by
    cases hm
    rfl
  by_cases hand : token.kind = .keyword .and ∧ m.pendingBetween = true
  · simp only [Machine.step, hexpects, Machine.afterOperand, hand.1, hand.2, if_true] at hstep
    obtain ⟨rfl, hat⟩ := hm.betweenAnd hand.2 hstep rest
    exact ⟨m', hat, hrest⟩
  · have hin : o = .in_ → opensList rest := by
      rintro rfl
      exact opensList_of_step hexpects ho hstep
    have hpending : token.kind = .keyword .and → m.pendingBetween = false := by
      intro hkind
      simpa [hkind] using hand
    rw [step_operator hexpects ho hin hpending] at hstep
    obtain ⟨m₁, hopen, hone⟩ := bind_eq_ok hstep
    cases hone
    exact ⟨m', hm.openOver hopen (isBinary_of_operatorOf? ho) hin, hrest⟩

theorem isLast_of_eq {kind kind' : TokenKind} (h : kind = kind') (hlast : kind'.isLast = false) :
    kind.isLast = false := by
  rw [h]
  exact hlast

/-- The operators that a `not` may stand in front of. -/
theorem negatable?_spec {kind : TokenKind} {o : Operator} (h : Machine.negatable? kind = some o) :
    28 < operatorTier o ∧ operatorTier o ≤ 30 ∧ (isBinary o = true ∨ o = .between) ∧
      kind ≠ .symbol .leftParen := by
  cases kind with
  | keyword k => cases k <;> cases h <;> decide
  | _ => cases h

/-- An operator that a `not` may stand in front of stands between operands without it. -/
theorem operatorOf?_of_negatable? {kind : TokenKind} {o : Operator}
    (h : Machine.negatable? kind = some o) :
    operatorOf? kind = some o ∧ isNegatable o = true := by
  cases kind with
  | keyword k => cases k <;> cases h <;> decide
  | _ => cases h

/-- A step over `not in` after an operand looks for the list. -/
theorem opensList_of_negated {m : Machine} {token next : Token} {rest : List Token}
    (hneg : Machine.negatable? next.kind = some .in_) {result : Machine × Bool}
    (h : m.negated token (next :: rest) = .ok result) : opensList rest := by
  have hnext : following token (next :: rest) = next := rfl
  simp only [Machine.negated, hnext, hneg, List.drop_one, List.tail_cons, true_and] at h
  obtain ⟨-, -, -, hparen⟩ := negatable?_spec hneg
  apply opensList_of_following hparen
  split at h
  · cases h
  · next hlist => exact Decidable.not_not.1 hlist

/-- **A negated operator after an operand leaves the machine in front of its second operand.** -/
theorem AfterOperand.negated {m : Machine} (hm : AfterOperand leaf name m) {token next : Token}
    {rest : List Token} (hnot : token.kind = .keyword .not)
    (hneg : (Machine.negatable? next.kind).isSome = true) {tree : Tree}
    (hrun : runTokens m (token :: next :: rest) = .ok tree) :
    ∃ m', AtOperand leaf name rest m' ∧ runTokens m' rest = .ok tree := by
  obtain ⟨o, ho⟩ := Option.isSome_iff_exists.1 hneg
  obtain ⟨htier, htier', hkind, -⟩ := negatable?_spec ho
  obtain ⟨m', used, hstep, hrest⟩ := step_of_runTokens (isLast_of_eq hnot rfl) hrun
  have hexpects : m.expects = .afterOperand := by
    cases hm
    rfl
  have hstep' : m.negated token (next :: rest) = .ok (m', used) := by
    rw [← hstep]
    simp only [Machine.step, hexpects, Machine.afterOperand, hnot]
  have hin : o = .in_ → opensList rest := by
    rintro rfl
    exact opensList_of_negated ho hstep'
  obtain ⟨hoperator, hnegatable⟩ := operatorOf?_of_negatable? ho
  rw [negated_eq hoperator hnegatable hin] at hstep'
  obtain ⟨m₁, hclose, hopen⟩ := bind_eq_ok hstep'
  have hleast : 13 < operatorTier o := Int.lt_trans (by decide) htier
  obtain ⟨f, below, t, rfl, hw, ht, hfits, hlt, hspine⟩ := hm.closeTier hleast hclose
  cases hopen
  have hwaiting : Waiting leaf name ⟨.op .not, token.span, []⟩ (f :: below) :=
    .not hw (Int.lt_of_lt_of_le hlt htier')
  refine ⟨_, ?_, hrest⟩
  rcases hkind with hbinary | rfl
  · exact .mk (.binary hwaiting hbinary ht hspine htier fun heq => by cases heq)
      fun heq => hin (Tag.op.inj heq)
  · exact .mk (.lower hwaiting ht hspine htier) fun heq => by cases heq

/-- The open nodes under an open parenthesis are not all closed by what spares parentheses. -/
theorem Closing.of_paren {p : Tag → Bool} {frames : List Frame} {root : List Tree}
    {out : List Frame × List Tree} (h : Closing leaf name p frames root out)
    (hparen : ∃ f ∈ frames, p f.tag = false) :
    ∃ f below t, out = ({ f with done := t :: f.done } :: below, root) ∧ Waiting leaf name f below ∧
      Condition leaf t ∧ p f.tag = false := by
  cases h with
  | @stopped f below t hw ht _ hp _ => exact ⟨f, below, t, rfl, hw, ht, hp⟩
  | emptied _ _ hall =>
    obtain ⟨f, hf, hp⟩ := hparen
    rw [hall f hf] at hp
    cases hp

/-- **A comma leaves the machine in front of the next operand of the list.** -/
theorem AfterOperand.comma {m : Machine} (hm : AfterOperand leaf name m) {token : Token}
    {rest : List Token} (hcomma : token.kind = .symbol .comma) {tree : Tree}
    (hrun : runTokens m (token :: rest) = .ok tree) :
    ∃ m', AtOperand leaf name rest m' ∧ runTokens m' rest = .ok tree := by
  obtain ⟨m', used, hstep, hrest⟩ := step_of_runTokens (isLast_of_eq hcomma rfl) hrun
  have hexpects : m.expects = .afterOperand := by
    cases hm
    rfl
  simp only [Machine.step, hexpects, Machine.afterOperand, hcomma, Machine.comma] at hstep
  split at hstep
  · next hinside =>
    obtain ⟨m₁, hclose, hone⟩ := bind_eq_ok hstep
    obtain ⟨-, hclosing⟩ := hm.closeWhile (ok_of_orNear hclose)
    have hparen : ∃ f ∈ m.frames, (f.tag != .par) = false := by
      obtain ⟨f, hfind, htag⟩ := (Option.any_eq_true _ _).1 hinside
      exact ⟨f, List.mem_of_find?_eq_some hfind, by simpa using htag⟩
    obtain ⟨f, below, t, hout, hw, ht, hp⟩ := hclosing.of_paren hparen
    obtain ⟨expects, frames, root⟩ := m₁
    cases hout
    cases hone
    refine ⟨_, ?_, hrest⟩
    cases hw with
    | par hw hdone =>
      exact .mk (.par hw (List.forall_mem_cons.2 ⟨ht, hdone⟩)) fun heq => by cases heq
    | _ => simp at hp
  · cases hstep

/-- **A closing parenthesis is an operand of the node around it.** -/
theorem AfterOperand.closing {m : Machine} (hm : AfterOperand leaf name m) {token : Token}
    {rest : List Token} (hclosing : token.kind = .symbol .rightParen) {tree : Tree}
    (hrun : runTokens m (token :: rest) = .ok tree) :
    ∃ m', AfterOperand leaf name m' ∧ runTokens m' rest = .ok tree := by
  obtain ⟨m', used, hstep, hrest⟩ := step_of_runTokens (isLast_of_eq hclosing rfl) hrun
  have hexpects : m.expects = .afterOperand := by
    cases hm
    rfl
  simp only [Machine.step, hexpects, Machine.afterOperand, hclosing, Machine.infixOrClause,
    infixOperator?, Machine.clause, if_true] at hstep
  obtain ⟨⟨expects, frames, root⟩, hclose, hstep⟩ := bind_eq_ok hstep
  obtain ⟨-, hout⟩ := hm.closeWhile (ok_of_orNear hclose)
  cases hout with
  | emptied => cases hstep
  | @stopped f below t hw ht _ hp _ =>
    simp only at hstep
    split at hstep
    · next hparen =>
      cases hstep
      cases hw with
      | @par s done f below hw hdone =>
        refine ⟨_, ?_, hrest⟩
        have hnode : Condition leaf (.node .par (t :: done).reverse) := by
          refine .par (by simp) ?_
          intro u hu
          rcases List.mem_cons.1 (List.mem_reverse.1 hu) with rfl | hu
          · exact ht
          · exact hdone u hu
        exact .mk hw hnode (hw.fits_par _) (spine_par _)
      | _ => simp [Tag.isParen] at hparen
    · cases hstep

/-- **At the end of the source the condition is complete.** -/
theorem AfterOperand.finish {m : Machine} (hm : AfterOperand leaf name m) {token : Token}
    {tree : Tree} (h : m.finish token = .ok tree) :
    ∃ e, tree = filtered name e ∧ Condition leaf e := by
  have hexpects : m.expects = .afterOperand := by
    cases hm
    rfl
  rw [Machine.finish, hexpects] at h
  simp only [Expect.acceptsEnd, Bool.true_or, if_true] at h
  split at h
  · cases h
  · obtain ⟨⟨expects, frames, root⟩, hclose, h⟩ := bind_eq_ok h
    obtain ⟨-, hout⟩ := hm.closeWhile (ok_of_orNear hclose)
    cases hout with
    | stopped _ _ _ hp _ => cases hp
    | @emptied e he _ _ =>
      cases h
      exact ⟨e, rfl, he⟩

/-! ## The whole condition -/

/-- The tokens stand for leaves: each by itself, and a minus with the number it touches. -/
structure StandsFor (leaf : Tree → Prop) (tokens : List Token) : Prop where
  literal : ∀ token ∈ tokens, isPlainLiteral token.kind = true →
    ∀ t, operandOf? token.kind = some t → leaf t
  signed : ∀ minus ∈ tokens, ∀ number ∈ tokens,
    ∀ t, signedLiteral? minus number = some t → leaf t

theorem StandsFor.tail {token : Token} {tokens : List Token} (h : StandsFor leaf (token :: tokens)) :
    StandsFor leaf tokens where
  literal := fun token' hmem => h.literal token' (List.mem_cons_of_mem _ hmem)
  signed := fun minus hminus number hnumber =>
    h.signed minus (List.mem_cons_of_mem _ hminus) number (List.mem_cons_of_mem _ hnumber)

theorem operandOf?_of_isPlainLiteral {kind : TokenKind} (h : isPlainLiteral kind = true) :
    ∃ t, operandOf? kind = some t ∧ isLeaf t = true := by
  cases kind with
  | text content => exact ⟨_, rfl, rfl⟩
  | keyword k =>
    cases k with
    | null => exact ⟨_, rfl, rfl⟩
    | _ => cases h
  | integer digits => exact ⟨_, rfl, rfl⟩
  | real digits => exact ⟨_, rfl, rfl⟩
  | name name => exact ⟨_, rfl, rfl⟩
  | _ => cases h

theorem isLeaf_of_signedLiteral? {minus number : Token} {t : Tree}
    (h : signedLiteral? minus number = some t) : isLeaf t = true := by
  unfold signedLiteral? at h
  split at h
  · split at h <;> cases h <;> rfl
  · cases h

mutual

/-- A plain condition is read into a condition, from an operand on. -/
theorem condition_of_plainOperand : (tokens : List Token) → plainOperand tokens = true →
    StandsFor leaf tokens → ∀ {m : Machine} {tree : Tree}, AtOperand leaf name tokens m →
    runTokens m tokens = .ok tree → ∃ e, tree = filtered name e ∧ Condition leaf e
  | [], h, _, _, _, _, _ => by
    rw [plainOperand] at h
    cases h
  | token :: rest, h, hleaf, m, tree, hm, hrun => by
    cases hm with
    | @mk f below hw hlist =>
    unfold plainOperand at h
    split at h
    · next hkind =>
      rw [runTokens_opening hkind] at hrun
      have hpar : Waiting leaf name ⟨.par, token.span, []⟩ (f :: below) := .par hw (by simp)
      exact condition_of_plainOperand rest h hleaf.tail (.mk hpar fun heq => nomatch heq) hrun
    · next hkind =>
      have hne : f.tag ≠ .op .in_ := by
        intro hf
        have hopens : token.kind = .symbol .leftParen := hlist hf
        rw [hkind] at hopens
        cases hopens
      cases rest with
      | nil => cases h
      | cons number rest =>
        simp only [Bool.and_eq_true] at h
        obtain ⟨t, ht⟩ := Option.isSome_iff_exists.1 h.1
        rw [runTokens_signed hkind ht] at hrun
        have hstands : leaf t := hleaf.signed token (by simp) number (by simp) t ht
        exact condition_of_plainAfter rest h.2 hleaf.tail.tail
          (hw.afterLeaf hne (isLeaf_of_signedLiteral? ht) hstands) hrun
    · next hparen _ =>
      simp only [Bool.and_eq_true] at h
      have hne : f.tag ≠ .op .in_ := fun hf => hparen (hlist hf)
      obtain ⟨t, ht, hisLeaf⟩ := operandOf?_of_isPlainLiteral h.1
      rw [runTokens_operand ht] at hrun
      have hstands : leaf t := hleaf.literal token (by simp) h.1 t ht
      exact condition_of_plainAfter rest h.2 hleaf.tail (hw.afterLeaf hne hisLeaf hstands) hrun
termination_by tokens => tokens.length

/-- A plain condition is read into a condition, from after an operand on. -/
theorem condition_of_plainAfter : (tokens : List Token) → plainAfter tokens = true →
    StandsFor leaf tokens → ∀ {m : Machine} {tree : Tree}, AfterOperand leaf name m →
    runTokens m tokens = .ok tree → ∃ e, tree = filtered name e ∧ Condition leaf e
  | [], h, _, _, _, _, _ => by
    rw [plainAfter] at h
    cases h
  | token :: rest, h, hleaf, m, tree, hm, hrun => by
    unfold plainAfter at h
    split at h
    · next hkind =>
      rw [runTokens] at hrun
      simp only [hkind] at hrun
      exact hm.finish hrun
    · next hkind =>
      obtain ⟨m', hm', hrun'⟩ := hm.closing hkind hrun
      exact condition_of_plainAfter rest h hleaf.tail hm' hrun'
    · next hkind =>
      obtain ⟨m', hm', hrun'⟩ := hm.comma hkind hrun
      exact condition_of_plainOperand rest h hleaf.tail hm' hrun'
    · next hkind =>
      cases rest with
      | nil => cases h
      | cons next rest =>
        simp only [Bool.and_eq_true] at h
        obtain ⟨m', hm', hrun'⟩ := hm.negated hkind h.1 hrun
        exact condition_of_plainOperand rest h.2 hleaf.tail.tail hm' hrun'
    · simp only [Bool.and_eq_true] at h
      obtain ⟨o, ho⟩ := Option.isSome_iff_exists.1 h.1
      obtain ⟨m', hm', hrun'⟩ := hm.operator ho hrun
      exact condition_of_plainOperand rest h.2 hleaf.tail hm' hrun'
termination_by tokens => tokens.length

end

/-- **A plain condition that parses is read into a condition.** -/
theorem condition_of_isPlain {tokens : List Token} (hplain : isPlain name tokens = true)
    (hleaf : StandsFor leaf tokens) {tree : Tree} (h : parseTokens tokens = .ok tree) :
    ∃ e, tree = filtered name e ∧ Condition leaf e := by
  unfold isPlain at hplain
  split at hplain
  · next relation where_ rest =>
    simp only [Bool.and_eq_true, beq_iff_eq] at hplain
    obtain ⟨⟨hrelation, hwhere⟩, hrest⟩ := hplain
    rw [runTokens_where hrelation hwhere] at h
    exact condition_of_plainOperand rest hrest hleaf.tail.tail
      (.mk .filter fun heq => nomatch heq) h
  · cases hplain

end RelationSql.Grammar
