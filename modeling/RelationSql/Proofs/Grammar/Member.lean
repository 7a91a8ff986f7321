import RelationSql.Proofs.Grammar.Inside
import RelationSql.Proofs.Grammar.Links
import RelationSql.Proofs.Source.Followed

/-!
# Members of a chain

A member of a chain is a relation or a source in parentheses, with any number of scopes behind it and
one condition at most. Wherever a relation may stand, its words leave its tree (`runTokens_member`), so a
chain of members is parsed into nested `from` nodes (`parse_of_isChain`), and what is in parentheses is
parsed as it is on its own.
-/

namespace RelationSql.Grammar

open RelationSql.Source (Span Token TokenKind Words)

/-! ## Texts -/

/-- The words are a source with one tree. -/
structure IsSource (words : List Token) (t : Tree) : Prop where
  valid : ∀ word ∈ words, word.kind.isLast = false
  reads : ∃ last : Token, last.kind = .finish ∧
    runTokens .start (words ++ [last]) = .ok (.node .query [t])

/-- The words are a condition. -/
structure IsCondition (words : List Token) (t : Tree) : Prop where
  valid : ∀ word ∈ words, word.kind.isLast = false
  within : ∀ word ∈ words, startsClause word.kind = false
  reads : ∃ last : Token, last.kind = .finish ∧
    runTokens ⟨.operand, [], []⟩ (words ++ [last]) = .ok (.node .query [t])

/-- A relation, or a source in parentheses, with any number of scopes. What stands in parentheses is
somewhere in a longer text. -/
inductive Scoped : List Token → Tree → Prop where
  | relation {word : Token} {name : String} (hname : word.kind = .name name) :
      Scoped [word] (.leaf .relation name)
  | parenthesis {opening closing : Token} {words : List Token} {t : Tree}
      (hopening : opening.kind = .symbol .leftParen) (hclosing : closing.kind = .symbol .rightParen)
      (h : IsSource words t) (count : Nat) :
      Scoped (opening :: (words.map (Token.shift count) ++ [closing])) (.node .clausePar [t])
  | scope {words : List Token} {t : Tree} (h : Scoped words t) {word asked : Token} {name : String}
      (hword : word.kind = .keyword .in_) (hasked : asked.kind = .name name) :
      Scoped (words ++ [word, asked]) (.node .scope [t, .atom name])

/-- A member of a chain, with a condition or without one. -/
inductive Member : List Token → Tree → Prop where
  | plain {words : List Token} {t : Tree} (h : Scoped words t) : Member words t
  | filter {words condition : List Token} {t u : Tree} (h : Scoped words t) {word : Token}
      (hword : word.kind = .keyword .where_) (hcondition : IsCondition condition u) (count : Nat) :
      Member (words ++ word :: condition.map (Token.shift count)) (.node .filter [t, u])

/-- Members with `from` between neighbours, from the outermost on. -/
inductive Chained : List Token → Tree → Prop where
  | one {words : List Token} {t : Tree} (h : Member words t) : Chained words t
  | from_ {words more : List Token} {t u : Tree} (h : Chained words t) {word : Token}
      (hword : word.kind = .keyword .from_) (hmore : Member more u) :
      Chained (words ++ word :: more) (.node .from_ [t, u])

/-! ### Places -/

theorem shift_shift (count count' : Nat) (words : List Token) :
    (words.map (Token.shift count)).map (Token.shift count') =
      words.map (Token.shift (count' + count)) := by
  rw [List.map_map]
  apply List.map_congr_left
  intro word _
  simp [Token.shift, Span.shift, Nat.add_assoc]

variable {words more : List Token} {t u : Tree} {count : Nat}

/-- A text stays what it is further on in a source. -/
theorem Scoped.shift (h : Scoped words t) (count : Nat) :
    Scoped (words.map (Token.shift count)) t := by
  induction h with
  | relation hname => exact .relation hname
  | parenthesis hopening hclosing h count' =>
    rw [List.map_cons, List.map_append, shift_shift, List.map_singleton]
    refine .parenthesis ?_ ?_ h _
    · exact hopening
    · exact hclosing
  | scope _ hword hasked ih =>
    rw [List.map_append]
    exact .scope ih hword hasked

theorem Member.shift (h : Member words t) (count : Nat) :
    Member (words.map (Token.shift count)) t := by
  cases h with
  | plain h => exact .plain (h.shift count)
  | filter h hword hcondition count' =>
    rw [List.map_append, List.map_cons, shift_shift]
    refine .filter (h.shift count) ?_ hcondition _
    exact hword

/-! ### Words -/

/-! ## Reading a member -/

/-- A member may stand here, outside of all parentheses. -/
structure Machine.AtMember (m : Machine) : Prop where
  expects : m.expects = .relation
  paren : m.paren? = none
  loose : ∀ f ∈ m.frames.head?, tier f.tag < tier .scope

/-- The second machine has read a text that closes to the tree where the first one stood. -/
structure Machine.Completes (m : Machine) (t : Tree) (m₁ : Machine) : Prop where
  expects : m₁.expects = .afterRelation ∨ m₁.expects = .afterOperand
  paren : m₁.paren? = none
  closes : ∀ p : Tag → Bool, (∀ tag, tier .filter ≤ tier tag → p tag = true) →
    m₁.closeWhile? p = ((m.append t).expecting m₁.expects).closeWhile? p

variable {m m₁ : Machine}

/-- Nothing is closed where the innermost node stays open. -/
theorem closeWhile?_of_stop {p : Tag → Bool} (h : ∀ f ∈ m.frames.head?, p f.tag = false) :
    m.closeWhile? p = some m := by
  obtain ⟨expects, frames, root⟩ := m
  cases frames with
  | nil => rfl
  | cons f frames =>
    have hstop := Machine.closeFrames_stop (h f rfl) [] frames root
    simp [Machine.closeWhile?, hstop]

theorem head?_frames_append {P : Tag → Prop} (h : ∀ f ∈ m.frames.head?, P f.tag) (t : Tree) :
    ∀ f ∈ (m.append t).frames.head?, P f.tag := by
  obtain ⟨expects, frames, root⟩ := m
  cases frames with
  | nil => exact h
  | cons f frames =>
    intro g hg
    cases hg
    exact h f rfl

theorem paren?_append (m : Machine) (t : Tree) :
    (m.append t).paren? = none ↔ m.paren? = none := by
  obtain ⟨expects, frames, root⟩ := m
  cases frames with
  | nil => exact Iff.rfl
  | cons f frames =>
    rw [Machine.paren?, Machine.paren?, Machine.append, List.find?_cons, List.find?_cons]
    dsimp only
    split <;> simp

theorem takeLast?_append (m : Machine) (t : Tree) : (m.append t).takeLast? = some (t, m) := by
  obtain ⟨expects, frames, root⟩ := m
  cases frames <;> rfl

theorem closeWhile?_append (m : Machine) (t : Tree) (p : Tag → Bool) :
    (m.append t).closeWhile? p = (Machine.closeFrames p [t] m.frames m.root).map
      fun (frames, root) => ⟨m.expects, frames, root⟩ := by
  obtain ⟨expects, frames, root⟩ := m
  cases frames with
  | nil => rfl
  | cons f frames => simp [Machine.closeWhile?, Machine.append, Machine.closeFrames]

theorem append_expecting (m : Machine) (next : Expect) (t : Tree) :
    (m.expecting next).append t = (m.append t).expecting next := by
  obtain ⟨expects, frames, root⟩ := m
  cases frames <;> rfl

/-- A node that is closed becomes the newest tree below it. -/
theorem closeWhile?_push {p : Tag → Bool} {f : Frame} (hp : p f.tag = true)
    (hcomplete : f.isComplete = true) (expects : Expect) :
    ((m.push f).expecting expects).closeWhile? p =
      ((m.append f.tree).expecting expects).closeWhile? p := by
  have happend := closeWhile?_append (m.expecting expects) f.tree p
  rw [append_expecting] at happend
  rw [happend]
  simp [Machine.closeWhile?, Machine.push, Machine.expecting, Machine.closeFrames, hp, hcomplete]

namespace Machine.AtMember

variable (hm : m.AtMember)

include hm

/-- Nothing around a member is closed before it is complete. -/
theorem stops {least : Int} (hleast : tier .scope ≤ least) :
    ∀ f ∈ m.frames.head?, decide (least ≤ tier f.tag) = false := by
  intro f hf
  have hloose := hm.loose f hf
  rw [decide_eq_false_iff_not]
  omega

theorem completes_append (t : Tree) :
    m.Completes t ((m.append t).expecting .afterRelation) where
  expects := .inl rfl
  paren := (paren?_append m t).2 hm.paren
  closes := fun _ _ => rfl

theorem completes_push {f : Frame} (hf : tier .filter ≤ tier f.tag)
    (hcomplete : f.isComplete = true) :
    m.Completes f.tree ((m.push f).expecting .afterRelation) where
  expects := .inl rfl
  paren := by
    have hparen : f.tag.isParen = false := by
      cases htag : f.tag <;> first | rfl | (rw [htag] at hf; exact absurd hf (by decide))
    have hfound := hm.paren
    rw [Machine.paren?] at hfound ⊢
    show (f :: m.frames).find? _ = none
    rw [List.find?_cons, hparen]
    exact hfound
  closes := fun _ hp => closeWhile?_push (hp _ hf) hcomplete _

/-- Up to where the member stands, all that it has read is closed. -/
theorem closeTier (h : m.Completes t m₁) {least : Int} (hleast : least ≤ tier .filter)
    (hscope : tier .scope ≤ least) (span : Span) :
    m₁.closeTier least span = .ok ((m.append t).expecting m₁.expects) := by
  have hstop := head?_frames_append (P := fun tag => decide (least ≤ tier tag) = false)
    (hm.stops hscope) t
  rw [Machine.closeTier, h.closes _ fun tag htag => decide_eq_true (Int.le_trans hleast htag),
    closeWhile?_of_stop hstop]
  rfl

/-- What a member has read so far is taken into a new node. -/
theorem openOver {tag : Tag} (h : m.Completes t m₁) (htag : tier tag = tier .filter)
    (next : Expect) (span : Span) :
    m₁.openOver tag next span = .ok ((m.push ⟨tag, span, [t]⟩).expecting next) := by
  have htake := takeLast?_append (m.expecting m₁.expects) t
  rw [append_expecting] at htake
  rw [Machine.openOver, hm.closeTier h (Int.le_of_eq htag) (by rw [htag]; decide) span]
  simp only [bind, Except.bind, htake, orNear]
  rfl

/-- What a member has read so far is wrapped in a finished node. -/
theorem wrapLast (h : m.Completes t m₁) (more : List Tree) (span : Span) :
    m₁.wrapLast .scope more span =
      .ok ((m.append (.node .scope (t :: more))).expecting m₁.expects) := by
  have htake := takeLast?_append (m.expecting m₁.expects) t
  rw [append_expecting] at htake
  rw [Machine.wrapLast, hm.closeTier h (by decide) (by decide) span]
  simp only [bind, Except.bind, htake, orNear, append_expecting]
  rfl

end Machine.AtMember

/-! ### Parentheses -/

/-- Wherever a source may end, a closing parenthesis closes. -/
theorem step_rightParen (h : m.expects.acceptsEnd = true) {word : Token}
    (hword : word.kind = .symbol .rightParen) (rest : List Token) :
    m.step word rest = m.closeParen word := by
  have hclause : m.clause word rest = m.closeParen word := if_pos hword
  obtain ⟨kind, span⟩ := word
  obtain rfl : kind = .symbol .rightParen := hword
  obtain ⟨expects, frames, root⟩ := m
  cases expects with
  | afterRelation | afterOperand | afterLimit | afterOrderItem | orderSeparator | afterGroupItem
  | clauseEnd => exact hclause
  | _ => cases h

/-- A source in parentheses is read. -/
theorem runTokens_parenthesis (m : Machine) (hexpects : m.expects = .relation)
    (h : IsSource words t) {opening closing : Token} (hopening : opening.kind = .symbol .leftParen)
    (hclosing : closing.kind = .symbol .rightParen) (count : Nat) (more : List Token) :
    runTokens m (opening :: (words.map (Token.shift count) ++ closing :: more)) =
      runTokens ((m.append (.node .clausePar [t])).expecting .afterRelation) more := by
  obtain ⟨last, hlast, hread⟩ := h.reads
  let s : Surroundings := ⟨⟨.clausePar, opening.span, []⟩, m.frames, m.root, .inl rfl, rfl⟩
  have hinside : Machine.Inside s .start (m.push ⟨.clausePar, opening.span, []⟩) := by
    obtain ⟨expects, frames, root⟩ := m
    obtain rfl : expects = .relation := hexpects
    exact .mk .nil nofun (.inl rfl)
  obtain ⟨n, n', hn, hfinish, hrun⟩ := hinside.run count h.valid (fun _ _ => .inl rfl)
    hlast (by rw [hclosing]; rfl) more hread
  obtain ⟨hend, -, -⟩ := closes_of_finish hfinish (by simp)
  have hopen (rest : List Token) :
      m.step opening rest = one (m.push ⟨.clausePar, opening.span, []⟩) := by
    rw [Machine.step, hexpects]
    simp only [Machine.relation, hopening]
  have hclose : n'.closeParen closing =
      one ((m.append (.node .clausePar [t])).expecting .afterRelation) := by
    have hwhile := hn.closeWhile?_end hfinish (by simp)
      (p := fun tag => decide (parenTier ≤ tier tag)) fun tag htag => decide_eq_true htag
    rw [Machine.closeParen, Machine.closeTier, hwhile]
    obtain ⟨expects, frames, root⟩ := m
    cases frames <;> rfl
  rw [runTokens_cons (by rw [hopening]; rfl), hopen]
  -- the parenthesis uses up its own token only
  show runTokens (m.push ⟨.clausePar, opening.span, []⟩)
    (words.map (Token.shift count) ++ closing :: more) = _
  rw [hrun, runTokens_cons (by rw [hclosing]; rfl),
    step_rightParen (hn.expects_eq ▸ hend) hclosing, hclose]
  rfl

/-! ### Scopes and conditions -/

/-- A relation or parenthesis with its scopes is read. -/
theorem runTokens_scoped (h : Scoped words t) (hm : m.AtMember) (more : List Token) :
    ∃ m₁, m.Completes t m₁ ∧ m₁.expects = .afterRelation ∧
      runTokens m (words ++ more) = runTokens m₁ more := by
  induction h generalizing more with
  | @relation word name hname =>
    refine ⟨_, hm.completes_push (f := ⟨.relation, word.span, [.atom name]⟩) (Int.le_refl _) rfl, rfl,
      ?_⟩
    have hclose : m.closeTier (tier .relation) word.span = .ok m := by
      rw [Machine.closeTier, closeWhile?_of_stop (hm.stops (by decide))]
      rfl
    rw [List.singleton_append, runTokens_cons (by rw [hname]; rfl), Machine.step, hm.expects]
    simp only [Machine.relation, hname, hclose]
    rfl
  | parenthesis hopening hclosing h count =>
    refine ⟨_, hm.completes_append _, rfl, ?_⟩
    rw [List.cons_append, List.append_assoc]
    exact runTokens_parenthesis m hm.expects h hopening hclosing count more
  | @scope words t _ word asked name hword hasked ih =>
    obtain ⟨m₁, hm₁, hexpects, hrun⟩ := ih (word :: asked :: more)
    refine ⟨_, hm.completes_append _, rfl, ?_⟩
    rw [List.append_assoc, List.cons_append, List.singleton_append, hrun,
      runTokens_cons (by rw [hword]; rfl), Machine.step, hexpects]
    simp only [Machine.afterRelation, hword, following, Machine.scope, hasked,
      hm.wrapLast hm₁ _ word.span]
    rfl

/-- **The words of a member leave its tree**, wherever a member may stand. -/
theorem runTokens_member (h : Member words t) (hm : m.AtMember) {next : Token}
    (hnext : endsText next.kind = true) (more : List Token) :
    ∃ m₁, m.Completes t m₁ ∧ runTokens m (words ++ next :: more) = runTokens m₁ (next :: more) := by
  cases h with
  | plain h =>
    obtain ⟨m₁, hm₁, -, hrun⟩ := runTokens_scoped h hm (next :: more)
    exact ⟨m₁, hm₁, hrun⟩
  | @filter words condition t u h word hword hcondition count =>
    obtain ⟨m₁, hm₁, hexpects, hrun⟩ :=
      runTokens_scoped h hm (word :: (condition.map (Token.shift count) ++ next :: more))
    obtain ⟨last, hlast, hread⟩ := hcondition.reads
    have hparen : ((⟨.filter, word.span, [t]⟩ :: m.frames : List Frame).find?
        fun f => f.tag.isParen) = none := hm.paren
    let s : Surroundings :=
      ⟨⟨.filter, word.span, [t]⟩, m.frames, m.root, .inr rfl, by rw [hparen]; rfl⟩
    have hinside : Machine.Inside s ⟨.operand, [], []⟩
        ((m.push ⟨.filter, word.span, [t]⟩).expecting .operand) := .mk .nil nofun (.inr (.inl rfl))
    obtain ⟨n, n', hn, hfinish, hrun'⟩ := hinside.run count hcondition.valid
      (fun word hmem => .inr (hcondition.within word hmem)) hlast hnext more hread
    obtain ⟨hend, hnparen, -⟩ := closes_of_finish hfinish (by simp)
    have hafter : n.expects = .afterOperand := by
      rcases hn.allowed with h | h | h
      · cases h
      · rw [h] at hend
        cases hend
      · exact h
    refine ⟨n', ⟨.inr (hn.expects_eq.trans hafter), hn.paren?_end hnparen hparen, fun p hp => ?_⟩, ?_⟩
    · rw [hn.closeWhile?_end hfinish (by simp) fun tag htag => hp tag (Int.le_of_lt htag),
        hn.expects_eq]
      exact closeWhile?_push (f := ⟨.filter, word.span, [u, t]⟩) (hp _ (Int.le_refl _)) rfl _
    · have hopen : m₁.step word (condition.map (Token.shift count) ++ next :: more) =
          one ((m.push ⟨.filter, word.span, [t]⟩).expecting .operand) := by
        rw [Machine.step, hexpects]
        simp only [Machine.afterRelation, hword, hm.openOver hm₁ rfl .operand word.span]
        rfl
      rw [List.append_assoc, List.cons_append, hrun, runTokens_cons (by rw [hword]; rfl), hopen]
      exact hrun'

/-! ## Reading a chain -/

/-- The machine has read a chain that closes to the tree, with nothing around it. -/
structure Machine.Reached (t : Tree) (m : Machine) : Prop where
  expects : m.expects = .afterRelation ∨ m.expects = .afterOperand
  paren : m.paren? = none
  closes : ∀ p : Tag → Bool, (∀ tag, tier .from_ ≤ tier tag → p tag = true) →
    m.closeWhile? p = some ⟨m.expects, [], [t]⟩

/-- A `from` behind a chain takes it into a new node. -/
theorem Machine.Reached.step_from (hm : m.Reached t) {word : Token}
    (hword : word.kind = .keyword .from_) (rest : List Token) :
    m.step word rest = one ⟨.relation, openFrom (some (word.span, t)), []⟩ := by
  have hclose := hm.closes (fun tag => decide (tier .from_ ≤ tier tag)) fun _ htag => by
    simpa using htag
  have hopen : m.openOver .from_ .relation word.span =
      .ok ⟨.relation, openFrom (some (word.span, t)), []⟩ := by
    rw [Machine.openOver, Machine.closeTier, hclose]
    rfl
  have hinside : m.insideExpression = false := by
    rw [Machine.insideExpression, hm.paren]
    rfl
  rw [Machine.step]
  rcases hm.expects with h | h <;> rw [h]
  · simp only [Machine.afterRelation, hword, hopen]
    rfl
  · simp only [Machine.afterOperand, hword, hinside, hopen]
    rfl

/-- A member may stand at the beginning and behind a `from`. -/
theorem atMember_openFrom (before : Option (Span × Tree)) :
    Machine.AtMember ⟨.relation, openFrom before, []⟩ := by
  cases before with
  | none => exact ⟨rfl, rfl, nofun⟩
  | some before =>
    refine ⟨rfl, rfl, ?_⟩
    intro f hf
    cases hf
    exact (by decide : tier .from_ < tier .scope)

/-- A member behind the chain so far is a longer chain. -/
theorem Machine.Completes.reached {before : Option (Span × Tree)}
    (h : Machine.Completes ⟨.relation, openFrom before, []⟩ t m) : m.Reached (behind before t) := by
  refine ⟨h.expects, h.paren, fun p hp => ?_⟩
  rw [h.closes p fun tag htag => hp tag (Int.le_trans (by decide) htag)]
  have hfrom := hp .from_ (Int.le_refl _)
  cases before with
  | none => rfl
  | some before =>
    simp [Machine.closeWhile?, Machine.closeFrames, Machine.append, Machine.expecting, openFrom,
      behind, hfrom, Frame.isComplete, Frame.tree]

/-- **The words of a chain leave its tree.** -/
theorem runTokens_chain (h : Chained words t) (next : Token) (hnext : endsText next.kind = true)
    (more : List Token) :
    ∃ m : Machine, m.Reached t ∧
      runTokens .start (words ++ next :: more) = runTokens m (next :: more) := by
  induction h generalizing next more with
  | one h =>
    obtain ⟨m, hm, hrun⟩ := runTokens_member h (atMember_openFrom none) hnext more
    exact ⟨m, hm.reached, hrun⟩
  | @from_ words words' t u _ word hword hmore ih =>
    obtain ⟨m, hm, hrun⟩ := ih word (by rw [hword]; rfl) (words' ++ next :: more)
    obtain ⟨m', hm', hrun'⟩ :=
      runTokens_member hmore (atMember_openFrom (some (word.span, t))) hnext more
    refine ⟨m', hm'.reached, ?_⟩
    rw [List.append_assoc, List.cons_append, hrun, runTokens_cons (by rw [hword]; rfl),
      hm.step_from hword]
    exact hrun'

theorem Machine.Reached.finish (hm : m.Reached t) (last : Token) :
    m.finish last = .ok (.node .query [t]) := by
  have hend : m.expects.acceptsEnd = true := by
    rcases hm.expects with h | h <;> rw [h] <;> rfl
  rw [Machine.finish, hend, hm.paren, hm.closes (fun _ => true) fun _ _ => rfl]
  rfl

/-- A chain up to the end of the source. -/
theorem runTokens_chain_last (h : Chained words t) {last : Token} (hlast : last.kind = .finish) :
    runTokens .start (words ++ [last]) = .ok (.node .query [t]) := by
  obtain ⟨m, hm, hrun⟩ := runTokens_chain h last (by rw [hlast]; rfl) []
  rw [hrun, runTokens_finish m hlast, hm.finish]

/-! ## Members as texts -/

/-- A piece of text that is no token is a fault, whatever was read before. -/
theorem runTokens_invalid {before : List Token} {bad : Token} {reason : Source.LexicalError}
    (hbad : bad.kind = .invalid reason) (hbefore : ∀ word ∈ before, word.kind.isLast = false)
    (m : Machine) (tree : Tree) : runTokens m (before ++ [bad]) ≠ .ok tree := by
  -- a step may use up two words, so the induction is on their number
  induction hlength : before.length using Nat.strongRecOn generalizing m before with
  | ind length ih =>
    subst hlength
    cases before with
    | nil =>
      unfold runTokens
      simp [hbad]
    | cons word before =>
      rw [List.forall_mem_cons] at hbefore
      rw [List.cons_append, runTokens_cons hbefore.1]
      intro h
      obtain ⟨⟨m', used⟩, -, hrun⟩ := bind_eq_ok h
      cases used with
      | false => exact ih _ (by simp) hbefore.2 m' rfl hrun
      | true =>
        cases before with
        | nil => cases hrun
        | cons second before =>
          rw [List.forall_mem_cons] at hbefore
          exact ih _ (Nat.lt_succ_of_lt (Nat.lt_succ_self _)) hbefore.2.2 m' rfl hrun

/-- The text is a name. -/
def IsName (text : String) : Prop :=
  ∃ c cs, text.toList = c :: cs ∧ Source.read c cs = ⟨.name text, c :: cs, []⟩

/-- The text is a condition with this tree. -/
def Conditions (text : String) (t : Tree) : Prop :=
  ∃ words, Words 0 text.toList words ∧ IsCondition words t

/-- The text is a relation, or a source in parentheses, with any number of scopes. -/
def IsScoped (text : String) (t : Tree) : Prop :=
  ∃ words, Words 0 text.toList words ∧ Scoped words t

/-- The text is a member with this tree. -/
def IsMember (text : String) (t : Tree) : Prop :=
  ∃ words, Words 0 text.toList words ∧ Member words t

/-- The text is a chain of members with this tree. -/
def IsChain (text : String) (t : Tree) : Prop :=
  ∃ words, Words 0 text.toList words ∧ Chained words t

variable {a b : String}

theorem IsName.exists_words (h : IsName a) : ∃ span, Words 0 a.toList [⟨.name a, span⟩] := by
  obtain ⟨c, cs, htext, hread⟩ := h
  rw [htext]
  exact ⟨_, Words.one hread rfl⟩

/-- A name is a relation. -/
theorem IsName.isScoped (h : IsName a) : IsScoped a (.leaf .relation a) := by
  obtain ⟨span, hwords⟩ := h.exists_words
  exact ⟨_, hwords, @Scoped.relation ⟨_, span⟩ _ rfl⟩

/-- **A scope behind a relation belongs to it.** -/
theorem IsScoped.in_ (h : IsScoped a t) (hb : IsName b) :
    IsScoped (a ++ " in " ++ b) (.node .scope [t, .atom b]) := by
  obtain ⟨words, hwords, hscoped⟩ := h
  obtain ⟨span, hwords'⟩ := hb.exists_words
  have hread : Source.read 'i' ['n'] = ⟨.keyword .in_, ['i', 'n'], []⟩ := rfl
  obtain ⟨span', count, hboth⟩ := hwords.beside hwords' hread rfl
  refine ⟨_, ?_, @Scoped.scope _ _ hscoped ⟨_, span'⟩ ⟨_, span.shift count⟩ _ rfl rfl⟩
  rw [String.toList_append, String.toList_append, List.append_assoc]
  exact hboth

theorem IsScoped.isMember (h : IsScoped a t) : IsMember a t := by
  obtain ⟨words, hwords, hscoped⟩ := h
  exact ⟨words, hwords, .plain hscoped⟩

/-- **A condition behind a relation belongs to it.** -/
theorem IsScoped.where_ (h : IsScoped a t) (hb : Conditions b u) :
    IsMember (a ++ " where " ++ b) (.node .filter [t, u]) := by
  obtain ⟨words, hwords, hscoped⟩ := h
  obtain ⟨words', hwords', hcondition⟩ := hb
  have hread : Source.read 'w' "here".toList = ⟨.keyword .where_, "where".toList, []⟩ := rfl
  obtain ⟨span, count, hboth⟩ := hwords.beside hwords' hread rfl
  refine ⟨_, ?_, @Member.filter _ _ _ _ hscoped ⟨_, span⟩ rfl hcondition count⟩
  rw [String.toList_append, String.toList_append, List.append_assoc]
  exact hboth

theorem IsMember.isChain (h : IsMember a t) : IsChain a t := by
  obtain ⟨words, hwords, hmember⟩ := h
  exact ⟨words, hwords, .one hmember⟩

/-- **A chain of members is parsed into nested `from` nodes.** -/
theorem parse_of_isChain (h : IsChain a t) : parse a = .ok (.node .query [t]) := by
  obtain ⟨words, hwords, hchain⟩ := h
  obtain ⟨last, hlast, hlex⟩ := Source.lex_of_words hwords
  rw [parse, parseTokens, hlex, runTokens_chain_last hchain hlast]

/-- The words of a text that is parsed into one tree are a source. -/
theorem isSource_of_parse (h : parse a = .ok (.node .query [t])) :
    ∃ words, Words 0 a.toList words ∧ IsSource words t := by
  obtain ⟨words, last, htokens, hlast, hwords⟩ := Source.tokensFrom_eq_append 0 a.toList
  have hrun : runTokens .start (Source.lex a) = .ok (.node .query [t]) := by
    rw [parse, parseTokens] at h
    cases hresult : runTokens .start (Source.lex a) with
    | ok tree =>
      rw [hresult] at h
      rw [Except.ok.inj h]
    | error fault =>
      rw [hresult] at h
      cases h
  rw [Source.lex, Source.lexAll, htokens] at hrun
  rcases Source.upToLast_cases hlast hwords with ⟨hvalid, hup⟩ | ⟨before, bad, reason, hbad, hvalid, hup⟩
  · rw [hup] at hrun
    exact ⟨words, ⟨⟨last, hlast, htokens⟩, hvalid⟩, hvalid, last, hlast, hrun⟩
  · rw [hup] at hrun
    exact absurd hrun (runTokens_invalid hbad hvalid _ _)

/-- **A source in parentheses may stand where a relation may.** -/
theorem isScoped_parenthesis (h : parse a = .ok (.node .query [t])) :
    IsScoped ("(" ++ a ++ ")") (.node .clausePar [t]) := by
  obtain ⟨words, hwords, hsource⟩ := isSource_of_parse h
  obtain ⟨span, span', count, hparen⟩ := hwords.parenthesised
  refine ⟨_, ?_, @Scoped.parenthesis ⟨_, span⟩ ⟨_, span'⟩ _ _ rfl rfl hsource count⟩
  rw [String.toList_append, String.toList_append]
  exact hparen

/-- **A member behind a chain makes a longer chain.** -/
theorem IsChain.from_ (h : IsChain a t) (h' : IsMember b u) :
    IsChain (a ++ " from " ++ b) (.node .from_ [t, u]) := by
  obtain ⟨words, hwords, hchain⟩ := h
  obtain ⟨words', hwords', hmember⟩ := h'
  have hread : Source.read 'f' "rom".toList = ⟨.keyword .from_, "from".toList, []⟩ := rfl
  obtain ⟨span, count, hboth⟩ := hwords.beside hwords' hread rfl
  refine ⟨_, ?_, @Chained.from_ _ _ _ _ hchain ⟨_, span⟩ rfl (hmember.shift count)⟩
  rw [String.toList_append, String.toList_append, List.append_assoc]
  exact hboth

end RelationSql.Grammar
