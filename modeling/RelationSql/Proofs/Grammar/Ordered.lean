import RelationSql.Proofs.Grammar.Formation

/-!
# An order behind a source

What follows a source is looked at by no step over its words, so a source is read to its end in front of
`order by` as it is alone (`runTokens_ahead`). The machine has then a state in which the source may end,
where the order closes all that is open and takes the one tree that is left (`clause_order`). So a source
and an order behind it are parsed into the order of the tree of the source (`parse_ordered`), whatever the
source ends with.
-/

namespace RelationSql.Grammar

open RelationSql.Source (Span Token TokenKind Words)

variable {m : Machine} {token last next : Token} {words more rest : List Token} {tree t : Tree}

/-! ## Reading on -/

/-- What succeeds here has the same result there. -/
def Onward (x y : StepResult) : Prop := ∀ r, x = .ok r → y = .ok r

theorem Onward.refl (x : StepResult) : Onward x x := fun _ h => h

theorem onward_reject (token : Token) (x : StepResult) : Onward (reject token) x := nofun

/-- A minus takes no number along at the end of a source. -/
theorem signedLiteral?_of_end (minus : Token) (h : next.kind = .finish ∨ next.kind = .keyword .order) :
    signedLiteral? minus next = none := by
  unfold signedLiteral?
  rcases h with h | h <;> simp [h]

section Ahead

variable (hlast : last.kind = .finish)

include hlast

/-- A word that a step takes along is a word of the source. -/
theorem following_ahead {kind : TokenKind} (hkind : kind ≠ .finish)
    (h : (following token (words ++ [last])).kind = kind) (next : Token) (more : List Token) :
    following token (words ++ next :: more) = following token (words ++ [last]) := by
  cases words with
  | nil => exact absurd (h.symm.trans hlast) hkind
  | cons word words => rfl

/-- The same clause starts in front of other words. -/
theorem clauseOf?_ahead {clause : Tag × Expect × Bool}
    (h : Machine.clauseOf? token (following token (words ++ [last])) = .ok clause) (next : Token)
    (more : List Token) :
    Machine.clauseOf? token (following token (words ++ next :: more)) = .ok clause := by
  cases words with
  | nil =>
    change Machine.clauseOf? token last = _ at h
    unfold Machine.clauseOf? at h ⊢
    split at h <;> simp_all
  | cons word words => exact h

theorem clause_ahead (next : Token) (more : List Token) :
    Onward (m.clause token (words ++ [last])) (m.clause token (words ++ next :: more)) := by
  unfold Machine.clause
  split
  · exact .refl _
  · split
    · exact onward_reject _ _
    · split
      · exact onward_reject _ _
      · next hclause =>
        rw [clauseOf?_ahead hlast hclause next more]
        exact .refl _

/-- A name that is taken along. -/
theorem scope_ahead (next : Token) (more : List Token) :
    Onward (m.scope token (following token (words ++ [last])))
      (m.scope token (following token (words ++ next :: more))) := by
  unfold Machine.scope
  split
  · next hname =>
    rw [following_ahead hlast (by simp) hname, hname]
    exact .refl _
  · exact onward_reject _ _

theorem afterRelation_ahead (next : Token) (more : List Token) :
    Onward (m.afterRelation token (words ++ [last])) (m.afterRelation token (words ++ next :: more)) := by
  have hclause : Onward (m.clause token (words ++ [last])) _ := clause_ahead hlast next more
  have hscope : Onward (m.scope token (following token (words ++ [last]))) _ :=
    scope_ahead hlast next more
  obtain ⟨kind, span⟩ := token
  cases kind with
  | keyword keyword =>
    cases keyword with
    | in_ => exact hscope
    | where_ | from_ | or | and => exact .refl _
    | _ => exact hclause
  | _ => exact hclause

/-! ### Expressions -/

theorem operand_ahead (hnext : next.kind = .keyword .order) (more : List Token) :
    Onward (m.operand token (words ++ [last])) (m.operand token (words ++ next :: more)) := by
  have hsigned : signedLiteral? token (following token (words ++ next :: more)) =
      signedLiteral? token (following token (words ++ [last])) := by
    cases words with
    | nil => exact (signedLiteral?_of_end _ (.inr hnext)).trans (signedLiteral?_of_end _ (.inl hlast)).symm
    | cons word words => rfl
  unfold Machine.operand
  rw [hsigned]
  exact .refl _

theorem negated_ahead (next : Token) (more : List Token) :
    Onward (m.negated token (words ++ [last])) (m.negated token (words ++ next :: more)) := by
  cases words with
  | nil =>
    have hnone : Machine.negatable? (following token [last]).kind = none := by
      rw [following, hlast]
      rfl
    unfold Machine.negated
    simp only [List.nil_append, hnone]
    exact onward_reject _ _
  | cons word words =>
    have hfollowing (rest : List Token) : following token (word :: rest) = word := rfl
    rw [List.cons_append, List.cons_append]
    simp only [Machine.negated, hfollowing, List.drop_one, List.tail_cons]
    split
    · exact onward_reject _ _
    · split
      · exact onward_reject _ _
      · next hlist =>
        rw [if_neg]
        · exact .refl _
        · rintro ⟨ho, hne⟩
          have hparen := Decidable.not_not.1 fun hne => hlist ⟨ho, hne⟩
          rw [following_ahead hlast (by simp) hparen] at hne
          exact hne hparen

theorem method_ahead (next : Token) (more : List Token) :
    Onward (m.method token (following token (words ++ [last])))
      (m.method token (following token (words ++ next :: more))) := by
  unfold Machine.method
  split
  · next hname =>
    rw [following_ahead hlast (by simp) hname, hname]
    exact .refl _
  · exact onward_reject _ _

theorem afterOperand_ahead (next : Token) (more : List Token) :
    Onward (m.afterOperand token (words ++ [last])) (m.afterOperand token (words ++ next :: more)) := by
  have hinfix : Onward (m.infixOrClause token (words ++ [last]))
      (m.infixOrClause token (words ++ next :: more)) := by
    unfold Machine.infixOrClause
    split
    · exact .refl _
    · exact clause_ahead hlast next more
  have hnegated : Onward (m.negated token (words ++ [last])) _ := negated_ahead hlast next more
  have hmethod : Onward (m.method token (following token (words ++ [last]))) _ :=
    method_ahead hlast next more
  obtain ⟨kind, span⟩ := token
  cases kind with
  | keyword keyword =>
    cases keyword with
    | and =>
      unfold Machine.afterOperand
      dsimp only
      split
      · exact .refl _
      · exact hinfix
    | not => exact hnegated
    | is | between | from_ => exact .refl _
    | in_ =>
      unfold Machine.afterOperand
      dsimp only
      split
      · next hparen =>
        rw [following_ahead hlast (by simp) hparen, if_pos hparen]
        exact .refl _
      · exact onward_reject _ _
    | _ => exact hinfix
  | symbol symbol =>
    cases symbol with
    | dot => exact hmethod
    | comma => exact .refl _
    | _ => exact hinfix
  | name word => exact .refl _
  | _ => exact hinfix

/-! ### Lists -/

theorem separatorOrClause_ahead (allowed : Bool) (expects : Expect) (next : Token) (more : List Token) :
    Onward (m.separatorOrClause allowed expects token (words ++ [last]))
      (m.separatorOrClause allowed expects token (words ++ next :: more)) := by
  unfold Machine.separatorOrClause
  split
  · exact .refl _
  · exact clause_ahead hlast next more

theorem afterOrderItem_ahead (next : Token) (more : List Token) :
    Onward (m.afterOrderItem token (words ++ [last])) (m.afterOrderItem token (words ++ next :: more)) := by
  have hclause : Onward (m.clause token (words ++ [last])) _ := clause_ahead hlast next more
  obtain ⟨kind, span⟩ := token
  cases kind with
  | keyword keyword =>
    cases keyword with
    | asc | desc => exact .refl _
    | _ => exact hclause
  | symbol symbol =>
    cases symbol with
    | comma => exact .refl _
    | _ => exact hclause
  | _ => exact hclause

/-- **A step over a word of a source does the same in front of an order.** -/
theorem step_ahead (hnext : next.kind = .keyword .order) (more : List Token) :
    Onward (m.step token (words ++ [last])) (m.step token (words ++ next :: more)) := by
  unfold Machine.step
  cases m.expects with
  | afterRelation => exact afterRelation_ahead hlast next more
  | operand => exact operand_ahead hlast hnext more
  | afterOperand => exact afterOperand_ahead hlast next more
  | afterLimit => exact separatorOrClause_ahead hlast _ _ next more
  | afterOrderItem => exact afterOrderItem_ahead hlast next more
  | orderSeparator => exact separatorOrClause_ahead hlast _ _ next more
  | afterGroupItem => exact separatorOrClause_ahead hlast _ _ next more
  | clauseEnd => exact clause_ahead hlast next more
  | relation | limitValue | offsetValue | pageName | orderItem | groupItem => exact .refl _

/-- **A source is read to its end in front of an order.** -/
theorem runTokens_ahead (hm : m.Built) (hproper : ∀ word ∈ words, IsProper word.kind)
    (hvalid : ∀ word ∈ words, word.kind.isLast = false) (hnext : next.kind = .keyword .order)
    (more : List Token) (h : runTokens m (words ++ [last]) = .ok tree) :
    ∃ n : Machine, n.Built ∧ n.finish last = .ok tree ∧
      runTokens m (words ++ next :: more) = runTokens n (next :: more) := by
  -- a step may use up two words, so the induction is on their number
  induction hlength : words.length using Nat.strongRecOn generalizing m words with
  | ind length ih =>
    subst hlength
    cases words with
    | nil =>
      exact ⟨m, hm, runTokens_finish m hlast ▸ h, rfl⟩
    | cons word words =>
      rw [List.forall_mem_cons] at hvalid hproper
      rw [List.cons_append, runTokens_cons hvalid.1] at h
      obtain ⟨⟨m₁, used⟩, hstep, hrun⟩ := bind_eq_ok h
      have hrest : ∀ next ∈ words ++ [last], IsProper next.kind := by
        rw [List.forall_mem_append, List.forall_mem_singleton, hlast]
        exact ⟨hproper.2, trivial⟩
      have hm₁ := hm.step hproper.1 hrest hstep
      have hstep' := step_ahead hlast hnext more _ hstep
      rw [List.cons_append, runTokens_cons hvalid.1, hstep']
      cases used with
      | false => exact ih _ (by simp) hm₁ hproper.2 hvalid.2 hrun rfl
      | true =>
        cases words with
        | nil => cases hrun
        | cons second words =>
          rw [List.forall_mem_cons] at hvalid hproper
          exact ih _ (Nat.lt_succ_of_lt (Nat.lt_succ_self _)) hm₁ hproper.2.2 hvalid.2.2 hrun rfl

end Ahead

/-! ## The order -/

/-- Only parentheses that are open bind looser than a clause. -/
def IsClosable (tag : Tag) : Prop := tag.isParen = true ∨ 2 ≤ tier tag

theorem Slot.isClosable {f : Frame} {r o : Role} (h : Slot f r o) : IsClosable f.tag := by
  cases r with
  | clause =>
    rcases h.tag_of_clause with htag | htag
    · right
      rcases isLink_iff.1 htag with htag | htag | htag <;> rw [htag] <;> decide
    · exact .inl (by rw [htag]; rfl)
  | expression =>
    rcases h.tag_of_expression with htag | htag | htag | ⟨o, htag⟩
    · exact .inr (by rw [htag]; decide)
    · exact .inr (by rw [htag]; decide)
    · exact .inl (by rw [htag]; rfl)
    · right
      rw [htag]
      exact Int.le_trans (by decide) (operatorTier_bounds o).1
  | hybrid => exact .inr (by rw [h.tag_of_hybrid]; decide)

theorem Awaits.isClosable {r : Role} {frames : List Frame} (h : Awaits r frames) :
    ∀ f ∈ frames, IsClosable f.tag := by
  induction h with
  | outside => simp
  | inside hf _ ih => exact List.forall_mem_cons.2 ⟨hf.isClosable, ih⟩

theorem isClosable_append (h : ∀ f ∈ m.frames, IsClosable f.tag) :
    ∀ f ∈ (m.append t).frames, IsClosable f.tag := by
  obtain ⟨expects, frames, root⟩ := m
  cases frames with
  | nil => exact h
  | cons f frames =>
    rw [List.forall_mem_cons] at h
    exact List.forall_mem_cons.2 ⟨h.1, h.2⟩

theorem Machine.Ends.isClosable {r : Role} (h : m.Ends r 2) : ∀ f ∈ m.frames, IsClosable f.tag := by
  cases h with
  | received hm _ => exact isClosable_append hm.frames.isClosable
  | standing hm _ _ htier => exact List.forall_mem_cons.2 ⟨.inr htier, hm.frames.isClosable⟩

/-- Closing what is closed by all tags. -/
theorem closeFrames_of_forall {p : Tag → Bool} {new root : List Tree} {frames : List Frame}
    (hp : ∀ f ∈ frames, p f.tag = true) :
    Machine.closeFrames p new frames root = Machine.closeFrames (fun _ => true) new frames root := by
  induction frames generalizing new with
  | nil => rfl
  | cons f frames ih =>
    rw [List.forall_mem_cons] at hp
    rw [Machine.closeFrames, Machine.closeFrames, if_pos hp.1, if_pos rfl, ih hp.2]

/-- Wherever a source may end, `order` starts a clause. -/
theorem step_of_order (hend : m.expects.acceptsEnd = true) (hkind : token.kind = .keyword .order)
    (rest : List Token) : m.step token rest = m.clause token rest := by
  obtain ⟨kind, span⟩ := token
  obtain rfl : kind = .keyword .order := hkind
  obtain ⟨expects, frames, root⟩ := m
  cases expects with
  | afterRelation | afterOperand | afterLimit | afterOrderItem | orderSeparator | afterGroupItem
  | clauseEnd => rfl
  | _ => cases hend

/-- **At the end of a source, an order takes the tree of the source.** -/
theorem clause_order (hm : m.Built) (h : m.finish last = .ok (.node .query [t])) {by_ : Token}
    (htoken : token.kind = .keyword .order) (hby : by_.kind = .keyword .by_) (rest : List Token) :
    m.step token (by_ :: rest) = two ⟨.orderItem, [⟨.order, token.span, [t]⟩], []⟩ := by
  obtain ⟨hend, hparen, hclose⟩ := closes_of_finish h (by simp)
  obtain ⟨r, hends⟩ := hm.ends hend
  have hall : ∀ f ∈ m.frames, decide (tier .order ≤ tier f.tag) = true := by
    intro f hf
    have hnoparen := List.find?_eq_none.1 hparen f hf
    exact decide_eq_true ((hends.isClosable f hf).resolve_left hnoparen)
  have hinside : m.insideExpression = false := by
    rw [Machine.insideExpression, hparen]
    rfl
  have htier : m.closeTier (tier .order) token.span = .ok ⟨m.expects, [], [t]⟩ := by
    rw [Machine.closeTier, Machine.closeWhile?, closeFrames_of_forall hall, hclose]
    rfl
  have hclause : Machine.clauseOf? token (following token (by_ :: rest)) =
      .ok (.order, .orderItem, true) := by
    rw [Machine.clauseOf?, htoken]
    exact if_pos hby
  rw [step_of_order hend htoken, Machine.clause, if_neg (by simp [htoken]), hinside, if_neg (by simp),
    hclause]
  simp only [Machine.openOver, htier]
  rfl

/-! ## Its entries -/

/-- The words of one entry: a field with a direction or without one. -/
inductive Entry : List TokenKind → Tree → Prop where
  | field (name : String) : Entry [.name name] (.leaf .field name)
  | asc (name : String) : Entry [.name name, .keyword .asc] (.node .asc [.leaf .field name])
  | desc (name : String) : Entry [.name name, .keyword .desc] (.node .desc [.leaf .field name])

/-- The words of entries with commas between them. -/
inductive Entries : List TokenKind → List Tree → Prop where
  | last {kinds : List TokenKind} {t : Tree} (h : Entry kinds t) : Entries kinds [t]
  | cons {kinds more : List TokenKind} {t : Tree} {ts : List Tree} (h : Entry kinds t)
      (hmore : Entries more ts) : Entries (kinds ++ .symbol .comma :: more) (t :: ts)

theorem Entries.ne_nil {kinds : List TokenKind} {items : List Tree} (h : Entries kinds items) :
    items ≠ [] := by
  cases h <;> simp

variable {kinds : List TokenKind} {span : Span} {done : List Tree}

/-- The machine in an order, in front of an entry or behind one. -/
def ordering (expects : Expect) (span : Span) (done : List Tree) : Machine :=
  ⟨expects, [⟨.order, span, done⟩], []⟩

/-- The field of an entry. -/
theorem runTokens_field {name : String} (hkind : token.kind = .name name) (rest : List Token) :
    runTokens (ordering .orderItem span done) (token :: rest) =
      runTokens (ordering .afterOrderItem span (.leaf .field name :: done)) rest := by
  obtain ⟨kind, place⟩ := token
  obtain rfl : kind = _ := hkind
  exact runTokens_one rfl rfl

/-- The direction of an entry. -/
theorem runTokens_direction {tag : Tag} {keyword : Source.Keyword}
    (htag : keyword = .asc ∧ tag = .asc ∨ keyword = .desc ∧ tag = .desc)
    (hkind : token.kind = .keyword keyword) (rest : List Token) :
    runTokens (ordering .afterOrderItem span (t :: done)) (token :: rest) =
      runTokens (ordering .orderSeparator span (.node tag [t] :: done)) rest := by
  obtain ⟨kind, place⟩ := token
  obtain rfl : kind = _ := hkind
  rcases htag with ⟨rfl, rfl⟩ | ⟨rfl, rfl⟩ <;> exact runTokens_one rfl rfl

/-- A comma behind an entry. -/
theorem runTokens_separator {expects : Expect}
    (hexpects : expects = .afterOrderItem ∨ expects = .orderSeparator)
    (hkind : token.kind = .symbol .comma) (rest : List Token) :
    runTokens (ordering expects span done) (token :: rest) =
      runTokens (ordering .orderItem span done) rest := by
  obtain ⟨kind, place⟩ := token
  obtain rfl : kind = _ := hkind
  rcases hexpects with rfl | rfl <;> exact runTokens_one rfl rfl

/-- An entry is added to those in front of it. -/
theorem runTokens_entry (h : Entry kinds t) (hwords : words.map Token.kind = kinds) (rest : List Token) :
    ∃ expects, (expects = .afterOrderItem ∨ expects = .orderSeparator) ∧
      runTokens (ordering .orderItem span done) (words ++ rest) =
        runTokens (ordering expects span (t :: done)) rest := by
  cases h with
  | field name =>
    obtain ⟨word, rfl, hkind⟩ := List.map_eq_singleton_iff.1 hwords
    exact ⟨_, .inl rfl, runTokens_field hkind rest⟩
  | asc name =>
    obtain ⟨word, more, rfl, hkind, hmore⟩ := List.map_eq_cons_iff.1 hwords
    obtain ⟨second, rfl, hsecond⟩ := List.map_eq_singleton_iff.1 hmore
    refine ⟨_, .inr rfl, (runTokens_field hkind _).trans ?_⟩
    exact runTokens_direction (.inl ⟨rfl, rfl⟩) hsecond rest
  | desc name =>
    obtain ⟨word, more, rfl, hkind, hmore⟩ := List.map_eq_cons_iff.1 hwords
    obtain ⟨second, rfl, hsecond⟩ := List.map_eq_singleton_iff.1 hmore
    refine ⟨_, .inr rfl, (runTokens_field hkind _).trans ?_⟩
    exact runTokens_direction (.inr ⟨rfl, rfl⟩) hsecond rest

/-- **The entries of an order are its items, to the end of the source.** -/
theorem runTokens_entries {items : List Tree} (h : Entries kinds items)
    (hwords : words.map Token.kind = kinds) (hlast : last.kind = .finish) :
    runTokens (ordering .orderItem span done) (words ++ [last]) =
      .ok (.node .query [.node .order (done.reverse ++ items)]) := by
  induction h generalizing words done with
  | @last kinds t h =>
    obtain ⟨expects, hexpects, hrun⟩ := runTokens_entry h hwords [last]
    rw [hrun, runTokens, hlast]
    rcases hexpects with rfl | rfl <;>
      simp [ordering, Machine.finish, Expect.acceptsEnd, Machine.paren?, Tag.isParen, Machine.closeWhile?,
        Machine.closeFrames, Frame.isComplete, Frame.tree, orNear]
  | @cons kinds more t ts h _ ih =>
    obtain ⟨entry, rest, rfl, hentry, hrest⟩ := List.map_eq_append_iff.1 hwords
    obtain ⟨comma, rest, rfl, hcomma, hmore⟩ := List.map_eq_cons_iff.1 hrest
    obtain ⟨expects, hexpects, hrun⟩ := runTokens_entry h hentry (comma :: rest ++ [last])
    rw [List.append_assoc, hrun, List.cons_append, runTokens_separator hexpects hcomma, ih hmore,
      List.reverse_cons, List.append_assoc]
    rfl

/-! ## Texts -/

/-- The kinds of the words of a text. -/
def Says (text : List Char) (kinds : List TokenKind) : Prop :=
  ∃ words, Words 0 text words ∧ words.map Token.kind = kinds

variable {xs ys : List Char} {ks js : List TokenKind}

/-- A text behind another one says the same. -/
theorem words_append {words : List Token} (hx : Words 0 xs words) (hy : Says ys js)
    (hdelimited : Source.isDelimited ys = true) :
    ∃ behind, Words 0 (xs ++ ys) (words ++ behind) ∧ behind.map Token.kind = js := by
  obtain ⟨more, hmore, rfl⟩ := hy
  have hlater := hmore.shift (0 + Source.bytes xs)
  obtain ⟨last, hlast, htokens⟩ := hlater.tokens
  refine ⟨_, ⟨⟨last, hlast, ?_⟩, List.forall_mem_append.2 ⟨hx.valid, hlater.valid⟩⟩, ?_⟩
  · rw [Source.tokensFrom_append hx hdelimited, List.append_assoc, ← htokens, Nat.add_zero]
  · rw [List.map_map]
    rfl

theorem Says.append (hx : Says xs ks) (hy : Says ys js) (hdelimited : Source.isDelimited ys = true) :
    Says (xs ++ ys) (ks ++ js) := by
  obtain ⟨words, hwords, rfl⟩ := hx
  obtain ⟨behind, hbehind, rfl⟩ := words_append hwords hy hdelimited
  exact ⟨_, hbehind, List.map_append⟩

theorem Says.space (hy : Says ys js) : Says (' ' :: ys) js := by
  obtain ⟨words, hwords, rfl⟩ := hy
  have hlater := hwords.shift 1
  refine ⟨_, ⟨?_, hlater.valid⟩, List.map_map⟩
  rw [Source.tokensFrom_space]
  exact hlater.tokens

theorem says_word {c : Char} {s : List Char} {kind : TokenKind}
    (h : Source.read c s = ⟨kind, c :: s, []⟩) (hkind : kind.isLast = false) : Says (c :: s) [kind] :=
  ⟨_, Words.one h hkind, rfl⟩

/-- The text lists the entries of an order. -/
def ListsOrder (text : String) (items : List Tree) : Prop :=
  ∃ kinds, Says text.toList kinds ∧ Entries kinds items

/-- **A source with an order behind it is parsed into the order of what the source is parsed into**,
whatever the source ends with. -/
theorem parse_ordered {source order : String} {items : List Tree}
    (h : parse source = .ok (.node .query [t])) (horder : ListsOrder order items) :
    parse (source ++ " order by " ++ order) = .ok (.node .query [.node .order (t :: items)]) := by
  obtain ⟨words, hwords, hvalid, last, hlast, hrun⟩ := isSource_of_parse h
  obtain ⟨kinds, hsays, hentries⟩ := horder
  have hclause : Says (" order by ".toList ++ order.toList)
      ([.keyword .order] ++ ([.keyword .by_] ++ kinds)) :=
    ((says_word (c := 'o') (s := "rder".toList) rfl rfl).append
      ((says_word (c := 'b') (s := ['y']) rfl rfl).append hsays.space rfl).space rfl).space
  obtain ⟨behind, hwhole, hkinds⟩ := words_append hwords hclause rfl
  obtain ⟨word, rest, rfl, hword, hrest⟩ := List.map_eq_cons_iff.1 hkinds
  obtain ⟨by_, list, rfl, hby, hlist⟩ := List.map_eq_cons_iff.1 hrest
  have htext : (source ++ " order by " ++ order).toList =
      source.toList ++ (" order by ".toList ++ order.toList) := by
    rw [String.toList_append, String.toList_append, List.append_assoc]
  rw [← htext] at hwhole
  obtain ⟨last', hlast', hlex⟩ := Source.lex_of_words hwhole
  have hproper : ∀ word ∈ words, IsProper word.kind := by
    intro word hmem
    have hmem : word ∈ Source.lex (source ++ " order by " ++ order) := by
      rw [hlex]
      simp [hmem]
    exact isProper_of_mem_lex hmem
  obtain ⟨n, hn, hfinish, hrest⟩ :=
    runTokens_ahead hlast built_start hproper hvalid hword (by_ :: (list ++ [last'])) hrun
  have hstep := runTokens_two (by rw [hword]; rfl) (clause_order hn hfinish hword hby (list ++ [last']))
  have hitems : runTokens (ordering .orderItem word.span [t]) (list ++ [last']) = _ :=
    runTokens_entries hentries hlist hlast'
  rw [ordering] at hitems
  rw [parse, parseTokens, hlex, List.append_assoc, List.cons_append, List.cons_append, hrest, hstep, hitems]
  rfl

/-! ### Spelling -/

/-- An entry as it is usually written. -/
inductive WrittenEntry : String → Tree → Prop where
  | field {name : String} (h : IsName name) : WrittenEntry name (.leaf .field name)
  | asc {name : String} (h : IsName name) : WrittenEntry (name ++ " asc") (.node .asc [.leaf .field name])
  | desc {name : String} (h : IsName name) :
      WrittenEntry (name ++ " desc") (.node .desc [.leaf .field name])

/-- The entries of an order as they are usually written. -/
inductive WrittenOrder : String → List Tree → Prop where
  | last {text : String} {t : Tree} (h : WrittenEntry text t) : WrittenOrder text [t]
  | cons {text more : String} {t : Tree} {ts : List Tree} (h : WrittenEntry text t)
      (hmore : WrittenOrder more ts) : WrittenOrder (text ++ ", " ++ more) (t :: ts)

theorem says_name {name : String} (h : IsName name) : Says name.toList [.name name] := by
  obtain ⟨c, cs, htext, hread⟩ := h
  rw [htext]
  exact says_word hread rfl

theorem WrittenEntry.says {text : String} (h : WrittenEntry text t) :
    ∃ kinds, Says text.toList kinds ∧ Entry kinds t := by
  cases h with
  | field h => exact ⟨_, says_name h, .field _⟩
  | asc h =>
    rw [String.toList_append]
    exact ⟨_, (says_name h).append (says_word (c := 'a') (s := ['s', 'c']) rfl rfl).space rfl, .asc _⟩
  | desc h =>
    rw [String.toList_append]
    exact ⟨_, (says_name h).append (says_word (c := 'd') (s := ['e', 's', 'c']) rfl rfl).space rfl,
      .desc _⟩

/-- The usual spelling lists the entries. -/
theorem WrittenOrder.listsOrder {text : String} {items : List Tree} (h : WrittenOrder text items) :
    ListsOrder text items := by
  induction h with
  | last h =>
    obtain ⟨kinds, hsays, hentry⟩ := h.says
    exact ⟨kinds, hsays, .last hentry⟩
  | cons h _ ih =>
    obtain ⟨kinds, hsays, hentry⟩ := h.says
    obtain ⟨more, hmore, hentries⟩ := ih
    refine ⟨_, ?_, .cons hentry hentries⟩
    rw [String.toList_append, String.toList_append, List.append_assoc]
    exact hsays.append ((says_word (c := ',') (s := []) rfl rfl).append hmore.space rfl) rfl

end RelationSql.Grammar
