import RelationSql.Proofs.Grammar.Held

/-!
# What stands in parentheses

What is read inside of a parenthesis stays above it until the parenthesis is closed. So the tokens up to the
closing parenthesis are read in the same way wherever the parenthesis stands (`run_sealed`), and their own
parentheses are in pairs (`matched`).
-/

namespace RelationSql.Grammar

open RelationSql.Source (Span Token TokenKind)

variable {token closing : Token} {rest inner more : List Token} {above left closed base : List Frame}
  {root : List Tree} {t u : Tree} {p : Tag → Bool} {used : Bool} {from_ dest : Above} {f : Frame}

/-! ## Depth -/

/-- Are the parentheses in pairs, if so many are open in front of the tokens? -/
def matched : (depth : Nat) → List Token → Bool
  | depth, [] => depth == 0
  | depth, token :: rest =>
    match token.kind with
    | .symbol .leftParen => matched (depth + 1) rest
    | .symbol .rightParen => depth != 0 && matched (depth - 1) rest
    | _ => matched depth rest

/-- Is the token a parenthesis? -/
def isParenthesis (kind : TokenKind) : Bool :=
  kind == .symbol .leftParen || kind == .symbol .rightParen

theorem matched_opening (h : token.kind = .symbol .leftParen) (d : Nat) (rest : List Token) :
    matched d (token :: rest) = matched (d + 1) rest := by
  rw [matched]
  simp only [h]

theorem matched_closing (h : token.kind = .symbol .rightParen) (d : Nat) (rest : List Token) :
    matched d (token :: rest) = (d != 0 && matched (d - 1) rest) := by
  rw [matched]
  simp only [h]

theorem matched_plain (h : isParenthesis token.kind = false) (d : Nat) (rest : List Token) :
    matched d (token :: rest) = matched d rest := by
  simp only [isParenthesis, Bool.or_eq_false_iff, beq_eq_false_iff_ne] at h
  rw [matched]
  split
  · next hkind => exact absurd hkind h.1
  · next hkind => exact absurd hkind h.2
  · rfl

/-- Nothing goes on behind the parenthesis that closes one from in front. -/
theorem not_matched_append {d : Nat} (h : matched d inner = true) (hclosing : closing.kind = .symbol .rightParen)
    (more : List Token) : matched d (inner ++ closing :: more) = false := by
  induction inner generalizing d with
  | nil =>
    -- no parenthesis is open that the closing one could close
    obtain rfl : d = 0 := by simpa [matched] using h
    rw [List.nil_append, matched_closing hclosing]
    rfl
  | cons token inner ih =>
    rw [List.cons_append]
    cases hparen : isParenthesis token.kind with
    | false =>
      rw [matched_plain hparen] at h ⊢
      exact ih h
    | true =>
      simp only [isParenthesis, Bool.or_eq_true, beq_iff_eq] at hparen
      rcases hparen with hopening | hright
      · rw [matched_opening hopening] at h ⊢
        exact ih h
      · rw [matched_closing hright] at h ⊢
        rw [Bool.and_eq_true] at h
        rw [h.1, Bool.true_and]
        exact ih h.2

/-- The first closing parenthesis that closes one from in front is at one place only. -/
theorem eq_of_matched {inner' more' : List Token} {closing' : Token} (h : matched 0 inner = true)
    (h' : matched 0 inner' = true) (hclosing : closing.kind = .symbol .rightParen)
    (hclosing' : closing'.kind = .symbol .rightParen)
    (heq : inner ++ closing :: more = inner' ++ closing' :: more') : inner = inner' := by
  rcases List.append_eq_append_iff.1 heq with ⟨between, rfl, hmore⟩ | ⟨between, rfl, hmore⟩
  · cases between with
    | nil => exact (List.append_nil _).symm
    | cons first between =>
      obtain ⟨rfl, -⟩ := List.cons.inj hmore
      rw [not_matched_append h hclosing] at h'
      cases h'
  · cases between with
    | nil => exact List.append_nil _
    | cons first between =>
      obtain ⟨rfl, -⟩ := List.cons.inj hmore
      rw [not_matched_append h' hclosing'] at h
      cases h

/-- No parenthesis is closed by what spares them. -/
theorem depth_of_spares (hp : p .par = false) (h : closeAbove p t above = some (left, u)) :
    depth left = depth above := by
  obtain ⟨hdepth, -, -⟩ := closeAbove_spec h fun tag htag heq => by
    rw [heq, hp] at htag
    cases htag
  exact hdepth

/-- The `and` of a `between` is in the parenthesis of its `between`. -/
theorem depth_of_waits (hwaits : Machine.waitsForAnd true above = true)
    (h : closeAbove (fun tag => tag != .op .between) t above = some (left, u)) :
    depth left = depth above := by
  obtain ⟨f, below, rfl⟩ := List.exists_cons_of_ne_nil (closeAbove_of_waits hwaits h)
  obtain ⟨closed, rfl, hclosed, -⟩ := closeAbove_eq_some h
  have htier := lt_tier_of_waitsForAnd (fun f hf => by simpa using hclosed f hf) hwaits
  exact (depth_append (fun f hf => ne_par_of_lt_tier (htier f hf) (by decide)) _).symm

theorem isParenthesis_of_operatorOf? {kind : TokenKind} {o : Operator} (h : operatorOf? kind = some o) :
    isParenthesis kind = false := by
  cases kind with
  | symbol symbol => cases symbol <;> first | rfl | cases h
  | _ => rfl

/-- **The depth follows the parentheses.** -/
theorem Goes.depth (h : Goes token rest from_ dest used) :
    (token.kind = .symbol .leftParen ∧ Grammar.depth dest.frames = Grammar.depth from_.frames + 1) ∨
    (token.kind = .symbol .rightParen ∧ Grammar.depth from_.frames = Grammar.depth dest.frames + 1) ∨
    (isParenthesis token.kind = false ∧ Grammar.depth dest.frames = Grammar.depth from_.frames) := by
  -- whatever else closes nodes spares those of parentheses
  cases h with
  | @leaf above t h =>
    refine .inr (.inr ⟨?_, rfl⟩)
    cases hkind : token.kind with
    | symbol symbol => rw [hkind] at h; cases h
    | _ => rfl
  | signed hminus h => exact .inr (.inr ⟨by rw [hminus]; rfl, rfl⟩)
  | opening h => exact .inl ⟨h, depth_cons_par rfl _⟩
  | before h hunsigned =>
    refine .inr (.inr ⟨?_, depth_cons_op (by simp) _⟩)
    cases hkind : token.kind with
    | symbol symbol => rw [hkind] at h; cases symbol <;> first | rfl | cases h
    | _ => rfl
  | between h hlist hand hclose =>
    refine .inr (.inr ⟨isParenthesis_of_operatorOf? h, ?_⟩)
    exact (depth_cons_op (by simp) _).trans (depth_of_spares (closedBy_par _) hclose)
  | negated hnot hrest h hlist hclose =>
    refine .inr (.inr ⟨by rw [hnot]; rfl, ?_⟩)
    rw [Above.frames, depth_cons_op (by simp), depth_cons_op (by simp)]
    exact depth_of_spares (closedBy_par _) hclose
  | upTo h hwaits hclose =>
    refine .inr (.inr ⟨by rw [h]; rfl, ?_⟩)
    exact (depth_received _ _).trans (depth_of_waits hwaits hclose)
  | method hdot h hclose => exact .inr (.inr ⟨by rw [hdot]; rfl, depth_of_spares rfl hclose⟩)
  | interval h hunit hnumber hclose => exact .inr (.inr ⟨by rw [h]; rfl, depth_of_spares rfl hclose⟩)
  | comma h hinside hclose =>
    refine .inr (.inr ⟨by rw [h]; rfl, ?_⟩)
    exact (depth_received _ _).trans (depth_of_spares rfl hclose)
  | closing h hpar hclose =>
    refine .inr (.inl ⟨h, ?_⟩)
    exact (depth_of_spares rfl hclose).symm.trans (depth_cons_par hpar _)

/-- A token that is used up with the one in front is no parenthesis. -/
theorem Goes.second (h : Goes token rest from_ dest used) (hused : used = true) :
    ∃ next more, rest = next :: more ∧ isParenthesis next.kind = false := by
  cases h with
  | signed hminus h =>
    cases rest with
    | nil =>
      rw [following, signedLiteral?, hminus] at h
      simp at h
    | cons next more =>
      refine ⟨next, more, rfl, ?_⟩
      rw [following, signedLiteral?] at h
      cases hkind : next.kind with
      | symbol symbol => simp [hkind] at h
      | _ => rfl
  | negated hnot hrest h hlist hclose =>
    subst hrest
    exact ⟨_, _, rfl, isParenthesis_of_operatorOf? (operatorOf?_of_negatable? h).1⟩
  | method hdot h hclose =>
    cases rest with
    | nil =>
      rw [following, hdot] at h
      cases h
    | cons next more =>
      rw [following] at h
      exact ⟨next, more, rfl, by rw [h]; rfl⟩
  | _ => cases hused

/-! ## Behind a closing parenthesis -/

theorem following_behind (token closing : Token) (inner more more' : List Token) :
    following token (inner ++ closing :: more') = following token (inner ++ closing :: more) := by
  cases inner <;> rfl

theorem opensList_behind (hclosing : closing.kind = .symbol .rightParen)
    (h : opensList (inner ++ closing :: more)) (more' : List Token) :
    opensList (inner ++ closing :: more') := by
  cases inner with
  | nil =>
    change closing.kind = _ at h
    rw [hclosing] at h
    cases h
  | cons next inner => exact h

/-- **A step looks no further than to the next closing parenthesis.** -/
theorem Goes.behind (h : Goes token (inner ++ closing :: more) from_ dest used)
    (hclosing : closing.kind = .symbol .rightParen) (more' : List Token) :
    Goes token (inner ++ closing :: more') from_ dest used := by
  have hfollowing := following_behind token closing inner more more'
  cases h with
  | leaf h => exact .leaf h
  | signed hminus h => exact .signed hminus (hfollowing ▸ h)
  | opening h => exact .opening h
  | before h hunsigned => exact .before h fun hminus => hfollowing ▸ hunsigned hminus
  | between h hlist hand hclose =>
    exact .between h (fun hin => opensList_behind hclosing (hlist hin) more') hand hclose
  | @negated above left t u o hnot next more₁ hrest h hlist hclose =>
    cases inner with
    | nil =>
      cases hrest
      rw [hclosing] at h
      cases h
    | cons first inner =>
      cases hrest
      exact .negated hnot rfl h (fun hin => opensList_behind hclosing (hlist hin) more') hclose
  | upTo h hwaits hclose => exact .upTo h hwaits hclose
  | method hdot h hclose => exact .method hdot (hfollowing ▸ h) hclose
  | interval h hunit hnumber hclose => exact .interval h hunit hnumber hclose
  | comma h hinside hclose => exact .comma h hinside hclose
  | closing h hpar hclose => exact .closing h hpar hclose

/-! ## Sealed states -/

theorem EndsInPar.cons (h : EndsInPar above) (f : Frame) : EndsInPar (f :: above) := by
  rw [EndsInPar, List.map_cons, List.getLast?_cons, h]
  rfl

theorem EndsInPar.tail (h : EndsInPar (f :: above)) (hne : above ≠ []) : EndsInPar above := by
  obtain ⟨g, below, rfl⟩ := List.exists_cons_of_ne_nil hne
  exact h

/-- Closing leaves the outermost node open. -/
theorem EndsInPar.of_closeAbove (h : EndsInPar above) (hclose : closeAbove p t above = some (left, u))
    (hleft : left ≠ []) : EndsInPar left := by
  obtain ⟨closed, rfl, -, -⟩ := closeAbove_eq_some hclose
  rw [EndsInPar, List.map_append, List.getLast?_append_of_ne_nil _ (by simpa using hleft)] at h
  exact h

theorem EndsInPar.received (h : EndsInPar above) (t : Tree) : EndsInPar (received t above) := by
  cases above with
  | nil => exact h
  | cons f above => exact h

theorem EndsInPar.exists_par (h : EndsInPar above) : ∃ f ∈ above, f.tag = .par := by
  obtain ⟨f, hf, htag⟩ := List.mem_map.1 (List.mem_of_getLast? h)
  exact ⟨f, hf, htag⟩

theorem EndsInPar.depth_ne_zero (h : EndsInPar above) : depth above ≠ 0 := by
  intro hdepth
  obtain ⟨f, hf, htag⟩ := h.exists_par
  have hnone := List.countP_eq_zero.1 hdepth f hf
  simp [htag] at hnone

/-- The nodes of an expression in an open parenthesis. -/
structure Sealed (above : List Frame) : Prop where
  inExpression : ∀ f ∈ above, f.InExpression
  outermost : EndsInPar above

theorem Sealed.held (h : Sealed above) : Held above := by
  obtain ⟨f, hf, htag⟩ := h.outermost.exists_par
  exact ⟨h.inExpression, f, hf, .inl htag⟩

theorem ne_nil_of_depth (h : depth above ≠ 0) : above ≠ [] := by
  rintro rfl
  exact h rfl

/-- **What is sealed stays sealed until the outermost parenthesis is closed.** -/
theorem Goes.sealed (h : Goes token rest from_ dest used) (hs : Sealed from_.frames)
    (hopen : Grammar.depth dest.frames ≠ 0) : Sealed dest.frames := by
  refine ⟨h.inExpression hs.inExpression, ?_⟩
  have hend := hs.outermost
  have hheld := hs.held
  cases h with
  | leaf h => exact hend
  | signed hminus h => exact hend
  | opening h => exact hend.cons _
  | before h hunsigned => exact hend.cons _
  | between h hlist hand hclose =>
    exact (hend.of_closeAbove hclose (hheld.stays (closedBy_par _) hclose)).cons _
  | negated hnot hrest h hlist hclose =>
    exact ((hend.of_closeAbove hclose (hheld.stays (closedBy_par _) hclose)).cons _).cons _
  | upTo h hwaits hclose =>
    exact (hend.of_closeAbove hclose (closeAbove_of_waits hwaits hclose)).received _
  | method hdot h hclose => exact hend.of_closeAbove hclose (hheld.stays rfl hclose)
  | interval h hunit hnumber hclose => exact hend.of_closeAbove hclose (hheld.stays rfl hclose)
  | comma h hinside hclose =>
    exact (hend.of_closeAbove hclose (closeAbove_of_inside hinside hclose)).received _
  | closing h hpar hclose =>
    exact (hend.of_closeAbove hclose (by simp)).tail (ne_nil_of_depth hopen)

/-- The step that closes the outermost parenthesis leaves its tree on the base. -/
theorem Goes.closes (h : Goes token rest from_ dest used) (hs : Sealed from_.frames)
    (hclosed : Grammar.depth dest.frames = 0) :
    token.kind = .symbol .rightParen ∧ used = false ∧ ∃ t, dest = .after t [] ∧
      ∀ rest', Goes token rest' from_ dest used := by
  have hdepth := h.depth
  have hne := hs.outermost.depth_ne_zero
  -- the outermost parenthesis was open, so only a closing one can have left none
  rcases hdepth with ⟨-, hdepth⟩ | ⟨hkind, hdepth⟩ | ⟨-, hdepth⟩
  · omega
  · cases h with
    | @closing above left t u f h hpar hclose =>
      refine ⟨hkind, rfl, .node .par (u :: f.done).reverse, ?_, fun rest' => .closing h hpar hclose⟩
      have hend := hs.outermost.of_closeAbove hclose (List.cons_ne_nil f left)
      cases left with
      | nil => rfl
      | cons g below => exact absurd hclosed (hend.tail (by simp)).depth_ne_zero
    | leaf h | opening h | before h | between h | upTo h | interval h | comma h =>
      rw [hkind] at h
      cases h
    | signed hother | negated hother | method hother =>
      rw [hkind] at hother
      cases hother
  · omega

/-! ## Runs -/

/-- The tokens up to the one that closes the outermost parenthesis, which is left on the base as a tree.
It is the same tree over every base. -/
structure ReadsTo (from_ : Above) (inner : List Token) (closing : Token) (t : Tree) : Prop where
  kind : closing.kind = .symbol .rightParen
  inside : matched (depth from_.frames - 1) inner = true
  run : ∀ base root more, base ≠ [] →
    runTokens (from_.upon base root) (inner ++ closing :: more) =
      runTokens ((Above.after t []).upon base root) more

/-- The tokens that one step uses are in pairs if the others are. -/
theorem Goes.matched_tail (h : Goes token (inner ++ more) from_ dest used) (hs : Sealed from_.frames)
    (hopen : Grammar.depth dest.frames ≠ 0) (hinner : used = true → inner ≠ []) :
    matched (Grammar.depth from_.frames - 1) (token :: inner) =
      matched (Grammar.depth dest.frames - 1) (if used then inner.tail else inner) := by
  have hne := hs.outermost.depth_ne_zero
  have hfirst : matched (Grammar.depth from_.frames - 1) (token :: inner) =
      matched (Grammar.depth dest.frames - 1) inner := by
    rcases h.depth with ⟨hkind, hdepth⟩ | ⟨hkind, hdepth⟩ | ⟨hkind, hdepth⟩
    · rw [matched_opening hkind, hdepth]
      congr 1
      omega
    · rw [matched_closing hkind, hdepth]
      have hpositive : (Grammar.depth dest.frames + 1 - 1 != 0) = true := by
        simpa using hopen
      rw [hpositive, Bool.true_and]
      rfl
    · rw [matched_plain hkind, hdepth]
  rw [hfirst]
  cases used with
  | false => rfl
  | true =>
    obtain ⟨next, inner, rfl⟩ := List.exists_cons_of_ne_nil (hinner rfl)
    obtain ⟨second, others, heq, hsecond⟩ := h.second rfl
    cases heq
    exact matched_plain hsecond _ _

/-- A step in front of tokens that lead to the closing parenthesis. -/
theorem ReadsTo.cons (h : ReadsTo dest (if used then inner.tail else inner) closing t)
    (hgoes : Goes token (inner ++ closing :: more) from_ dest used) (hs : Sealed from_.frames)
    (hopen : Grammar.depth dest.frames ≠ 0) (htoken : token.kind.isLast = false)
    (hinner : used = true → inner ≠ []) : ReadsTo from_ (token :: inner) closing t where
  kind := h.kind
  inside := (hgoes.matched_tail hs hopen hinner).trans h.inside
  run := by
    intro base root more' hbase
    have hstep := (hgoes.behind h.kind more').step hs.held hbase root
    rw [List.cons_append, runTokens_of_step htoken hstep, unused_append hinner]
    exact h.run base root more' hbase

/-- **What stands in a parenthesis is read up to its end in the same way over every base**, if it is read
over one. -/
theorem run_sealed (tokens : List Token) {tree : Tree} (hs : Sealed from_.frames) (hbase : base ≠ [])
    (h : runTokens (from_.upon base root) tokens = .ok tree) :
    ∃ inner closing more t, tokens = inner ++ closing :: more ∧ ReadsTo from_ inner closing t := by
  -- a step may use up two tokens, so the induction is on their number
  induction hlength : tokens.length using Nat.strongRecOn generalizing tokens from_ with
  | ind length ih =>
    subst hlength
    cases tokens with
    | nil => cases h
    | cons token rest =>
      cases htoken : token.kind.isLast with
      | true => exact absurd h (hs.held.runTokens_ne_ok htoken rest tree)
      | false =>
        obtain ⟨m, used, hstep, hrun⟩ := step_of_runTokens htoken h
        obtain ⟨dest, hgoes, rfl⟩ := goes_of_step hs.held (.inl hbase) hstep
        by_cases hclosed : depth dest.frames = 0
        · -- this token closes the outermost parenthesis
          obtain ⟨hkind, rfl, t, rfl, hgoes'⟩ := hgoes.closes hs hclosed
          refine ⟨[], token, rest, t, rfl, hkind, ?_, fun base' root' more' hbase' => ?_⟩
          · rcases hgoes.depth with ⟨hother, -⟩ | ⟨-, hdepth⟩ | ⟨hother, -⟩
            · rw [hkind] at hother
              cases hother
            · rw [hdepth, hclosed]
              rfl
            · rw [hkind] at hother
              cases hother
          · exact runTokens_of_step htoken ((hgoes' more').step hs.held hbase' root')
        · have hshorter : (if used then rest.tail else rest).length < (token :: rest).length :=
            length_unused_lt used token rest
          obtain ⟨inner, closing, more, t, hrest, hreads⟩ :=
            ih _ hshorter _ (hgoes.sealed hs hclosed) hrun rfl
          cases used with
          | false =>
            subst hrest
            exact ⟨token :: inner, closing, more, t, rfl,
              hreads.cons hgoes hs hclosed htoken fun hused => nomatch hused⟩
          | true =>
            obtain ⟨next, others, rfl, -⟩ := hgoes.second rfl
            obtain rfl : others = _ := hrest
            have hbehind : ReadsTo dest (if true then (next :: inner).tail else next :: inner) closing t :=
              hreads
            exact ⟨token :: next :: inner, closing, more, t, rfl,
              hbehind.cons hgoes hs hclosed htoken fun _ => by simp⟩

end RelationSql.Grammar
