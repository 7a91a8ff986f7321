import Mathlib.Data.List.Forall2
import RelationSql.Proofs.Grammar.Moves

/-!
# Fragments joined by `and`

A fragment without a loose operator outside of parentheses adds its conjuncts to those in front of it
(`run_tight`); a loose operator anywhere leaves the whole condition under a loose operator
(`run_loose`). So fragments that are joined by `and` are read as the conjunction of their readings
exactly if none of them has a loose operator outside of parentheses, or there is only one
(`conjoins_iff`).
-/

namespace RelationSql.Grammar

open RelationSql.Source (Span Token TokenKind)

variable {above left : List Frame} {token : Token} {rest more : List Token} {g : Ground}
  {m : Machine} {used : Bool} {t u tree : Tree} {o : Operator} {p : Tag → Bool}

/-! ## Runs -/

theorem isLast_of_isWord {kind : TokenKind} (h : isWord kind = true) : kind.isLast = false := by
  cases kind with
  | invalid reason => cases h
  | finish => cases h
  | _ => rfl

/-- A step that succeeds is the first of the run. -/
theorem runTokens_of_step {m m' : Machine} (hk : token.kind.isLast = false)
    (h : m.step token rest = .ok (m', used)) :
    runTokens m (token :: rest) = runTokens m' (if used then rest.tail else rest) := by
  cases used with
  | false => exact runTokens_one hk h
  | true =>
    cases rest with
    | cons next rest => exact runTokens_two hk h
    | nil =>
      conv => lhs; unfold runTokens
      split
      · next heq => simp [heq, TokenKind.isLast] at hk
      · next heq => simp [heq, TokenKind.isLast] at hk
      · rw [h]
        rfl

/-- The words that a move leaves in front of what follows. -/
theorem unused_append (hnext : used = true → rest ≠ []) (more : List Token) :
    (if used then (rest ++ more).tail else rest ++ more) =
      (if used then rest.tail else rest) ++ more := by
  cases used with
  | false => rfl
  | true =>
    obtain ⟨next, tail, rfl⟩ := List.exists_cons_of_ne_nil (hnext rfl)
    rfl

/-- A move is the first step of every run over its words. -/
theorem Move.run {from_ dest : Above} (h : Move from_ token rest dest used)
    (hword : isWord token.kind = true) (hlow : g.IsLow) (hmore : Neutral more) :
    runTokens (from_.onto g) (token :: rest ++ more) =
      runTokens (dest.onto g) ((if used then rest.tail else rest) ++ more) := by
  rw [List.cons_append, runTokens_of_step (isLast_of_isWord hword) (h.step g more hlow hmore),
    unused_append h.next]

/-- The words after the first are words, used or not. -/
theorem isWord_of_unused (h : ∀ w ∈ rest, isWord w.kind = true) :
    ∀ w ∈ (if used then rest.tail else rest), isWord w.kind = true := by
  cases used with
  | false => exact h
  | true => exact fun w hw => h w (List.mem_of_mem_tail hw)

theorem length_unused_lt (used : Bool) (token : Token) (rest : List Token) :
    (if used then rest.tail else rest).length < (token :: rest).length := by
  apply Nat.lt_succ_of_le
  cases used with
  | false => exact Nat.le_refl _
  | true => simp

/-- An operator that closes all that stands on the ground, on every ground. -/
structure Reaches (o : Operator) (token : Token) (rest : List Token) (t u : Tree)
    (above : List Frame) : Prop where
  operator : operatorOf? token.kind = some o
  tier_le : operatorTier o ≤ 27
  close : closeAbove (closedBy o) t above = some ([], u)
  step : ∀ g more, g.IsLow → Neutral more → ((Above.after t above).onto g).step token (rest ++ more) =
    ((Above.after t above).onto g).openOver (.op o) .operand token.span >>= one

/-- **The first word of a fragment is a move, or an operator that reaches the ground.** -/
theorem run_cases {from_ : Above} {last : Token} (hlow : g.IsLow)
    (hwords : ∀ w ∈ token :: rest, isWord w.kind = true)
    (hinside : ∀ f ∈ from_.frames, f.tag ≠ .clausePar) (hlast : last.kind = .finish)
    (hrun : runTokens (from_.onto g) (token :: rest ++ [last]) = .ok tree) :
    (∃ dest used, Move from_ token rest dest used ∧
      runTokens (dest.onto g) ((if used then rest.tail else rest) ++ [last]) = .ok tree) ∨
    ∃ t above o u, from_ = .after t above ∧ Reaches o token rest t u above ∧
      ∃ m, ((Above.after t above).onto g).openOver (.op o) .operand token.span = .ok m ∧
        runTokens m (rest ++ [last]) = .ok tree := by
  rw [List.forall_mem_cons] at hwords
  obtain ⟨hword, hrest⟩ := hwords
  have hneutral : Neutral [last] := .end_ hlast
  rw [List.cons_append] at hrun
  obtain ⟨m, used, hstep, hrun'⟩ := step_of_runTokens (isLast_of_isWord hword) hrun
  have hmoved : ∀ dest, m = dest.onto g → Move from_ token rest dest used →
      ∃ dest used, Move from_ token rest dest used ∧
        runTokens (dest.onto g) ((if used then rest.tail else rest) ++ [last]) = .ok tree := by
    rintro dest rfl hmove
    rw [unused_append hmove.next] at hrun'
    exact ⟨dest, used, hmove, hrun'⟩
  cases from_ with
  | operand above =>
    obtain ⟨dest, hto, hmove⟩ := move_of_operand hword hrest hneutral hstep
    exact Or.inl (hmoved dest hto hmove)
  | after t above =>
    have habove : ∀ f ∈ above, f.tag ≠ .clausePar := hinside
    rcases move_of_after hword hlow hneutral habove hstep with
      ⟨dest, hto, hmove⟩ | ⟨o, u, ho, hclose, hle, rfl, hall⟩
    · exact Or.inl (hmoved dest hto hmove)
    · rw [hall g [last] hlow hneutral] at hstep
      obtain ⟨m', hopen, hone⟩ := bind_eq_ok hstep
      cases hone
      exact Or.inr ⟨t, above, o, u, rfl, ⟨ho, hle, hclose, hall⟩, _, hopen, hrun'⟩

/-! ## The end of a fragment -/

/-- What can be closed waits for no `and`. -/
theorem waitsForAnd_of_closeAbove (h : closeAbove p t above = some ([], u)) :
    Machine.waitsForAnd true above = false := by
  induction above generalizing t with
  | nil => rfl
  | cons f above ih =>
    unfold closeAbove at h
    split at h
    · split at h
      · next hcomplete =>
        rw [Machine.waitsForAnd]
        split
        · next htag =>
          simp only [Frame.isComplete, htag, bne_self_eq_false, Bool.false_or, List.length_cons,
            beq_iff_eq] at hcomplete
          simp [show f.done.length = 2 by omega]
        · split
          · rfl
          · exact ih h
      · cases h
    · cases h

/-- Closing depends on what it does with the tags of the open nodes only. -/
theorem closeAbove_congr {q : Tag → Bool} (h : ∀ f ∈ above, p f.tag = q f.tag) :
    closeAbove p t above = closeAbove q t above := by
  induction above generalizing t with
  | nil => rfl
  | cons f above ih =>
    rw [List.forall_mem_cons] at h
    rw [closeAbove, closeAbove, h.1, ih h.2]

/-- At the end of the source all nodes are closed, and none of them is a parenthesis. -/
theorem runTokens_finish_over (hlow : g.IsLow) (htoken : token.kind = .finish) :
    runTokens ((Above.after t above).onto g) [token] = .ok tree ↔
      (above.find? fun f => f.tag.isParen) = none ∧
        ∃ u, closeAbove (fun _ => true) t above = some ([], u) ∧
          tree = filtered "a" (g.holding u) := by
  have hrun : runTokens ((Above.after t above).onto g) [token] =
      ((Above.after t above).onto g).finish token := by
    rw [runTokens]
    simp only [htoken]
  have hparen := paren?_over t above g
  have hexpects : ((Above.after t above).onto g).expects.acceptsEnd = true := rfl
  rw [hrun, Machine.finish, hexpects, Bool.true_or, if_pos rfl]
  cases hfind : above.find? fun f => f.tag.isParen with
  | some f =>
    rw [hfind, Option.map_some, Option.map_eq_some_iff] at hparen
    obtain ⟨frame, hframe, -⟩ := hparen
    simp [hframe]
  | none =>
    rw [hfind, Option.map_none, Option.map_eq_none_iff] at hparen
    have hwhile : ((Above.after t above).onto g).closeWhile? (fun _ => true) = _ :=
      closeWhile?_after g
    rw [hparen, hwhile]
    cases hclose : closeAbove (fun _ => true) t above with
    | none => simp [orNear, bind, Except.bind]
    | some result =>
      obtain ⟨left, u⟩ := result
      obtain ⟨-, -, -, hstop⟩ := closeAbove_eq_some hclose
      have hleft : left = [] := by
        cases left with
        | nil => rfl
        | cons f left => cases hstop f left rfl
      subst hleft
      have hground := closeFrames_ground (p := fun _ => true) (u := u) hlow rfl rfl
      simp only [Option.bind_some, List.nil_append, hground]
      constructor
      · intro h
        cases h
        exact ⟨trivial, u, rfl, rfl⟩
      · rintro ⟨-, v, hv, rfl⟩
        cases hv
        rfl

/-- Without an open parenthesis, nothing is nested. -/
theorem depth_of_find?_eq_none (h : (above.find? fun f => f.tag.isParen) = none) :
    depth above = 0 := by
  rw [depth, List.countP_eq_zero]
  intro f hf
  have hparen := List.find?_eq_none.1 h f hf
  simp only [Tag.isParen, Bool.or_eq_true, not_or] at hparen
  exact hparen.1

/-- Firm nodes under no parenthesis are closed by `and`. -/
theorem closedBy_of_firm (hfirm : Firm above) (hdepth : depth above = 0) :
    ∀ f ∈ above, closedBy .and f.tag = true := by
  induction above with
  | nil => simp
  | cons f above ih =>
    have hpar : f.tag ≠ .par := by
      intro hpar
      rw [depth_cons_par hpar] at hdepth
      cases hdepth
    rw [depth_cons_op hpar] at hdepth
    refine List.forall_mem_cons.2 ⟨?_, ih hfirm.2 hdepth⟩
    exact decide_eq_true (Int.le_of_lt ((hfirm.1 hdepth).resolve_left hpar))

/-- An operator that binds no tighter than `and` closes a conjunction. -/
theorem closedBy_of_isConjunction (hg : g.IsConjunction) (ho : operatorTier o ≤ 27) :
    g.tag = .filter ∨ closedBy o g.tag = true := by
  refine hg.imp_right fun hand => ?_
  rw [hand]
  exact decide_eq_true ho

/-- **The `and` behind a fragment takes all that stands on the ground.** -/
theorem runTokens_and_over (hg : g.IsConjunction) (hfirm : Firm above) (hdepth : depth above = 0)
    (hclose : closeAbove (fun _ => true) t above = some ([], u)) (htoken : token.kind = .keyword .and)
    (rest : List Token) :
    runTokens ((Above.after t above).onto g) (token :: rest) =
      runTokens ((Above.operand []).onto (.op .and token.span (g.holding u))) rest := by
  have hclose' : closeAbove (closedBy .and) t above = some ([], u) := by
    rw [← hclose]
    exact closeAbove_congr (closedBy_of_firm hfirm hdepth)
  have hpending : ((Above.after t above).onto g).pendingBetween = false :=
    (pendingBetween_over hg.isLow).trans (waitsForAnd_of_closeAbove hclose)
  have hground := closedBy_of_isConjunction (o := .and) hg (by decide)
  have hoperator : operatorOf? token.kind = some .and := by
    rw [htoken]
    rfl
  apply runTokens_one (isLast_of_operatorOf? hoperator)
  rw [step_operator rfl hoperator (fun heq => nomatch heq) (fun _ => hpending),
    openOver_over_ground hclose' hg.isLow hground]
  rfl

/-! ## Conjuncts -/

/-- The conditions that a tree joins by `and`. -/
def conjuncts : Tree → List Tree
  | .node (.op .and) [l, r] => conjuncts l ++ conjuncts r
  | t => [t]

@[simp] theorem conjuncts_and (l r : Tree) :
    conjuncts (.node (.op .and) [l, r]) = conjuncts l ++ conjuncts r := by
  rw [conjuncts]

theorem conjuncts_ne_nil (t : Tree) : conjuncts t ≠ [] := by
  fun_induction conjuncts t with
  | case1 l r ihl _ => simp [ihl]
  | case2 t _ => simp

theorem conjuncts_of_isLooseTree {t : Tree} (h : isLooseTree t = true) : conjuncts t = [t] := by
  unfold conjuncts
  split
  · cases h
  · rfl

/-- The ground `h` is the ground `g` with more conjuncts in front. -/
structure Leads (front : List Tree) (h g : Ground) : Prop where
  conjunction : h.IsConjunction
  holds : ∀ t, conjuncts (h.holding t) = front ++ conjuncts (g.holding t)

/-- An `and` after a fragment adds to the conjuncts in front. -/
theorem Leads.and {front : List Tree} {h g : Ground} (hlead : Leads front h g) (s s' : Span)
    (t : Tree) : Leads front (.op .and s (h.holding t)) (.op .and s' (g.holding t)) where
  conjunction := Or.inr rfl
  holds := by
    intro u
    show conjuncts (.node (.op .and) [h.holding t, u]) =
      front ++ conjuncts (.node (.op .and) [g.holding t, u])
    rw [conjuncts_and, conjuncts_and, hlead.holds, List.append_assoc]

theorem Leads.refl (hg : g.IsConjunction) : Leads [] g g := ⟨hg, fun _ => rfl⟩

/-- A first conjunct in front of a fragment. -/
theorem Leads.first (s : Span) (t : Tree) : Leads (conjuncts t) (.op .and s t) .bare where
  conjunction := Or.inr rfl
  holds := fun u => conjuncts_and t u

/-- An operator at the tier of `and` or below that is not loose is `and`. -/
theorem eq_and_of_tier (hle : operatorTier o ≤ 27) (hloose : isLoose o = false) : o = .and := by
  revert hle hloose
  cases o <;> decide

/-! ## A fragment without loose operators -/

/-- How the words of a fragment are read over every ground: as `tree`, added to the conjuncts in
front, up to the next `and` or up to the end. -/
structure ReadsAs (tree : Tree) (g : Ground) (from_ : Above) (words : List Token) : Prop where
  lead : ∀ front h, Leads front h g → ∃ t, conjuncts t = front ++ conjuncts tree ∧
    (∀ token rest, token.kind = .keyword .and →
      runTokens (from_.onto h) (words ++ token :: rest) =
        runTokens ((Above.operand []).onto (.op .and token.span t)) rest) ∧
    ∀ token, token.kind = .finish →
      runTokens (from_.onto h) (words ++ [token]) = .ok (filtered "a" t)

/-- A move keeps how the words of a fragment are read. -/
theorem ReadsAs.of_move {from_ dest : Above}
    (h : ReadsAs tree g dest (if used then rest.tail else rest))
    (hmove : Move from_ token rest dest used) (hword : isWord token.kind = true) : ReadsAs tree g from_ (token :: rest) where
  lead := by
    intro front lead hlead
    obtain ⟨t, ht, hand, hend⟩ := h.lead front lead hlead
    have hlow := hlead.conjunction.isLow
    refine ⟨t, ht, fun token rest hk => ?_, fun token hk => ?_⟩
    · rw [hmove.run hword hlow (.and_ hk), hand token rest hk]
    · rw [hmove.run hword hlow (.end_ hk), hend token hk]

/-- At the end of its words, a fragment is what stands on the ground. -/
theorem readsAs_nil (hg : g.IsConjunction) (hfirm : Firm above) {last : Token}
    (hlast : last.kind = .finish)
    (h : runTokens ((Above.after t above).onto g) [last] = .ok tree) :
    ∃ e, tree = filtered "a" e ∧ ReadsAs e g (.after t above) [] := by
  obtain ⟨hparen, u, hclose, rfl⟩ := (runTokens_finish_over hg.isLow hlast).1 h
  refine ⟨_, rfl, ⟨fun front lead hlead => ?_⟩⟩
  refine ⟨lead.holding u, hlead.holds u, fun token rest hk => ?_, fun token hk => ?_⟩
  · exact runTokens_and_over hlead.conjunction hfirm (depth_of_find?_eq_none hparen) hclose hk rest
  · exact (runTokens_finish_over hlead.conjunction.isLow hk).2 ⟨hparen, u, hclose, rfl⟩

/-- Nodes that an operator all closes are under no parenthesis. -/
theorem depth_of_closeAbove (h : closeAbove (closedBy o) t above = some ([], u)) :
    depth above = 0 := by
  obtain ⟨hdepth, -, -⟩ := closeAbove_spec h fun tag htag heq => by
    rw [heq, closedBy_par] at htag
    cases htag
  exact hdepth.symm

theorem looseAt_operator (ho : operatorOf? token.kind = some o) (rest : List Token) :
    looseAt 0 (token :: rest) = (isLoose o || looseAt 0 rest) := by
  rw [looseAt]
  split
  · next heq => rw [heq] at ho; cases ho
  · next heq => rw [heq] at ho; cases ho
  · simp [ho]

theorem firm_operand_nil : Firm (Above.operand []).frames := trivial

theorem inside_operand_nil : ∀ f ∈ (Above.operand []).frames, f.tag ≠ .clausePar := by
  simp [Above.frames]

/-- An `and` that takes all that stands on the ground keeps how the words of a fragment are read. -/
theorem ReadsAs.of_and {s : Span} (h : ReadsAs tree (.op .and s (g.holding u)) (.operand []) rest)
    (hreach : Reaches .and token rest t u above) :
    ReadsAs tree g (.after t above) (token :: rest) where
  lead := by
    intro front lead hlead
    have hrun : ∀ more, Neutral more → runTokens ((Above.after t above).onto lead)
        (token :: rest ++ more) =
          runTokens ((Above.operand []).onto (.op .and token.span (lead.holding u))) (rest ++ more) := by
      intro more hmore
      have hground := closedBy_of_isConjunction (o := .and) hlead.conjunction (by decide)
      apply runTokens_one (isLast_of_operatorOf? hreach.operator)
      rw [List.append_eq, hreach.step lead more hlead.conjunction.isLow hmore,
        openOver_over_ground hreach.close hlead.conjunction.isLow hground]
      rfl
    obtain ⟨e, he, hand, hend⟩ := h.lead front _ (hlead.and token.span s u)
    refine ⟨e, he, fun token rest hk => ?_, fun token hk => ?_⟩
    · rw [hrun _ (.and_ hk), hand token rest hk]
    · rw [hrun _ (.end_ hk), hend token hk]

/-- **A fragment without a loose operator outside of parentheses adds its conjuncts to those in
front, whatever stands there.** -/
theorem readsAs_of_tight (words : List Token) {g : Ground} {from_ : Above} {last : Token}
    (hg : g.IsConjunction) (hwords : ∀ w ∈ words, isWord w.kind = true) (hfirm : Firm from_.frames)
    (hinside : ∀ f ∈ from_.frames, f.tag ≠ .clausePar)
    (hloose : looseAt (depth from_.frames) words = false) (hlast : last.kind = .finish)
    (hrun : runTokens (from_.onto g) (words ++ [last]) = .ok tree) :
    ∃ e, tree = filtered "a" e ∧ ReadsAs e g from_ words := by
  induction hn : words.length using Nat.strongRecOn generalizing words g from_ with
  | ind n ih =>
    subst hn
    cases words with
    | nil =>
      cases from_ with
      | operand above =>
        simp [runTokens, hlast, Machine.finish, Above.onto, Expect.acceptsEnd] at hrun
      | after t above => exact readsAs_nil hg hfirm hlast hrun
    | cons token rest =>
      obtain ⟨hword, hrest⟩ := List.forall_mem_cons.1 hwords
      rcases run_cases hg.isLow hwords hinside hlast hrun with
        ⟨dest, used, hmove, hrun'⟩ | ⟨t, above, o, u, rfl, hreach, m, hopen, hrun'⟩
      · rw [hmove.loose hfirm] at hloose
        obtain ⟨e, rfl, hreads⟩ := ih _ (length_unused_lt used token rest) _ hg
          (isWord_of_unused hrest) (hmove.firm hfirm) (hmove.inside hinside) hloose hrun' rfl
        exact ⟨e, rfl, hreads.of_move hmove hword⟩
      · -- only `and` reaches the ground, since no operator is loose here
        have hdepth : depth above = 0 := depth_of_closeAbove hreach.close
        change looseAt (depth above) (token :: rest) = false at hloose
        rw [hdepth, looseAt_operator hreach.operator, Bool.or_eq_false_iff] at hloose
        obtain rfl := eq_and_of_tier hreach.tier_le hloose.1
        rw [openOver_over_ground hreach.close hg.isLow
          (closedBy_of_isConjunction hg hreach.tier_le)] at hopen
        cases hopen
        obtain ⟨e, rfl, hreads⟩ := ih _ (Nat.lt_succ_self _) rest (Or.inr rfl) hrest
          firm_operand_nil inside_operand_nil hloose.2 hrun' rfl
        exact ⟨e, rfl, hreads.of_and hreach⟩

/-! ## A fragment with a loose operator -/

/-- Is a loose operator on the ground? -/
def Ground.IsLoose (g : Ground) : Prop := ∃ o, g.tag = .op o ∧ isLoose o = true

theorem Ground.IsLoose.isLow (h : g.IsLoose) : g.IsLow := by
  obtain ⟨o, ho, hloose⟩ := h
  rw [Ground.IsLow, ho]
  exact Int.le_of_lt (of_decide_eq_true hloose)

theorem Ground.IsLoose.holding (h : g.IsLoose) (t : Tree) : isLooseTree (g.holding t) = true := by
  obtain ⟨o, ho, hloose⟩ := h
  cases g with
  | bare => cases ho
  | op q s first =>
    cases ho
    exact hloose

/-- An operator that closes a loose one is loose. -/
theorem isLoose_of_closedBy (hg : g.IsLoose) (h : closedBy o g.tag = true) : isLoose o = true := by
  obtain ⟨q, hq, hloose⟩ := hg
  rw [hq] at h
  exact decide_eq_true (Int.lt_of_le_of_lt (of_decide_eq_true h) (of_decide_eq_true hloose))

/-- **Over a loose operator everything is read into a condition with a loose operator at its
root.** -/
theorem isLooseTree_of_ground (words : List Token) {g : Ground} {from_ : Above} {last : Token}
    (hg : g.IsLoose) (hwords : ∀ w ∈ words, isWord w.kind = true)
    (hinside : ∀ f ∈ from_.frames, f.tag ≠ .clausePar) (hlast : last.kind = .finish)
    (hrun : runTokens (from_.onto g) (words ++ [last]) = .ok tree) :
    ∃ e, tree = filtered "a" e ∧ isLooseTree e = true := by
  induction hn : words.length using Nat.strongRecOn generalizing words g from_ with
  | ind n ih =>
    subst hn
    cases words with
    | nil =>
      cases from_ with
      | operand above =>
        simp [runTokens, hlast, Machine.finish, Above.onto, Expect.acceptsEnd] at hrun
      | after t above =>
        obtain ⟨-, u, -, rfl⟩ := (runTokens_finish_over hg.isLow hlast).1 hrun
        exact ⟨_, rfl, hg.holding u⟩
    | cons token rest =>
      obtain ⟨-, hrest⟩ := List.forall_mem_cons.1 hwords
      rcases run_cases hg.isLow hwords hinside hlast hrun with
        ⟨dest, used, hmove, hrun'⟩ | ⟨t, above, o, u, rfl, hreach, m, hopen, hrun'⟩
      · exact ih _ (length_unused_lt used token rest) _ hg (isWord_of_unused hrest)
          (hmove.inside hinside) hrun' rfl
      · by_cases hclosed : closedBy o g.tag = true
        · -- the operator takes the place of the one on the ground
          rw [openOver_over_ground hreach.close hg.isLow (Or.inr hclosed)] at hopen
          cases hopen
          exact ih _ (Nat.lt_succ_self _) rest ⟨o, rfl, isLoose_of_closedBy hg hclosed⟩ hrest
            inside_operand_nil hrun' rfl
        · rw [openOver_over hreach.close (Or.inr (by simpa using hclosed))] at hopen
          cases hopen
          have hopened : ∀ f ∈ (Above.operand [⟨.op o, token.span, [u]⟩]).frames,
              f.tag ≠ .clausePar := by
            simp [Above.frames]
          exact ih _ (Nat.lt_succ_self _) rest hg hrest hopened hrun' rfl

/-- **A loose operator outside of all parentheses leaves a loose operator at the root.** -/
theorem isLooseTree_of_looseAt (words : List Token) {g : Ground} {from_ : Above} {last : Token}
    (hg : g.IsConjunction) (hwords : ∀ w ∈ words, isWord w.kind = true) (hfirm : Firm from_.frames)
    (hinside : ∀ f ∈ from_.frames, f.tag ≠ .clausePar)
    (hloose : looseAt (depth from_.frames) words = true) (hlast : last.kind = .finish)
    (hrun : runTokens (from_.onto g) (words ++ [last]) = .ok tree) :
    ∃ e, tree = filtered "a" e ∧ isLooseTree e = true := by
  induction hn : words.length using Nat.strongRecOn generalizing words g from_ with
  | ind n ih =>
    subst hn
    cases words with
    | nil => cases hloose
    | cons token rest =>
      obtain ⟨-, hrest⟩ := List.forall_mem_cons.1 hwords
      rcases run_cases hg.isLow hwords hinside hlast hrun with
        ⟨dest, used, hmove, hrun'⟩ | ⟨t, above, o, u, rfl, hreach, m, hopen, hrun'⟩
      · rw [hmove.loose hfirm] at hloose
        exact ih _ (length_unused_lt used token rest) _ hg (isWord_of_unused hrest)
          (hmove.firm hfirm) (hmove.inside hinside) hloose hrun' rfl
      · have hdepth : depth above = 0 := depth_of_closeAbove hreach.close
        change looseAt (depth above) (token :: rest) = true at hloose
        rw [hdepth, looseAt_operator hreach.operator, Bool.or_eq_true] at hloose
        rw [openOver_over_ground hreach.close hg.isLow
          (closedBy_of_isConjunction hg hreach.tier_le)] at hopen
        cases hopen
        cases ho : isLoose o with
        | true => exact isLooseTree_of_ground rest ⟨o, rfl, ho⟩ hrest inside_operand_nil hlast hrun'
        | false =>
          obtain rfl := eq_and_of_tier hreach.tier_le ho
          exact ih _ (Nat.lt_succ_self _) rest (Or.inr rfl) hrest firm_operand_nil
            inside_operand_nil (hloose.resolve_left (by simp [ho])) hrun' rfl

/-! ## Fragments side by side -/

/-- The words of a condition behind a relation. -/
def asSource (words : List Token) : List Token :=
  ⟨.name "a", ⟨0, 0⟩⟩ :: ⟨.keyword .where_, ⟨0, 0⟩⟩ :: words ++ [⟨.finish, ⟨0, 0⟩⟩]

/-- The words are read as the condition. -/
def ReadAs (words : List Token) (e : Tree) : Prop :=
  parseTokens (asSource words) = .ok (filtered "a" e)

/-- The words of fragments with an `and` between neighbours. -/
def joined : List (List Token) → List Token
  | [] => []
  | [words] => words
  | words :: more => words ++ ⟨.keyword .and, ⟨0, 0⟩⟩ :: joined more

/-- Fragments that are joined by `and` are read as the conjunction of what each is read as. -/
def Conjoins (fragments : List (List Token)) : Prop :=
  ∃ trees tree, List.Forall₂ ReadAs fragments trees ∧ ReadAs (joined fragments) tree ∧
    conjuncts tree = trees.flatMap conjuncts

/-- The number of parentheses that are open after the words. -/
def depthAfter : (depth : Nat) → List Token → Nat
  | depth, [] => depth
  | depth, token :: rest =>
    match token.kind with
    | .symbol .leftParen => depthAfter (depth + 1) rest
    | .symbol .rightParen => depthAfter (depth - 1) rest
    | _ => depthAfter depth rest

theorem runTokens_asSource (words : List Token) : parseTokens (asSource words) =
    runTokens ((Above.operand []).onto .bare) (words ++ [⟨.finish, ⟨0, 0⟩⟩]) :=
  runTokens_where rfl rfl _

theorem looseAt_append (depth : Nat) (xs ys : List Token) :
    looseAt depth (xs ++ ys) = (looseAt depth xs || looseAt (depthAfter depth xs) ys) := by
  induction xs generalizing depth with
  | nil => rfl
  | cons token xs ih =>
    obtain ⟨kind, span⟩ := token
    cases kind with
    | symbol symbol => cases symbol <;> simp [looseAt, depthAfter, ih, Bool.or_assoc]
    | _ => simp [looseAt, depthAfter, ih, Bool.or_assoc]

/-- A loose operator outside of the parentheses of one fragment is outside of those of all. -/
theorem looseAt_joined {fragments : List (List Token)}
    (hbalanced : ∀ words ∈ fragments, depthAfter 0 words = 0) :
    looseAt 0 (joined fragments) = fragments.any (looseAt 0) := by
  induction fragments with
  | nil => rfl
  | cons words more ih =>
    rw [List.forall_mem_cons] at hbalanced
    cases more with
    | nil => simp [joined]
    | cons next more =>
      have hand : looseAt 0 (⟨.keyword .and, ⟨0, 0⟩⟩ :: joined (next :: more)) =
          looseAt 0 (joined (next :: more)) := looseAt_of_tight (by simp) (by simp) rfl _ _ _
      have hjoined : joined (words :: next :: more) =
          words ++ ⟨.keyword .and, ⟨0, 0⟩⟩ :: joined (next :: more) := rfl
      rw [hjoined, looseAt_append, hbalanced.1, hand, ih hbalanced.2, List.any_cons (a := words)]

/-- Every word of the joined fragments is one. -/
theorem isWord_joined {fragments : List (List Token)}
    (hwords : ∀ words ∈ fragments, ∀ w ∈ words, isWord w.kind = true) :
    ∀ w ∈ joined fragments, isWord w.kind = true := by
  induction fragments with
  | nil => exact fun w hw => nomatch hw
  | cons words more ih =>
    rw [List.forall_mem_cons] at hwords
    cases more with
    | nil => exact hwords.1
    | cons next more =>
      intro w hw
      rcases List.mem_append.1 hw with hw | hw
      · exact hwords.1 w hw
      · rcases List.mem_cons.1 hw with rfl | hw
        · rfl
        · exact ih hwords.2 w hw

/-- **Tight fragments are read one after the other, each into the conjuncts it adds.** -/
theorem readsAs_joined {fragments : List (List Token)} (hne : fragments ≠ [])
    (hwords : ∀ words ∈ fragments, ∀ w ∈ words, isWord w.kind = true)
    (hreadable : ∀ words ∈ fragments, ∃ e, ReadAs words e)
    (htight : ∀ words ∈ fragments, looseAt 0 words = false) {front : List Tree} {lead : Ground}
    (hlead : Leads front lead .bare) :
    ∃ trees t, List.Forall₂ ReadAs fragments trees ∧ conjuncts t = front ++ trees.flatMap conjuncts ∧
      runTokens ((Above.operand []).onto lead) (joined fragments ++ [⟨.finish, ⟨0, 0⟩⟩]) =
        .ok (filtered "a" t) := by
  induction fragments generalizing front lead with
  | nil => exact absurd rfl hne
  | cons words more ih =>
    rw [List.forall_mem_cons] at hwords hreadable htight
    obtain ⟨e, he⟩ := hreadable.1
    have hrun := (runTokens_asSource words).symm.trans he
    obtain ⟨e', heq, hreads⟩ := readsAs_of_tight words (Or.inl rfl) hwords.1 firm_operand_nil
      inside_operand_nil htight.1 rfl hrun
    obtain rfl : e = e' := by simpa [filtered] using heq
    obtain ⟨t, ht, hand, hend⟩ := hreads.lead front lead hlead
    cases more with
    | nil =>
      refine ⟨[e], t, .cons he .nil, by simpa using ht, hend _ rfl⟩
    | cons next more =>
      have hnext : Leads (front ++ conjuncts e) (.op .and ⟨0, 0⟩ t) .bare := ht ▸ Leads.first _ t
      obtain ⟨trees, t', hall, ht', hrun'⟩ :=
        ih (by simp) hwords.2 hreadable.2 htight.2 hnext
      refine ⟨e :: trees, t', .cons he hall, ?_, ?_⟩
      · rw [ht', List.flatMap_cons, List.append_assoc]
      · have hjoined : joined (words :: next :: more) =
            words ++ ⟨.keyword .and, ⟨0, 0⟩⟩ :: joined (next :: more) := rfl
        rw [hjoined, List.append_assoc, List.cons_append, hand _ _ rfl]
        exact hrun'

/-- Every fragment that is read as a tree can be read. -/
theorem readable_of_forall₂ {fragments : List (List Token)} {trees : List Tree}
    (h : List.Forall₂ ReadAs fragments trees) : ∀ words ∈ fragments, ∃ e, ReadAs words e := by
  induction h with
  | nil => simp
  | cons he _ ih => exact List.forall_mem_cons.2 ⟨⟨_, he⟩, ih⟩

/-- Every tree has a conjunct of its own. -/
theorem length_le_length_conjuncts (trees : List Tree) :
    trees.length ≤ (trees.flatMap conjuncts).length := by
  induction trees with
  | nil => exact Nat.le_refl _
  | cons t trees ih =>
    have hpos := List.length_pos_of_ne_nil (conjuncts_ne_nil t)
    rw [List.flatMap_cons, List.length_append, List.length_cons]
    omega

/-- **Fragments that are joined by `and` are read as their conjunction exactly if each can be read
and, where there are several, none has a loose operator outside of its parentheses.** -/
theorem conjoins_iff {fragments : List (List Token)} (hne : fragments ≠ [])
    (hwords : ∀ words ∈ fragments, ∀ w ∈ words, isWord w.kind = true)
    (hbalanced : ∀ words ∈ fragments, depthAfter 0 words = 0) :
    Conjoins fragments ↔ (∀ words ∈ fragments, ∃ e, ReadAs words e) ∧
      (fragments.length = 1 ∨ ∀ words ∈ fragments, looseAt 0 words = false) := by
  constructor
  · rintro ⟨trees, tree, hall, hjoined, hconjuncts⟩
    refine ⟨readable_of_forall₂ hall, ?_⟩
    by_cases htight : ∀ words ∈ fragments, looseAt 0 words = false
    · exact Or.inr htight
    · -- a loose operator is at the root of the tree, which then is its own only conjunct
      left
      have hany : looseAt 0 (joined fragments) = true := by
        rw [looseAt_joined hbalanced, List.any_eq_true]
        simpa using htight
      obtain ⟨e, heq, hloose⟩ := isLooseTree_of_looseAt (joined fragments) (Or.inl rfl)
        (isWord_joined hwords) firm_operand_nil inside_operand_nil hany rfl
        ((runTokens_asSource _).symm.trans hjoined)
      obtain rfl : tree = e := by simpa [filtered] using heq
      have hle := length_le_length_conjuncts trees
      rw [← hconjuncts, conjuncts_of_isLooseTree hloose, ← hall.length_eq] at hle
      have hpos := List.length_pos_of_ne_nil hne
      exact Nat.le_antisymm hle hpos
  · rintro ⟨hreadable, h | htight⟩
    · obtain ⟨words, rfl⟩ := List.length_eq_one_iff.1 h
      obtain ⟨e, he⟩ := hreadable words List.mem_cons_self
      exact ⟨[e], e, .cons he .nil, he, by simp⟩
    · obtain ⟨trees, t, hall, ht, hrun⟩ :=
        readsAs_joined hne hwords hreadable htight (Leads.refl (Or.inl rfl))
      exact ⟨trees, t, hall, (runTokens_asSource _).trans hrun, ht⟩

end RelationSql.Grammar
