import RelationSql.Proofs.Grammar.Places
import RelationSql.Proofs.Grammar.Sealed

/-!
# A `between` without its `and`

Every `between` takes the first `and` behind it that stands in the same parentheses, and its lower bound may
hold nothing outside of further parentheses that binds as loosely as itself. Before it has got its `and` its
node cannot be closed, so whatever would close it is a fault: another operator that binds no tighter, a
comma, a closing parenthesis, the word of a clause, the end. A `not` in the bound closes nothing, but no `and`
reaches past it (`Blocked`). So a source is right only if each `between` has an `and` of its own behind words
that bind tighter (`findsAnd_of_parse`).
-/

namespace RelationSql.Grammar

open RelationSql.Source (Span Token TokenKind)

variable {token next : Token} {rest more : List Token} {above left base closed inner remaining : List Frame}
  {root : List Tree} {t u tree : Tree} {p : Tag → Bool} {used : Bool} {from_ dest : Above} {f opened : Frame}
  {m m₁ : Machine} {d : Nat} {least : Int} {o : Operator}

/-! ## Words of a bound -/

/-- May the token stand in a bound of a `between`, outside of further parentheses? These are operands with
their methods and units, and operators that bind tighter than `between`. -/
def isTightWord (kind : TokenKind) : Bool :=
  (leafOf? kind).isSome || (prefixOperator? kind).any (fun o => 29 < operatorTier o) ||
    (operatorOf? kind).any (fun o => 29 < operatorTier o) || kind == .symbol .dot

/-- Do words of a bound lead to an `and` in the same parentheses? `depth` further parentheses are open, and
what stands in them does not count. -/
def findsAnd : (depth : Nat) → List Token → Bool
  | _, [] => false
  | depth, token :: rest =>
    match token.kind with
    | .symbol .leftParen => findsAnd (depth + 1) rest
    | .symbol .rightParen => depth != 0 && findsAnd (depth - 1) rest
    | kind =>
      if depth = 0 then kind == .keyword .and || (isTightWord kind && findsAnd 0 rest)
      else findsAnd depth rest

theorem findsAnd_opening (h : token.kind = .symbol .leftParen) (d : Nat) (rest : List Token) :
    findsAnd d (token :: rest) = findsAnd (d + 1) rest := by
  rw [findsAnd]
  simp only [h]

theorem findsAnd_closing (h : token.kind = .symbol .rightParen) (d : Nat) (rest : List Token) :
    findsAnd d (token :: rest) = (d != 0 && findsAnd (d - 1) rest) := by
  rw [findsAnd]
  simp only [h]

theorem findsAnd_plain (h : isParenthesis token.kind = false) (d : Nat) (rest : List Token) :
    findsAnd d (token :: rest) =
      if d = 0 then token.kind == .keyword .and || (isTightWord token.kind && findsAnd 0 rest)
      else findsAnd d rest := by
  simp only [isParenthesis, Bool.or_eq_false_iff, beq_eq_false_iff_ne] at h
  rw [findsAnd]
  split
  · next hkind => exact absurd hkind h.1
  · next hkind => exact absurd hkind h.2
  · rfl

theorem isTightWord_of_leafOf? (h : leafOf? token.kind = some t) : isTightWord token.kind = true := by
  simp [isTightWord, h]

theorem isTightWord_of_name {word : String} (h : token.kind = .name word) :
    isTightWord token.kind = true := by
  rw [h]
  rfl

/-- An operator that is no word of a bound binds no tighter than `between`. -/
theorem tier_le_of_operatorOf? (h : operatorOf? token.kind = some o)
    (hloose : isTightWord token.kind = false) : operatorTier o ≤ 29 := by
  simp only [isTightWord, h, Option.any_some, Bool.or_eq_false_iff, decide_eq_false_iff_not,
    Int.not_lt] at hloose
  exact hloose.1.2

theorem tier_le_of_prefixOperator? (h : prefixOperator? token.kind = some o)
    (hloose : isTightWord token.kind = false) : operatorTier o ≤ 29 := by
  simp only [isTightWord, h, Option.any_some, Bool.or_eq_false_iff, decide_eq_false_iff_not,
    Int.not_lt] at hloose
  exact hloose.1.1.2

theorem isParenthesis_of_leafOf? (h : leafOf? token.kind = some t) : isParenthesis token.kind = false := by
  cases hkind : token.kind with
  | symbol symbol => rw [hkind] at h; cases h
  | _ => rfl

theorem isParenthesis_of_prefixOperator? (h : prefixOperator? token.kind = some o) :
    isParenthesis token.kind = false := by
  cases hkind : token.kind with
  | symbol symbol => rw [hkind] at h; cases symbol <;> first | rfl | cases h
  | _ => rfl

/-! ## Nodes that no `and` passes -/

/-- A node under no parenthesis binds no tighter than `between`. -/
def Blocked : List Frame → Prop
  | [] => False
  | f :: inner => (depth (f :: inner) = 0 ∧ tier f.tag ≤ 29) ∨ Blocked inner

theorem blocked_received (t : Tree) (inner : List Frame) : Blocked (received t inner) ↔ Blocked inner := by
  cases inner <;> rfl

/-- Inside of a parenthesis its node blocks nothing. -/
theorem Blocked.of_cons (h : Blocked (f :: inner)) (hpar : f.tag = .par) : Blocked inner := by
  refine h.resolve_left fun hf => ?_
  rw [depth_cons_par hpar] at hf
  omega

theorem depth_eq_zero_of_append (closed : List Frame) (h : depth (closed ++ remaining) = 0) :
    depth remaining = 0 := by
  rw [depth, List.countP_append] at h
  exact (Nat.add_eq_zero_iff.1 h).2

/-- Nodes that are closed leave the others blocked if those that blocked do not go without a trace. -/
theorem Blocked.of_append (h : Blocked (closed ++ remaining))
    (hclosed : ∀ f ∈ closed, tier f.tag ≤ 29 → depth remaining = 0 → Blocked remaining) :
    Blocked remaining := by
  induction closed with
  | nil => exact h
  | cons f closed ih =>
    obtain ⟨hf, hrest⟩ := List.forall_mem_cons.1 hclosed
    rcases h with ⟨hdepth, htier⟩ | h
    · exact hf htier (depth_eq_zero_of_append (f :: closed) hdepth)
    · exact ih h hrest

/-! ## Closing over a `between` that waits -/

/-- A `between` over its first operand only. -/
structure Frame.Waits (opened : Frame) : Prop where
  tag : opened.tag = .op .between
  one : opened.done.length = 1

namespace Frame.Waits

variable (hopened : opened.Waits)

include hopened

theorem tier_eq : tier opened.tag = 29 := by
  rw [hopened.tag]
  rfl

/-- It does not close over one more tree. -/
theorem closeAbove_ne (p : Tag → Bool) (u : Tree) : closeAbove p t (inner ++ [opened]) ≠ some ([], u) := by
  intro hclose
  induction inner generalizing t with
  | nil =>
    have hcomplete : ({ opened with done := t :: opened.done } : Frame).isComplete = false := by
      simp [Frame.isComplete, hopened.tag, hopened.one]
    rw [List.nil_append, closeAbove, hcomplete] at hclose
    split at hclose <;> cases hclose
  | cons f inner ih =>
    rw [List.cons_append, closeAbove] at hclose
    split at hclose
    · split at hclose
      · exact ih hclose
      · cases hclose
    · cases hclose

/-- Whatever closes nodes above it stops there at the latest. -/
theorem exists_remaining (hclose : closeAbove p t (inner ++ [opened]) = some (left, u)) :
    ∃ closed remaining, inner = closed ++ remaining ∧ left = remaining ++ [opened] ∧
      (∀ f ∈ closed, p f.tag = true) ∧ ∀ f rest, remaining ++ [opened] = f :: rest → p f.tag = false := by
  obtain ⟨closed, heq, hclosed, hstop⟩ := closeAbove_eq_some hclose
  rcases List.eq_nil_or_concat' left with rfl | ⟨remaining, last, rfl⟩
  · exact absurd hclose (hopened.closeAbove_ne p u)
  · rw [← List.append_assoc] at heq
    obtain ⟨rfl, hlast⟩ := List.append_inj' heq rfl
    obtain rfl := List.singleton_inj.1 hlast
    exact ⟨closed, remaining, rfl, rfl, hclosed, hstop⟩

/-- Where closing stopped under a node that binds no tighter, the node at which it stopped blocks. -/
theorem blocked_of_stop
    (hstop : ∀ f rest, remaining ++ [opened] = f :: rest → decide (least ≤ tier f.tag) = false)
    (hleast : least ≤ 29) (hdepth : depth remaining = 0) : Blocked remaining := by
  cases remaining with
  | nil =>
    have htier := of_decide_eq_false (hstop opened [] rfl)
    rw [hopened.tier_eq] at htier
    exact absurd hleast htier
  | cons f remaining =>
    have htier := of_decide_eq_false (hstop f (remaining ++ [opened]) rfl)
    exact .inl ⟨hdepth, by omega⟩

/-- Closing to a tier leaves what was blocked blocked, and blocks what is under no parenthesis where the
tier is not above that of `between`. -/
theorem closeTier (hleast : 0 ≤ least)
    (hclose : closeAbove (fun tag => decide (least ≤ tier tag)) t (inner ++ [opened]) = some (left, u)) :
    ∃ remaining, left = remaining ++ [opened] ∧ depth remaining = depth inner ∧
      (Blocked inner → Blocked remaining) ∧ (depth inner = 0 → least ≤ 29 → Blocked remaining) := by
  obtain ⟨closed, remaining, rfl, rfl, hclosed, hstop⟩ := hopened.exists_remaining hclose
  have hdepth : depth (closed ++ remaining) = depth remaining := by
    refine depth_append (fun f hf hpar => ?_) _
    have htier : least ≤ tier .par := hpar ▸ of_decide_eq_true (hclosed f hf)
    exact absurd (Int.le_trans hleast htier) (by decide)
  refine ⟨remaining, rfl, hdepth.symm, fun hblocked => ?_, fun hzero hleast' => ?_⟩
  · refine hblocked.of_append fun f hf htier hzero => ?_
    exact hopened.blocked_of_stop hstop (Int.le_trans (of_decide_eq_true (hclosed f hf)) htier) hzero
  · exact hopened.blocked_of_stop hstop hleast' (hdepth ▸ hzero)

end Frame.Waits

/-! ## Steps -/

/-- A `between` waits at the bottom, and the words to come do not lead to its `and`. -/
structure Lacking (opened : Frame) (inner : List Frame) (from_ : Above) (rest : List Token) : Prop where
  waits : opened.Waits
  frames : from_.frames = inner ++ [opened]
  missing : Blocked inner ∨ findsAnd (depth inner) rest = false

namespace Lacking

/-- A token that neither is an `and` that is waited for nor opens or closes a parenthesis. -/
theorem skip (h : Lacking opened inner from_ (token :: rest)) (htoken : isParenthesis token.kind = false)
    (hframes : dest.frames = remaining ++ [opened]) (hdepth : depth remaining = depth inner)
    (hblocked : Blocked inner → Blocked remaining)
    (hloose : depth inner = 0 → isTightWord token.kind = false → Blocked remaining) :
    Lacking opened remaining dest rest := by
  refine ⟨h.waits, hframes, ?_⟩
  rcases h.missing with hinner | hfinds
  · exact .inl (hblocked hinner)
  · rw [findsAnd_plain htoken] at hfinds
    rw [hdepth]
    split at hfinds
    · next hzero =>
      rw [Bool.or_eq_false_iff, Bool.and_eq_false_iff] at hfinds
      rcases hfinds.2 with htight | hrest
      · exact .inl (hloose hzero htight)
      · exact .inr (by rwa [hzero])
    · exact .inr hfinds

/-- A token of a bound that leaves the nodes open. -/
theorem skip_tight (h : Lacking opened inner from_ (token :: rest)) (htoken : isParenthesis token.kind = false)
    (htight : isTightWord token.kind = true) (hframes : dest.frames = remaining ++ [opened])
    (hdepth : depth remaining = depth inner) (hblocked : Blocked inner → Blocked remaining) :
    Lacking opened remaining dest rest :=
  h.skip htoken hframes hdepth hblocked fun _ hloose => absurd (htight.symm.trans hloose) nofun

/-- What is closed to a tier is above the `between`. -/
theorem closeTier (h : Lacking opened inner (.after t above) rest) (hleast : 0 ≤ least)
    (hclose : closeAbove (fun tag => decide (least ≤ tier tag)) t above = some (left, u)) :
    ∃ remaining, left = remaining ++ [opened] ∧ depth remaining = depth inner ∧
      (Blocked inner → Blocked remaining) ∧ (depth inner = 0 → least ≤ 29 → Blocked remaining) := by
  have habove : above = inner ++ [opened] := h.frames
  rw [habove] at hclose
  exact h.waits.closeTier hleast hclose

/-- What is closed in front of other tags is above the `between` too. -/
theorem exists_remaining (h : Lacking opened inner (.after t above) rest)
    (hclose : closeAbove p t above = some (left, u)) :
    ∃ closed remaining, inner = closed ++ remaining ∧ left = remaining ++ [opened] ∧
      (∀ f ∈ closed, p f.tag = true) ∧ ∀ f rest, remaining ++ [opened] = f :: rest → p f.tag = false := by
  have habove : above = inner ++ [opened] := h.frames
  rw [habove] at hclose
  exact h.waits.exists_remaining hclose

/-- A sign and its number are words of a bound. -/
theorem signed (h : Lacking opened inner (.operand above) (token :: rest))
    (hminus : token.kind = .symbol .minus) (hsigned : signedLiteral? token (following token rest) = some t) :
    Lacking opened inner (.after t above) rest.tail := by
  cases rest with
  | nil =>
    rw [following, signedLiteral?, hminus] at hsigned
    simp at hsigned
  | cons number rest =>
    have hsign : Lacking opened inner (.operand above) (number :: rest) :=
      h.skip_tight (by rw [hminus]; rfl) (by rw [hminus]; rfl) h.frames rfl id
    have hnumber : isParenthesis number.kind = false ∧ isTightWord number.kind = true := by
      rw [following, signedLiteral?] at hsigned
      cases hkind : number.kind with
      | integer digits | real digits => exact ⟨rfl, rfl⟩
      | _ => simp [hkind] at hsigned
    exact hsign.skip_tight hnumber.1 hnumber.2 h.frames rfl id

/-- A parenthesis is open above the `between`. -/
theorem opening (h : Lacking opened inner (.operand above) (token :: rest))
    (hopening : token.kind = .symbol .leftParen) :
    Lacking opened (⟨.par, token.span, []⟩ :: inner) (.operand (⟨.par, token.span, []⟩ :: above)) rest := by
  refine ⟨h.waits, congrArg _ h.frames, ?_⟩
  have hdepth : depth (⟨.par, token.span, []⟩ :: inner) = depth inner + 1 := depth_cons_par rfl inner
  rw [hdepth, ← findsAnd_opening hopening]
  exact h.missing.imp_left .inr

/-- An operator in front of an operand blocks if it binds no tighter than the `between`. -/
theorem before (h : Lacking opened inner (.operand above) (token :: rest))
    (hbefore : prefixOperator? token.kind = some o) :
    Lacking opened (⟨.op o, token.span, []⟩ :: inner) (.operand (⟨.op o, token.span, []⟩ :: above)) rest := by
  have hdepth : depth (⟨.op o, token.span, []⟩ :: inner) = depth inner := depth_cons_op (by simp) inner
  refine h.skip (isParenthesis_of_prefixOperator? hbefore) (congrArg _ h.frames) hdepth .inr ?_
  exact fun hzero hloose => .inl ⟨hdepth.trans hzero, tier_le_of_prefixOperator? hbefore hloose⟩

/-- An operator between operands closes what binds as tightly as itself, and what it stops at blocks if it
binds no tighter than the `between`. -/
theorem between (h : Lacking opened inner (.after t above) (token :: rest))
    (ho : operatorOf? token.kind = some o) (hclose : closeAbove (closedBy o) t above = some (left, u)) :
    ∃ remaining, Lacking opened remaining (.operand (⟨.op o, token.span, [u]⟩ :: left)) rest := by
  obtain ⟨remaining, rfl, hdepth, hblocked, hstop⟩ :=
    h.closeTier (Int.le_trans (by decide) (operatorTier_bounds o).1) hclose
  refine ⟨⟨.op o, token.span, [u]⟩ :: remaining, h.skip (isParenthesis_of_operatorOf? ho) rfl
    ((depth_cons_op (by simp) _).trans hdepth) (fun hinner => .inr (hblocked hinner)) ?_⟩
  exact fun hzero hloose => .inr (hstop hzero (tier_le_of_operatorOf? ho hloose))

/-- A negated operator blocks: its `not` binds looser than the `between`. -/
theorem negated (h : Lacking opened inner (.after t above) (token :: next :: more))
    (hnot : token.kind = .keyword .not) (hnegatable : Machine.negatable? next.kind = some o)
    (hclose : closeAbove (closedBy o) t above = some (left, u)) :
    ∃ remaining, Lacking opened remaining
      (.operand (⟨.op o, next.span, [u]⟩ :: ⟨.op .not, token.span, []⟩ :: left)) more := by
  obtain ⟨remaining, rfl, hdepth, hblocked, -⟩ :=
    h.closeTier (Int.le_trans (by decide) (operatorTier_bounds o).1) hclose
  let nodes := ⟨.op o, next.span, [u]⟩ :: ⟨.op .not, token.span, []⟩ :: remaining
  have hnegation : depth (⟨.op .not, token.span, []⟩ :: remaining) = depth inner :=
    (depth_cons_op (by simp) _).trans hdepth
  -- two tokens are used up, and the nodes that both of them open are there from the first one on
  have hnodes : depth nodes = depth inner := (depth_cons_op (by simp) _).trans hnegation
  have hstop (hzero : depth inner = 0) : Blocked nodes :=
    .inr (.inl ⟨hnegation.trans hzero, (by decide : tier (.op .not) ≤ 29)⟩)
  have hbehind : Lacking opened nodes (.operand (nodes ++ [opened])) (next :: more) :=
    h.skip (by rw [hnot]; rfl) rfl hnodes (fun hinner => .inr (.inr (hblocked hinner)))
      fun hzero _ => hstop hzero
  exact ⟨nodes, hbehind.skip (isParenthesis_of_operatorOf? (operatorOf?_of_negatable? hnegatable).1) rfl rfl
    id fun hzero _ => hstop (hnodes.symm.trans hzero)⟩

/-- An `and` that some `between` waits for is that of another one, above. -/
theorem upTo (h : Lacking opened inner (.after t above) (token :: rest)) (hand : token.kind = .keyword .and)
    (hwaits : Machine.waitsForAnd true above = true)
    (hclose : closeAbove (fun tag => tag != .op .between) t above = some (left, u)) :
    ∃ remaining, Lacking opened remaining (.operand (received u left)) rest := by
  have habove : above = inner ++ [opened] := h.frames
  obtain ⟨closed, remaining, rfl, rfl, hclosed, -⟩ := h.exists_remaining hclose
  obtain ⟨f, below, heq⟩ := List.exists_cons_of_ne_nil (l := remaining ++ [opened]) (by simp)
  rw [habove, List.append_assoc, heq] at hwaits
  have htier := lt_tier_of_waitsForAnd (fun f hf => by simpa using hclosed f hf) hwaits
  have hdepth : depth (closed ++ remaining) = depth remaining :=
    depth_append (fun f hf => ne_par_of_lt_tier (htier f hf) (by decide)) _
  have hblocked (hinner : Blocked (closed ++ remaining)) : Blocked remaining :=
    hinner.of_append fun f hf htight _ => absurd (htier f hf) (Int.not_lt.2 htight)
  have htoken : isParenthesis token.kind = false := by
    rw [hand]
    rfl
  -- outside of further parentheses it would be the `and` that is missing
  have hmissing (hzero : depth (closed ++ remaining) = 0) : Blocked remaining := by
    refine hblocked (h.missing.resolve_right fun hfinds => ?_)
    rw [findsAnd_plain htoken, if_pos hzero, hand] at hfinds
    cases hfinds
  cases remaining with
  | nil =>
    -- nothing is left above the `between`, so nothing can block it
    exact (hmissing hdepth).elim
  | cons g remaining =>
    exact ⟨received u (g :: remaining), h.skip htoken rfl ((depth_received u _).trans hdepth.symm)
      (fun hinner => (blocked_received u _).2 (hblocked hinner))
      fun hzero _ => (blocked_received u _).2 (hmissing hzero)⟩

/-- A method is called on what binds as tightly as a call. -/
theorem method {name : String} (h : Lacking opened inner (.after t above) (token :: rest))
    (hdot : token.kind = .symbol .dot) (hname : (following token rest).kind = .name name)
    (hclose : closeAbove (fun tag => decide (tier .function ≤ tier tag)) t above = some (left, u)) :
    ∃ remaining, Lacking opened remaining (.after (.node .function [u, .leaf .method name]) left)
      rest.tail := by
  obtain ⟨remaining, rfl, hdepth, hblocked, -⟩ := h.closeTier (by decide) hclose
  cases rest with
  | nil =>
    rw [following, hdot] at hname
    cases hname
  | cons called rest =>
    rw [following] at hname
    have hbehind : Lacking opened remaining
        (.after (.node .function [u, .leaf .method name]) (remaining ++ [opened])) (called :: rest) :=
      h.skip_tight (by rw [hdot]; rfl) (by rw [hdot]; rfl) rfl hdepth hblocked
    exact ⟨remaining, hbehind.skip_tight (by rw [hname]; rfl) (isTightWord_of_name hname) rfl rfl id⟩

/-- A number gets the unit behind it. -/
theorem interval {word unit : String} (h : Lacking opened inner (.after t above) (token :: rest))
    (hword : token.kind = .name word)
    (hclose : closeAbove (fun tag => decide (tier .interval ≤ tier tag)) t above = some (left, u)) :
    ∃ remaining, Lacking opened remaining (.after (.node .interval [u, .atom unit]) left) rest := by
  obtain ⟨remaining, rfl, hdepth, hblocked, -⟩ := h.closeTier (by decide) hclose
  exact ⟨remaining, h.skip_tight (by rw [hword]; rfl) (isTightWord_of_name hword) rfl hdepth hblocked⟩

/-- A comma stands in a parenthesis above the `between`, and closes up to there. -/
theorem comma (h : Lacking opened inner (.after t above) (token :: rest))
    (hcomma : token.kind = .symbol .comma)
    (hclose : closeAbove (fun tag => tag != .par) t above = some (left, u)) :
    ∃ remaining, Lacking opened remaining (.operand (received u left)) rest := by
  obtain ⟨closed, remaining, rfl, rfl, hclosed, hstop⟩ := h.exists_remaining hclose
  have hdepth : depth (closed ++ remaining) = depth remaining :=
    depth_append (fun f hf => by simpa using hclosed f hf) _
  cases remaining with
  | nil =>
    -- closing would have stopped at the `between`, which is no parenthesis
    have hpar := hstop opened [] rfl
    simp [h.waits.tag] at hpar
  | cons g remaining =>
    have hpar : g.tag = .par := by simpa using hstop g _ rfl
    have hopen : depth (g :: remaining) ≠ 0 := by
      rw [depth_cons_par hpar]
      omega
    refine ⟨received u (g :: remaining), h.skip (by rw [hcomma]; rfl) rfl
      ((depth_received u _).trans hdepth.symm) (fun hinner => (blocked_received u _).2 ?_)
      fun hzero _ => absurd (hdepth.symm.trans hzero) hopen⟩
    exact hinner.of_append fun f hf htier hzero => absurd hzero hopen

/-- A closing parenthesis closes one above the `between`. -/
theorem closing (h : Lacking opened inner (.after t above) (token :: rest))
    (hclosing : token.kind = .symbol .rightParen) (hpar : f.tag = .par)
    (hclose : closeAbove (fun tag => decide (parenTier ≤ tier tag)) t above = some (f :: left, u)) :
    ∃ remaining, Lacking opened remaining (.after (.node .par (u :: f.done).reverse) left) rest := by
  obtain ⟨remaining, hleft, hdepth, hblocked, -⟩ := h.closeTier (by decide) hclose
  cases remaining with
  | nil =>
    -- what closing stopped at would be the `between`, which is no parenthesis
    cases hleft
    rw [h.waits.tag] at hpar
    cases hpar
  | cons g remaining =>
    obtain ⟨rfl, rfl⟩ := List.cons.inj hleft
    refine ⟨remaining, h.waits, rfl, h.missing.imp (fun hinner => (hblocked hinner).of_cons hpar) ?_⟩
    intro hfinds
    rw [← hdepth, depth_cons_par hpar, findsAnd_closing hclosing, Nat.add_sub_cancel] at hfinds
    simpa using hfinds

end Lacking

/-- **Every step keeps the `and` from a `between` that lacks it.** -/
theorem Lacking.step (h : Lacking opened inner from_ (token :: rest)) (hgoes : Goes token rest from_ dest used) :
    ∃ remaining, Lacking opened remaining dest (if used then rest.tail else rest) := by
  cases hgoes with
  | leaf hleaf =>
    exact ⟨inner, h.skip_tight (isParenthesis_of_leafOf? hleaf) (isTightWord_of_leafOf? hleaf) h.frames rfl
      id⟩
  | signed hminus hsigned => exact ⟨inner, h.signed hminus hsigned⟩
  | opening hopening => exact ⟨_, h.opening hopening⟩
  | before hbefore => exact ⟨_, h.before hbefore⟩
  | between ho _ _ hclose => exact h.between ho hclose
  | negated hnot hrest hnegatable _ hclose =>
    subst hrest
    exact h.negated hnot hnegatable hclose
  | upTo hand hwaits hclose => exact h.upTo hand hwaits hclose
  | method hdot hname hclose => exact h.method hdot hname hclose
  | interval hword _ _ hclose => exact h.interval hword hclose
  | comma hcomma _ hclose => exact h.comma hcomma hclose
  | closing hclosing hpar hclose => exact h.closing hclosing hpar hclose

/-! ## Runs -/

/-- **A run ends with no tree while a `between` lacks its `and`.** -/
theorem Lacking.run_ne_ok (tokens : List Token) (h : Lacking opened inner from_ tokens)
    (hin : ∀ f ∈ from_.frames, f.InExpression) (base : List Frame) (root : List Tree) (tree : Tree) :
    runTokens (from_.upon base root) tokens ≠ .ok tree := by
  -- a step may use up two tokens, so the induction is on their number
  induction hlength : tokens.length using Nat.strongRecOn generalizing tokens from_ inner with
  | ind length ih =>
    subst hlength
    intro hrun
    have hheld : Held from_.frames :=
      ⟨hin, opened, by simp [h.frames], .inr ⟨h.waits.tag, by simp [h.waits.one]⟩⟩
    have hend : ¬ EndsInPar from_.frames := by
      simp [EndsInPar, h.frames, h.waits.tag]
    cases tokens with
    | nil => cases hrun
    | cons token rest =>
      cases htoken : token.kind.isLast with
      | true => exact hheld.runTokens_ne_ok htoken rest tree hrun
      | false =>
        obtain ⟨m, used, hstep, hrest⟩ := step_of_runTokens htoken hrun
        obtain ⟨dest, hgoes, rfl⟩ := goes_of_step hheld (.inr hend) hstep
        obtain ⟨remaining, h'⟩ := h.step hgoes
        exact ih _ (length_unused_lt used token rest) _ h' (hgoes.inExpression hin) rfl hrest

/-- Behind a `between` that was just opened, its `and` is found. -/
theorem findsAnd_of_opensBetween (hm : m.OpensBetween) (h : runTokens m rest = .ok tree) :
    findsAnd 0 rest = true := by
  obtain ⟨span, t, below, root, rfl⟩ := hm
  let opened : Frame := ⟨.op .between, span, [t]⟩
  cases hfinds : findsAnd 0 rest with
  | true => rfl
  | false =>
    have hlacking : Lacking opened [] (.operand [opened]) rest := ⟨⟨rfl, rfl⟩, rfl, .inr hfinds⟩
    have hin : ∀ f ∈ (Above.operand [opened]).frames, f.InExpression :=
      List.forall_mem_singleton.2 (inExpression_op _ _ _)
    exact absurd h (hlacking.run_ne_ok rest hin below root tree)

/-- No clause starts with a `between`. -/
theorem clause_between_ne_ok (htoken : token.kind = .keyword .between) (r : Machine × Bool) :
    m.clause token rest ≠ .ok r := by
  intro h
  rw [Machine.clause, if_neg (by simp [htoken])] at h
  split at h
  · cases h
  · simp only [Machine.clauseOf?, htoken] at h
    cases h

/-- A step over a `between` opens it. -/
theorem opensBetween_of_step (htoken : token.kind = .keyword .between)
    (h : m.step token rest = .ok (m₁, used)) : used = false ∧ m₁.OpensBetween := by
  obtain ⟨kind, span⟩ := token
  obtain rfl : kind = .keyword .between := htoken
  obtain ⟨expects, frames, root⟩ := m
  have hclause (m : Machine) : m.clause ⟨.keyword .between, span⟩ rest ≠ .ok (m₁, used) :=
    clause_between_ne_ok rfl _
  cases expects with
  | afterOperand =>
    obtain ⟨m₂, hopen, hone⟩ := bind_eq_ok h
    cases hone
    obtain ⟨m₃, -, hopen⟩ := bind_eq_ok hopen
    obtain ⟨⟨t, m₄⟩, -, hopen⟩ := bind_eq_ok hopen
    cases hopen
    exact ⟨rfl, _, _, _, _, rfl⟩
  | relation | operand | limitValue | offsetValue | pageName | orderItem | groupItem => cases h
  | afterRelation | afterOrderItem | clauseEnd => exact absurd h (hclause ⟨_, frames, root⟩)
  | afterLimit | orderSeparator | afterGroupItem =>
    rw [Machine.step] at h
    dsimp only at h
    rw [Machine.separatorOrClause, if_neg (by simp)] at h
    exact absurd h (hclause _)

/-- **Behind every `between` of a run that ends with a tree, its `and` is found.** -/
theorem findsAnd_of_run {before : List Token} {between : Token} (hbetween : between.kind = .keyword .between)
    (hbefore : ∀ word ∈ before, word.kind.isLast = false)
    (h : runTokens m (before ++ between :: rest) = .ok tree) : findsAnd 0 rest = true := by
  induction hlength : before.length using Nat.strongRecOn generalizing before m with
  | ind length ih =>
    subst hlength
    cases before with
    | nil =>
      have hlast : between.kind.isLast = false := isLast_of_eq hbetween rfl
      obtain ⟨m₁, used, hstep, hrun⟩ := step_of_runTokens hlast h
      obtain ⟨rfl, hopens⟩ := opensBetween_of_step hbetween hstep
      exact findsAnd_of_opensBetween hopens hrun
    | cons first before =>
      obtain ⟨hfirst, hrest⟩ := List.forall_mem_cons.1 hbefore
      obtain ⟨m₁, used, hstep, hrun⟩ := step_of_runTokens hfirst h
      cases used with
      | false => exact ih _ (Nat.lt_succ_self _) hrest hrun rfl
      | true =>
        -- the `between` may be the second token of a step, behind a `not`
        obtain ⟨next, more, hmore, -, hopens⟩ := Machine.uses_step m₁ hstep
        cases before with
        | nil =>
          cases hmore
          exact findsAnd_of_opensBetween (hopens hbetween) hrun
        | cons second before =>
          obtain ⟨-, hrest⟩ := List.forall_mem_cons.1 hrest
          exact ih _ (Nat.lt_succ_of_lt (Nat.lt_succ_self _)) hrest hrun rfl

/-- In front of a token that is used, none is the last. -/
theorem isLast_of_upToLast {tokens before : List Token}
    (h : Source.upToLast tokens = before ++ token :: rest) : ∀ word ∈ before, word.kind.isLast = false := by
  induction tokens generalizing before with
  | nil => simp [Source.upToLast] at h
  | cons first tokens ih =>
    cases before with
    | nil => simp
    | cons word before =>
      rw [Source.upToLast] at h
      split at h
      · simp at h
      · next hfirst =>
        obtain ⟨rfl, htail⟩ := List.cons.inj h
        exact List.forall_mem_cons.2 ⟨by simpa using hfirst, ih htail⟩

/-- **A source with a `between` whose `and` is missing is not right.** -/
theorem findsAnd_of_parse {source : String} {before : List Token} {between : Token}
    (hlex : Source.lex source = before ++ between :: rest) (hbetween : between.kind = .keyword .between)
    (h : parse source = .ok tree) : findsAnd 0 rest = true := by
  rw [parse, parseTokens, hlex] at h
  cases hrun : runTokens .start (before ++ between :: rest) with
  | error fault =>
    rw [hrun] at h
    cases h
  | ok tree => exact findsAnd_of_run hbetween (isLast_of_upToLast hlex) hrun

end RelationSql.Grammar
