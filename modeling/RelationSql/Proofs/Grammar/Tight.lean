import RelationSql.Proofs.Grammar.Places
import RelationSql.Proofs.Grammar.Sealed

/-!
# Expressions that bind tighter than `between`

A tight expression is built from operands with operators of the tier of comparisons or above, signs, methods,
units, and whatever may stand in parentheses. Over everything that binds looser, its tokens are read in the
same way, to nodes that all close to one tree (`Tight.isRead`): no operator outside of it takes a part of it,
and it takes no part of what is in front.
-/

namespace RelationSql.Grammar

open RelationSql.Source (Span Token TokenKind)

variable {token opening closing : Token} {words rest more : List Token} {above left base : List Frame}
  {root : List Tree} {t u c d : Tree} {p : Tag → Bool} {f : Frame} {o : Operator}

/-! ## Expressions -/

/-- Somewhere the words are a condition in these parentheses, and all other parentheses are in pairs. -/
structure Enclosed (opening : Token) (words : List Token) (closing : Token) : Prop where
  opens : opening.kind = .symbol .leftParen
  closes : closing.kind = .symbol .rightParen
  inside : matched 0 words = true
  reads : ∃ place last tree, last.kind = .finish ∧
    runTokens ⟨.operand, [⟨.filter, place, [.leaf .relation "a"]⟩], []⟩
      (opening :: (words ++ [closing, last])) = .ok tree

/-- The words are a number, with or without a sign. -/
inductive Numeral : List Token → Prop
  | unsigned {token : Token} {t : Tree} (h : leafOf? token.kind = some t) (hnumber : isNumber t = true) :
      Numeral [token]
  | signed {minus number : Token} {t : Tree} (hminus : minus.kind = .symbol .minus)
      (h : signedLiteral? minus number = some t) : Numeral [minus, number]

/-- The words are an expression whose operators outside of parentheses all bind at least as tightly as a
comparison. -/
inductive Tight : List Token → Prop
  | operand {token : Token} {t : Tree} (h : leafOf? token.kind = some t) : Tight [token]
  | numeral {words : List Token} (h : Numeral words) : Tight words
  | parenthesis {opening closing : Token} {words : List Token} (h : Enclosed opening words closing) :
      Tight (opening :: (words ++ [closing]))
  | before {words : List Token} {token : Token} {o : Operator} (h : Tight words)
      (ho : prefixOperator? token.kind = some o) (hnot : o ≠ .not)
      (hunsigned : token.kind = .symbol .minus → signedLiteral? token (following token words) = none) :
      Tight (token :: words)
  | between {words more : List Token} {token : Token} {o : Operator} (h : Tight words)
      (ho : operatorOf? token.kind = some o) (htier : 30 ≤ operatorTier o)
      (hlist : o = .in_ → opensList more) (hmore : Tight more) : Tight (words ++ token :: more)
  | method {words : List Token} {dot name : Token} {method : String} (h : Tight words)
      (hdot : dot.kind = .symbol .dot) (hname : name.kind = .name method) : Tight (words ++ [dot, name])
  | interval {words : List Token} {token : Token} {word unit : String} (h : Numeral words)
      (hword : token.kind = .name word) (hunit : intervalUnit? word = some unit) : Tight (words ++ [token])

theorem Tight.ne_nil (h : Tight words) : words ≠ [] := by
  cases h with
  | operand _ | parenthesis _ | before _ _ _ _ => simp
  | numeral h => cases h <;> simp
  | between _ _ _ _ _ | method _ _ _ | interval _ _ _ => simp

/-! ### Places -/

theorem shift_zero (token : Token) : token.shift 0 = token := by
  obtain ⟨kind, span⟩ := token
  simp [Token.shift, Span.shift]

/-- Further on, tokens touch each other as before. -/
theorem relaid_shift (tokens : List Token) (count : Nat) :
    Source.Relaid tokens (tokens.map (Token.shift count)) := by
  have hshift := Source.Relaid.shift tokens 0 count
  rwa [List.map_congr_left fun token _ => shift_zero token, List.map_id'] at hshift

theorem signedLiteral?_shift (minus next : Token) (count : Nat) :
    signedLiteral? (minus.shift count) (next.shift count) = signedLiteral? minus next := by
  have htouches : (minus.shift count).span.touches (next.shift count).span =
      minus.span.touches next.span := by
    show (count + minus.span.stop == count + next.span.start) = (minus.span.stop == next.span.start)
    rw [Bool.eq_iff_iff, beq_iff_eq, beq_iff_eq]
    omega
  rw [signedLiteral?, signedLiteral?, htouches]
  rfl

theorem following_shift (token : Token) (words : List Token) (count : Nat) :
    following (token.shift count) (words.map (Token.shift count)) = (following token words).shift count := by
  cases words <;> rfl

theorem matched_shift (d : Nat) (words : List Token) (count : Nat) :
    matched d (words.map (Token.shift count)) = matched d words := by
  induction words generalizing d with
  | nil => rfl
  | cons token words ih =>
    rw [List.map_cons]
    cases hparen : isParenthesis token.kind with
    | false =>
      have hparen' : isParenthesis (token.shift count).kind = false := hparen
      rw [matched_plain hparen, matched_plain hparen', ih]
    | true =>
      simp only [isParenthesis, Bool.or_eq_true, beq_iff_eq] at hparen
      rcases hparen with hkind | hkind
      · have hkind' : (token.shift count).kind = .symbol .leftParen := hkind
        rw [matched_opening hkind, matched_opening hkind', ih]
      · have hkind' : (token.shift count).kind = .symbol .rightParen := hkind
        rw [matched_closing hkind, matched_closing hkind', ih]

theorem opensList_shift (h : opensList words) (count : Nat) : opensList (words.map (Token.shift count)) := by
  cases words with
  | nil => exact h
  | cons token words => exact h

/-- **A run further on ends with the same tree.** -/
theorem runTokens_shift {last : Token} (hlast : last.kind = .finish) {m : Machine} {tree : Tree}
    (h : runTokens m (words ++ [last]) = .ok tree) (count : Nat) :
    runTokens (m.relocate (Span.shift count)) (words.map (Token.shift count) ++ [last.shift count]) =
      .ok tree := by
  have hisLast : last.kind.isLast = true := by
    rw [hlast]
    rfl
  have hmoved := @runTokens_relocate (Span.shift count) words last hisLast m
    (relaid_shift (words ++ [last]) count)
  rw [h, List.map_append] at hmoved
  exact hmoved

theorem Enclosed.shift (h : Enclosed opening words closing) (count : Nat) :
    Enclosed (opening.shift count) (words.map (Token.shift count)) (closing.shift count) where
  opens := h.opens
  closes := h.closes
  inside := (matched_shift 0 words count).trans h.inside
  reads := by
    obtain ⟨place, last, tree, hlast, hrun⟩ := h.reads
    refine ⟨place.shift count, last.shift count, tree, hlast, ?_⟩
    have hsplit : opening :: (words ++ [closing, last]) = (opening :: (words ++ [closing])) ++ [last] := by
      simp
    rw [hsplit] at hrun
    have hshifted := runTokens_shift hlast hrun count
    rw [List.map_cons, List.map_append, List.cons_append, List.append_assoc] at hshifted
    exact hshifted

theorem Numeral.shift (h : Numeral words) (count : Nat) : Numeral (words.map (Token.shift count)) := by
  cases h with
  | unsigned h hnumber => exact .unsigned h hnumber
  | signed hminus h => exact .signed hminus ((signedLiteral?_shift _ _ count).trans h)

/-- **A tight expression is one further on.** -/
theorem Tight.shift (h : Tight words) (count : Nat) : Tight (words.map (Token.shift count)) := by
  induction h with
  | operand h => exact .operand h
  | numeral h => exact .numeral (h.shift count)
  | parenthesis h =>
    rw [List.map_cons, List.map_append]
    exact .parenthesis (h.shift count)
  | before h ho hnot hunsigned ih =>
    refine .before ih ho hnot fun hminus => ?_
    rw [following_shift, signedLiteral?_shift]
    exact hunsigned hminus
  | between h ho htier hlist hmore ih ihmore =>
    rw [List.map_append, List.map_cons]
    exact .between ih ho htier (fun hin => opensList_shift (hlist hin) count) ihmore
  | method h hdot hname ih =>
    rw [List.map_append]
    exact .method ih hdot hname
  | interval h hword hunit =>
    rw [List.map_append]
    exact .interval (h.shift count) hword hunit

/-! ## Reading -/

/-- The nodes are operators of the tier of comparisons or above. -/
def Tightly (above : List Frame) : Prop := ∀ f ∈ above, ∃ o, f.tag = .op o ∧ 30 ≤ operatorTier o

/-- The innermost node of the base binds looser than a comparison. -/
def Loose (base : List Frame) : Prop := ∃ f below, base = f :: below ∧ tier f.tag < 30

theorem Loose.ne_nil (h : Loose base) : base ≠ [] := by
  obtain ⟨f, below, rfl, -⟩ := h
  simp

/-- What spares looser nodes stops at the base. -/
theorem Loose.stops (h : Loose base) {least : Int} (hleast : 30 ≤ least) (left : List Frame) :
    Stops (fun tag => decide (least ≤ tier tag)) left base := by
  obtain ⟨f, below, rfl, htier⟩ := h
  refine .inr ⟨f, below, rfl, ?_⟩
  rw [decide_eq_false_iff_not]
  omega

/-- Tight nodes can all be closed. -/
theorem Tightly.closeAbove (h : Tightly above) (p : Tag → Bool) (t : Tree) :
    ∃ left u, Grammar.closeAbove p t above = some (left, u) ∧ Tightly left := by
  induction above generalizing t with
  | nil => exact ⟨[], t, rfl, h⟩
  | cons f above ih =>
    obtain ⟨⟨o, htag, htier⟩, habove⟩ := List.forall_mem_cons.1 h
    rw [Grammar.closeAbove]
    split
    · have hcomplete : ({ f with done := t :: f.done } : Frame).isComplete = true := by
        have hne : o ≠ .between := by
          rintro rfl
          exact absurd htier (by decide)
        simp [Frame.isComplete, htag, hne]
      rw [if_pos hcomplete]
      exact ih habove _
    · exact ⟨_, _, rfl, h⟩

theorem Tightly.lt_tier (h : Tightly above) (hf : f ∈ above) : 29 < tier f.tag := by
  obtain ⟨o, htag, htier⟩ := h f hf
  rw [htag]
  exact Int.lt_of_lt_of_le (by decide) htier

theorem Tightly.cons (h : Tightly above) (ho : 30 ≤ operatorTier o) (s : Span) (done : List Tree) :
    Tightly (⟨.op o, s, done⟩ :: above) :=
  List.forall_mem_cons.2 ⟨⟨o, rfl, ho⟩, h⟩

/-- Over everything that binds looser, the words lead from one state to another. -/
def Crosses (from_ : Above) (words : List Token) (dest : Above) : Prop :=
  ∀ base root more, Loose base →
    runTokens (from_.upon base root) (words ++ more) = runTokens (dest.upon base root) more

section Crosses

variable {from_ middle dest : Above}

theorem Crosses.trans (h : Crosses from_ words middle) (h' : Crosses middle rest dest) :
    Crosses from_ (words ++ rest) dest := by
  intro base root more hbase
  rw [List.append_assoc, h base root _ hbase, h' base root more hbase]

/-- One token by itself. -/
theorem crosses_one (hlast : token.kind.isLast = false)
    (hstep : ∀ base root rest, Loose base →
      (from_.upon base root).step token rest = .ok (dest.upon base root, false)) :
    Crosses from_ [token] dest := by
  intro base root more hbase
  exact runTokens_of_step hlast (hstep base root more hbase)

/-- Two tokens that one step uses up. -/
theorem crosses_two {next : Token} (hlast : token.kind.isLast = false)
    (hstep : ∀ base root rest, Loose base →
      (from_.upon base root).step token (next :: rest) = .ok (dest.upon base root, true)) :
    Crosses from_ [token, next] dest := by
  intro base root more hbase
  exact runTokens_of_step hlast (hstep base root more hbase)

end Crosses

theorem isLast_of_leafOf? (h : leafOf? token.kind = some t) : token.kind.isLast = false := by
  cases hkind : token.kind with
  | invalid reason => rw [hkind] at h; cases h
  | finish => rw [hkind] at h; cases h
  | _ => rfl

/-- An operand becomes the newest tree. -/
theorem crosses_leaf (h : leafOf? token.kind = some t) (above : List Frame) :
    Crosses (.operand above) [token] (.after t above) := by
  refine crosses_one (isLast_of_leafOf? h) fun base root rest hbase => step_leaf h ?_ rest
  simp [hbase.ne_nil]

/-- So does a number with its sign. -/
theorem crosses_signed {minus number : Token} (hminus : minus.kind = .symbol .minus)
    (h : signedLiteral? minus number = some t) (above : List Frame) :
    Crosses (.operand above) [minus, number] (.after t above) := by
  refine crosses_two (by rw [hminus]; rfl) fun base root rest hbase => step_signed hminus h ?_
  simp [hbase.ne_nil]

theorem isNumber_eq_true_of_signedLiteral? {minus number : Token} (h : signedLiteral? minus number = some t) :
    isNumber t = true := by
  unfold signedLiteral? at h
  split at h
  · split at h
    · cases h
      rfl
    · cases h
      rfl
    · cases h
  · cases h

/-- A number becomes the newest tree. -/
theorem Numeral.crosses (h : Numeral words) (above : List Frame) :
    ∃ t, isNumber t = true ∧ Crosses (.operand above) words (.after t above) := by
  cases h with
  | unsigned h hnumber => exact ⟨_, hnumber, crosses_leaf h above⟩
  | signed hminus h => exact ⟨_, isNumber_eq_true_of_signedLiteral? h, crosses_signed hminus h above⟩

/-- What stands in parentheses becomes the newest tree. -/
theorem Enclosed.crosses (h : Enclosed opening words closing) (above : List Frame) :
    ∃ t, Crosses (.operand above) (opening :: (words ++ [closing])) (.after t above) := by
  obtain ⟨place, last, tree, hlast, hrun⟩ := h.reads
  have hopens : ∀ (above base : List Frame) root rest,
      runTokens ((Above.operand above).upon base root) (opening :: rest) =
        runTokens ((Above.operand [⟨.par, opening.span, []⟩]).upon (above ++ base) root) rest := by
    intro above base root rest
    exact runTokens_of_step (by rw [h.opens]; rfl) (step_opening h.opens rest)
  have hsealed : Sealed (Above.operand [⟨.par, opening.span, []⟩]).frames :=
    ⟨by simp [Above.frames, Frame.InExpression], rfl⟩
  have hsomewhere := (hopens [] [⟨.filter, place, [.leaf .relation "a"]⟩] [] _).symm.trans hrun
  obtain ⟨inner, closing', more', t, hsplit, hreads⟩ := run_sealed _ hsealed (by simp) hsomewhere
  -- the parenthesis is closed by this token and by none before it
  have hinside : matched 0 inner = true := hreads.inside
  obtain rfl := eq_of_matched h.inside hinside h.closes hreads.kind hsplit
  obtain ⟨rfl, -⟩ := List.cons.inj (List.append_cancel_left hsplit)
  refine ⟨t, fun base root more hbase => ?_⟩
  rw [List.cons_append, List.append_assoc, hopens]
  exact hreads.run (above ++ base) root more (by simp [hbase.ne_nil])

theorem le_tier_of_prefixOperator? (h : prefixOperator? token.kind = some o) (hnot : o ≠ .not) :
    30 ≤ operatorTier o := by
  cases hkind : token.kind with
  | keyword keyword =>
    rw [hkind] at h
    cases keyword <;> cases h
    exact absurd rfl hnot
  | symbol symbol =>
    rw [hkind] at h
    cases symbol <;> cases h <;> decide
  | _ => rw [hkind] at h; cases h

/-- An operator in front of its operand is opened. -/
theorem crosses_before (ho : prefixOperator? token.kind = some o)
    (hunsigned : token.kind = .symbol .minus → signedLiteral? token (following token words) = none)
    (hne : words ≠ []) (above : List Frame) {dest : Above}
    (h : Crosses (.operand (⟨.op o, token.span, []⟩ :: above)) words dest) :
    Crosses (.operand above) (token :: words) dest := by
  obtain ⟨next, words, rfl⟩ := List.exists_cons_of_ne_nil hne
  intro base root more hbase
  have hstep : ((Above.operand above).upon base root).step token (next :: words ++ more) =
      .ok ((Above.operand (⟨.op o, token.span, []⟩ :: above)).upon base root, false) :=
    step_before ho hunsigned
  rw [List.cons_append, runTokens_of_step (isLast_of_prefixOperator? ho) hstep]
  exact h base root more hbase

/-- An operator between operands is opened over what is in front. -/
theorem crosses_between (ho : operatorOf? token.kind = some o) (htier : 30 ≤ operatorTier o)
    (hlist : o = .in_ → opensList words) (hclose : closeAbove (closedBy o) t above = some (left, u))
    {dest : Above} (h : Crosses (.operand (⟨.op o, token.span, [u]⟩ :: left)) words dest) :
    Crosses (.after t above) (token :: words) dest := by
  intro base root more hbase
  -- an `and` binds too loosely to be the operator
  have hand : token.kind = .keyword .and → Machine.waitsForAnd true (above ++ base) = false := by
    intro hkind
    rw [hkind] at ho
    cases ho
    exact absurd htier (by decide)
  have hstep : ((Above.after t above).upon base root).step token (words ++ more) =
      .ok ((Above.operand (⟨.op o, token.span, [u]⟩ :: left)).upon base root, false) :=
    step_between ho (fun hin => opensList_append (hlist hin) more) hand hclose (hbase.stops htier left)
  rw [List.cons_append, runTokens_of_step (isLast_of_operatorOf? ho) hstep]
  exact h base root more hbase

/-- **Over everything that binds looser, a tight expression leaves tight nodes and a tree.** -/
theorem Tight.crosses (h : Tight words) (habove : Tightly above) :
    ∃ t left, Tightly left ∧ Crosses (.operand above) words (.after t left) := by
  induction h generalizing above with
  | operand h => exact ⟨_, above, habove, crosses_leaf h above⟩
  | numeral h =>
    obtain ⟨t, -, hcrosses⟩ := h.crosses above
    exact ⟨t, above, habove, hcrosses⟩
  | parenthesis h =>
    obtain ⟨t, hcrosses⟩ := h.crosses above
    exact ⟨t, above, habove, hcrosses⟩
  | @before words token o h ho hnot hunsigned ih =>
    obtain ⟨t, left, hleft, hcrosses⟩ :=
      ih (habove.cons (le_tier_of_prefixOperator? ho hnot) token.span [])
    exact ⟨t, left, hleft, crosses_before ho hunsigned h.ne_nil above hcrosses⟩
  | @between words more token o h ho htier hlist hmore ih ihmore =>
    obtain ⟨t, front, hfront, hcrosses⟩ := ih habove
    obtain ⟨left, u, hclose, hleft⟩ := hfront.closeAbove (closedBy o) t
    obtain ⟨t', left', hleft', hcrosses'⟩ := ihmore (hleft.cons htier token.span [u])
    exact ⟨t', left', hleft', hcrosses.trans (crosses_between ho htier hlist hclose hcrosses')⟩
  | @method words dot name method h hdot hname ih =>
    obtain ⟨t, front, hfront, hcrosses⟩ := ih habove
    obtain ⟨left, u, hclose, hleft⟩ :=
      hfront.closeAbove (fun tag => decide (tier .function ≤ tier tag)) t
    have hmethod : Crosses (.after t front) [dot, name]
        (.after (.node .function [u, .leaf .method method]) left) := by
      refine crosses_two (by rw [hdot]; rfl) fun base root rest hbase => ?_
      exact step_method hdot hname hclose (hbase.stops (by decide) left)
    exact ⟨_, left, hleft, hcrosses.trans hmethod⟩
  | @interval words token word unit h hword hunit =>
    obtain ⟨t, hnumber, hcrosses⟩ := h.crosses above
    obtain ⟨left, u, hclose, hleft⟩ :=
      habove.closeAbove (fun tag => decide (tier .interval ≤ tier tag)) t
    have hinterval : Crosses (.after t above) [token] (.after (.node .interval [u, .atom unit]) left) := by
      refine crosses_one (by rw [hword]; rfl) fun base root rest hbase => ?_
      exact step_interval hword hunit hnumber hclose (hbase.stops (by decide) left) rest
    exact ⟨_, left, hleft, hcrosses.trans hinterval⟩

end RelationSql.Grammar
