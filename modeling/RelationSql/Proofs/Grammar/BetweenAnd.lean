import Mathlib.Data.List.Forall2
import Mathlib.Tactic.Common
import RelationSql.Proofs.Grammar.Owing
import RelationSql.Proofs.Grammar.Tight

/-!
# The `and` of a `between`

A `between` takes the next `and` that is not inside of parentheses, and every `and` behind that one joins
conditions. Its operands are tight expressions, so none of their operators is still open under the `and`. An
`and` behind a word that would close the `between` is not its own, and without one of its own there is no tree.
-/

namespace RelationSql.Grammar

open RelationSql.Source (Span Token TokenKind Words)

variable {token last : Token} {words rest more lower upper : List Token} {above left base : List Frame}
  {root : List Tree} {t u c d v lo hi : Tree} {p : Tag → Bool} {f : Frame} {place : Span}

/-! ## Conditions -/

/-- Over everything that binds looser, all that the words open closes to one tree. -/
inductive Expresses (words : List Token) (c : Tree) : Prop
  | mk {t : Tree} {left : List Frame} (tight : Tightly left)
      (closes : closeAbove (fun _ => true) t left = some ([], c))
      (crosses : Crosses (.operand []) words (.after t left))

/-- The filter that is open while its condition is read. -/
def filterAt (place : Span) : Frame := ⟨.filter, place, [.leaf .relation "a"]⟩

/-- Over a filter, all that the words open closes to one condition, and an `and` closes all of it. -/
inductive Fulfils (words : List Token) (c : Tree) : Prop
  | mk {t : Tree} {left : List Frame} (firm : ∀ f ∈ left, 27 ≤ tier f.tag)
      (closes : closeAbove (fun _ => true) t left = some ([], c))
      (run : ∀ place root more, runTokens ((Above.operand []).upon [filterAt place] root) (words ++ more) =
        runTokens ((Above.after t left).upon [filterAt place] root) more)

/-- A tight expression is read as some tree. -/
theorem Tight.expresses (h : Tight words) : ∃ c, Expresses words c := by
  have hnil : Tightly [] := by simp [Tightly]
  obtain ⟨t, left, hleft, hcrosses⟩ := h.crosses hnil
  obtain ⟨left', c, hclose, -⟩ := hleft.closeAbove (fun _ => true) t
  obtain rfl := closeAbove_true hclose
  exact ⟨c, .mk hleft hclose hcrosses⟩

theorem loose_filterAt (place : Span) : Loose [filterAt place] :=
  ⟨_, [], rfl, (by decide : tier .filter < 30)⟩

theorem Tightly.firm (h : Tightly above) : ∀ f ∈ above, 27 ≤ tier f.tag := by
  intro f hf
  obtain ⟨o, htag, htier⟩ := h f hf
  rw [htag]
  exact Int.le_trans (by decide) htier

theorem Expresses.fulfils (h : Expresses words c) : Fulfils words c := by
  obtain ⟨tight, closes, crosses⟩ := h
  exact .mk tight.firm closes fun place root more => crosses _ root more (loose_filterAt place)

/-- Firm nodes are no parentheses. -/
theorem isParen_of_firm (h : ∀ f ∈ above, 27 ≤ tier f.tag) : ∀ f ∈ above, ¬ f.tag.isParen = true := by
  intro f hf hparen
  have htier := h f hf
  cases htag : f.tag with
  | par | clausePar => rw [htag] at htier; exact absurd htier (by decide)
  | _ => rw [htag] at hparen; cases hparen

/-- At the end of the source, the filter holds the condition. -/
theorem Fulfils.finish (h : Fulfils words c) (hlast : last.kind = .finish) (place : Span) :
    runTokens ((Above.operand []).upon [filterAt place] []) (words ++ [last]) = .ok (filtered "a" c) := by
  obtain @⟨t, left, firm, closes, run⟩ := h
  rw [run]
  exact runTokens_finish_filter (isParen_of_firm firm) closes hlast place

/-- A filter waits for no `and`. -/
theorem waitsForAnd_filterAt (above : List Frame) (place : Span) (waiting : Bool) :
    Machine.waitsForAnd waiting (above ++ [filterAt place]) = Machine.waitsForAnd waiting above := by
  induction above generalizing waiting with
  | nil => rfl
  | cons f above ih => rw [List.cons_append, Machine.waitsForAnd, Machine.waitsForAnd, ih]

/-- Operators that bind no tighter than `and` close firm nodes. -/
theorem closeAbove_firm {o : Operator} (h : ∀ f ∈ above, operatorTier o ≤ tier f.tag)
    (closes : closeAbove (fun _ => true) t above = some ([], c)) :
    closeAbove (closedBy o) t above = some ([], c) := by
  rw [← closes]
  exact closeAbove_congr fun f hf => decide_eq_true (h f hf)

theorem stops_filterAt (o : Operator) (left : List Frame) (place : Span) :
    Stops (closedBy o) left [filterAt place] := .inr ⟨_, [], rfl, closedBy_filter o⟩

/-- An `and` behind a condition takes all of it. -/
theorem Fulfils.and (h : Fulfils words c) (hd : Expresses rest d) (htoken : token.kind = .keyword .and) :
    Fulfils (words ++ token :: rest) (.node (.op .and) [c, d]) := by
  obtain @⟨t, left, firm, closes, run⟩ := h
  obtain @⟨u, inner, tight, closes', crosses⟩ := hd
  have hoperator : operatorOf? token.kind = some .and := by
    rw [htoken]
    rfl
  have hclose : closeAbove (closedBy .and) t left = some ([], c) := closeAbove_firm firm closes
  let opened : Frame := ⟨.op .and, token.span, [c]⟩
  have hfirm : ∀ f ∈ inner ++ [opened], 27 ≤ tier f.tag := by
    rw [List.forall_mem_append, List.forall_mem_singleton]
    exact ⟨tight.firm, Int.le_refl _⟩
  have hcloses : closeAbove (fun _ => true) u (inner ++ [opened]) =
      some ([], .node (.op .and) [c, d]) := by
    rw [closeAbove_append closes']
    rfl
  refine .mk hfirm hcloses fun place root more => ?_
  have hwaits : Machine.waitsForAnd true (left ++ [filterAt place]) = false :=
    (waitsForAnd_filterAt left place true).trans (waitsForAnd_of_closeAbove closes)
  have hstep : ((Above.after t left).upon [filterAt place] root).step token (rest ++ more) =
      .ok ((Above.operand [opened]).upon [filterAt place] root, false) :=
    step_between hoperator (fun hin => nomatch hin) (fun _ => hwaits) hclose (stops_filterAt _ _ _)
  have hloose : Loose [opened, filterAt place] := ⟨opened, _, rfl, (by decide : tier (.op .and) < 30)⟩
  have hrest := crosses [opened, filterAt place] root more hloose
  rw [List.append_assoc, run, upon_append]
  exact (runTokens_of_step (isLast_of_operatorOf? hoperator) hstep).trans hrest

/-! ## Bounds -/

/-- The `and` between the bounds of a `between` is its own. -/
theorem run_bounds (hlower : Expresses lower lo) (hupper : Expresses upper hi)
    (hand : token.kind = .keyword .and) (v : Tree) (span : Span) :
    ∃ t left, Tightly left ∧ closeAbove (fun _ => true) t left = some ([], hi) ∧
      ∀ base root more,
        runTokens ((Above.operand [⟨.op .between, span, [v]⟩]).upon base root)
          (lower ++ token :: (upper ++ more)) =
        runTokens ((Above.after t (left ++ [⟨.op .between, span, [lo, v]⟩])).upon base root) more := by
  obtain @⟨t, inner, tight, closes, crosses⟩ := hlower
  obtain @⟨u, left, tight', closes', crosses'⟩ := hupper
  refine ⟨u, left, tight', closes', fun base root more => ?_⟩
  let waiting : Frame := ⟨.op .between, span, [v]⟩
  let bounded : Frame := ⟨.op .between, span, [lo, v]⟩
  have hloose (f : Frame) (hf : f.tag = .op .between) : Loose (f :: base) := by
    refine ⟨f, base, rfl, ?_⟩
    rw [hf]
    decide
  -- the operators of the lower bound bind tighter, so this `and` finds the `between` under them
  have hwaits : Machine.waitsForAnd true (inner ++ waiting :: base) = true := by
    rw [waitsForAnd_above (fun f hf => tight.lt_tier hf)]
    rfl
  have hclose : closeAbove (fun tag => tag != .op .between) t inner = some ([], lo) := by
    rw [← closes]
    refine closeAbove_congr fun f hf => ?_
    obtain ⟨o, htag, htier⟩ := tight f hf
    have hne : o ≠ .between := by
      rintro rfl
      exact absurd htier (by decide)
    simpa [htag] using hne
  have hstep : ((Above.after t inner).upon (waiting :: base) root).step token (upper ++ more) =
      .ok ((Above.operand []).upon (bounded :: base) root, false) :=
    step_upTo hand hwaits hclose (.inr ⟨waiting, base, rfl, rfl⟩) _
  have hlast : token.kind.isLast = false := by
    rw [hand]
    rfl
  have hlower := crosses (waiting :: base) root (token :: (upper ++ more)) (hloose waiting rfl)
  have hupper := crosses' (bounded :: base) root more (hloose bounded rfl)
  rw [upon_append]
  exact hlower.trans ((runTokens_of_step hlast hstep).trans hupper)

/-- Operators that bind looser than a comparison close tight nodes. -/
theorem closeAbove_tightly {o : Operator} (ho : operatorTier o ≤ 30) (tight : Tightly above)
    (closes : closeAbove (fun _ => true) t above = some ([], c)) :
    closeAbove (closedBy o) t above = some ([], c) := by
  refine closeAbove_firm (fun f hf => ?_) closes
  obtain ⟨o', htag, htier⟩ := tight f hf
  rw [htag]
  exact Int.le_trans ho htier

/-- **A `between` with its bounds is one condition.** -/
theorem Expresses.between (h : Expresses words v) (hlower : Expresses lower lo)
    (hupper : Expresses upper hi) {between and : Token} (hbetween : between.kind = .keyword .between)
    (hand : and.kind = .keyword .and) :
    Fulfils (words ++ between :: (lower ++ and :: upper)) (.node (.op .between) [v, lo, hi]) := by
  obtain @⟨t, inner, tight, closes, crosses⟩ := h
  obtain ⟨u, left, tight', closes', hbounds⟩ := run_bounds hlower hupper hand v between.span
  let bounded : Frame := ⟨.op .between, between.span, [lo, v]⟩
  have hfirm : ∀ f ∈ left ++ [bounded], 27 ≤ tier f.tag := by
    rw [List.forall_mem_append, List.forall_mem_singleton]
    exact ⟨tight'.firm, (by decide : 27 ≤ tier (.op .between))⟩
  have hcloses : closeAbove (fun _ => true) u (left ++ [bounded]) =
      some ([], .node (.op .between) [v, lo, hi]) := by
    rw [closeAbove_append closes']
    rfl
  refine .mk hfirm hcloses fun place root more => ?_
  have hoperator : operatorOf? between.kind = some .between := by
    rw [hbetween]
    rfl
  have hstep : ((Above.after t inner).upon [filterAt place] root).step between
      (lower ++ and :: (upper ++ more)) =
        .ok ((Above.operand [⟨.op .between, between.span, [v]⟩]).upon [filterAt place] root, false) := by
    refine step_between hoperator (fun hin => nomatch hin) (fun hkind => ?_)
      (closeAbove_tightly (by decide) tight closes) (stops_filterAt _ _ _)
    rw [hbetween] at hkind
    cases hkind
  have hrun := (crosses _ root _ (loose_filterAt place)).trans
    ((runTokens_of_step (isLast_of_operatorOf? hoperator) hstep).trans (hbounds _ root more))
  simpa using hrun

/-- **A `not between` is that condition under a `not`.** -/
theorem Expresses.notBetween (h : Expresses words v) (hlower : Expresses lower lo)
    (hupper : Expresses upper hi) {not between and : Token} (hnot : not.kind = .keyword .not)
    (hbetween : between.kind = .keyword .between) (hand : and.kind = .keyword .and) :
    Fulfils (words ++ not :: between :: (lower ++ and :: upper))
      (.node (.op .not) [.node (.op .between) [v, lo, hi]]) := by
  obtain @⟨t, inner, tight, closes, crosses⟩ := h
  obtain ⟨u, left, tight', closes', hbounds⟩ := run_bounds hlower hupper hand v between.span
  let bounded : Frame := ⟨.op .between, between.span, [lo, v]⟩
  let negating : Frame := ⟨.op .not, not.span, []⟩
  have hfirm : ∀ f ∈ left ++ [bounded] ++ [negating], 27 ≤ tier f.tag := by
    rw [List.forall_mem_append, List.forall_mem_append, List.forall_mem_singleton,
      List.forall_mem_singleton]
    exact ⟨⟨tight'.firm, (by decide : 27 ≤ tier (.op .between))⟩, (by decide : 27 ≤ tier (.op .not))⟩
  have hcloses : closeAbove (fun _ => true) u (left ++ [bounded] ++ [negating]) =
      some ([], .node (.op .not) [.node (.op .between) [v, lo, hi]]) := by
    rw [List.append_assoc, closeAbove_append closes']
    rfl
  refine .mk hfirm hcloses fun place root more => ?_
  have hnegatable : Machine.negatable? between.kind = some .between := by
    rw [hbetween]
    rfl
  have hlast : not.kind.isLast = false := by
    rw [hnot]
    rfl
  have hstep : ((Above.after t inner).upon [filterAt place] root).step not
      (between :: (lower ++ and :: (upper ++ more))) =
        .ok ((Above.operand [⟨.op .between, between.span, [v]⟩]).upon [negating, filterAt place] root,
          true) :=
    step_negated hnot hnegatable (fun hin => nomatch hin) (closeAbove_tightly (by decide) tight closes)
      (stops_filterAt _ _ _)
  have hrun := (crosses _ root _ (loose_filterAt place)).trans
    ((runTokens_of_step hlast hstep).trans (hbounds [negating, filterAt place] root more))
  rw [upon_append]
  simpa using hrun

/-! ## Places -/

/-- **Further on, the words of a tight expression are read as the same tree.** -/
theorem Tight.expresses_shift (h : Tight words) :
    ∃ c, ∀ count, Expresses (words.map (Token.shift count)) c := by
  obtain ⟨c, hc⟩ := h.expresses
  refine ⟨c, fun count => ?_⟩
  obtain ⟨d, hd⟩ := (h.shift count).expresses
  -- both are what the filter holds at the end of the same source, which is moved as a whole
  let last : Token := ⟨.finish, ⟨0, 0⟩⟩
  have hlast : last.kind = .finish := rfl
  have hlast' : (last.shift count).kind = .finish := rfl
  have hrun := hc.fulfils.finish hlast ⟨0, 0⟩
  have hmoved := hd.fulfils.finish hlast' (Span.shift count ⟨0, 0⟩)
  have hsame := (runTokens_shift rfl hrun count).symm.trans hmoved
  cases hsame
  exact hd

/-- The place in front of a shift. -/
def unshift (count : Nat) (span : Span) : Span := ⟨span.start - count, span.stop - count⟩

theorem relocate_unshift (count : Nat) (words : List Token) :
    (words.map (Token.shift count)).map (Token.relocate (unshift count)) = words := by
  rw [List.map_map]
  refine (List.map_congr_left fun token _ => ?_).trans (List.map_id words)
  obtain ⟨kind, span⟩ := token
  simp [Token.shift, Token.relocate, Span.shift, unshift]

/-- Tokens that end with no minus may be followed by another end of the source. -/
theorem relaid_append_last {tokens tokens' : List Token} {last' : Token} (h : Source.Relaid tokens tokens')
    (hkind : last'.kind = last.kind) (hminus : ∀ token ∈ tokens.getLast?, token.kind ≠ .symbol .minus) :
    Source.Relaid (tokens ++ [last]) (tokens' ++ [last']) := by
  induction h with
  | nil => exact .cons hkind (by simp) .nil
  | @cons token token' tokens tokens' hsame htouches hrest ih =>
    cases hrest with
    | nil =>
      have hne : token.kind ≠ .symbol .minus := hminus token rfl
      exact .cons hsame (fun heq => absurd heq hne) (.cons hkind (by simp) .nil)
    | cons hsame' htouches' hrest' =>
      exact .cons hsame htouches (ih hminus)

/-- **A run ends with the same tree further in front.** -/
theorem runTokens_unshift {tokens : List Token}
    (hminus : ∀ token ∈ tokens.getLast?, token.kind ≠ .symbol .minus) (hlast : last.kind = .finish)
    {m : Machine} {tree : Tree} {count : Nat}
    (h : runTokens m (tokens.map (Token.shift count) ++ [last]) = .ok tree) :
    runTokens (m.relocate (unshift count)) (tokens ++ [last.relocate (unshift count)]) = .ok tree := by
  have hisLast : last.kind.isLast = true := by
    rw [hlast]
    rfl
  have hrelaid := Source.Relaid.shift tokens count 0
  have hzero : tokens.map (Token.shift 0) = tokens :=
    (List.map_congr_left fun token _ => shift_zero token).trans (List.map_id _)
  rw [hzero] at hrelaid
  have hback : (tokens.map (Token.shift count) ++ [last]).map (Token.relocate (unshift count)) =
      tokens ++ [last.relocate (unshift count)] := by
    rw [List.map_append, relocate_unshift, List.map_singleton]
  have hends : ∀ token ∈ (tokens.map (Token.shift count)).getLast?, token.kind ≠ .symbol .minus := by
    intro token hmem
    rw [List.getLast?_map, Option.mem_map] at hmem
    obtain ⟨token, hmem, rfl⟩ := hmem
    exact hminus token hmem
  have hall := @relaid_append_last last _ _ (last.relocate (unshift count)) hrelaid rfl hends
  rw [← hback] at hall
  have hmoved := @runTokens_relocate (unshift count) _ _ hisLast m hall
  rw [h, hback] at hmoved
  exact hmoved

/-! ## Texts -/

/-- The text is an expression that binds tighter than `between`. -/
def IsTight (text : String) : Prop :=
  ∃ words, Words 0 text.toList words ∧ Tight words

/-- The text behind a `where`. -/
theorem words_where {text : String} (h : Words 0 text.toList words) :
    ∃ span span' count, Words 0 ("a where " ++ text).toList
      (⟨.name "a", span⟩ :: ⟨.keyword .where_, span'⟩ :: words.map (Token.shift count)) := by
  have hname : Source.read 'a' [] = ⟨.name "a", ['a'], []⟩ := rfl
  have hwhere : Source.read 'w' "here".toList = ⟨.keyword .where_, "where".toList, []⟩ := rfl
  obtain ⟨span', count, hboth⟩ := (Words.one hname rfl).beside h hwhere rfl
  refine ⟨⟨0, Source.bytes ['a']⟩, span', count, ?_⟩
  rw [String.toList_append]
  exact hboth

/-- What is parsed behind a `where`. -/
theorem parse_where {text : String} (h : Words 0 text.toList words) :
    ∃ place count last, last.kind = .finish ∧ ∀ tree,
      parse ("a where " ++ text) = .ok tree ↔
        runTokens ((Above.operand []).upon [filterAt place] [])
          (words.map (Token.shift count) ++ [last]) = .ok tree := by
  obtain ⟨span, span', count, hwords⟩ := words_where h
  obtain ⟨last, hlast, hlex⟩ := Source.lex_of_words hwords
  refine ⟨span', count, last, hlast, fun tree => ?_⟩
  have hrun := @runTokens_where "a" ⟨.name "a", span⟩ ⟨.keyword .where_, span'⟩ rfl rfl
    (words.map (Token.shift count) ++ [last])
  have hfilter : (⟨.operand, [⟨.filter, span', [.leaf .relation "a"]⟩], []⟩ : Machine) =
      (Above.operand []).upon [filterAt span'] [] := rfl
  rw [parse, hlex, List.cons_append, List.cons_append, hrun, hfilter]
  cases runTokens ((Above.operand []).upon [filterAt span'] []) (words.map (Token.shift count) ++ [last]) with
  | ok other => simp
  | error fault => simp

/-- **Whatever can stand in parentheses may stand in those of a tight expression.** -/
theorem isTight_parenthesised {text : String} (h : Words 0 text.toList words)
    (hmatched : matched 0 words = true) {tree : Tree} (hparse : parse ("a where (" ++ text ++ ")") = .ok tree) :
    IsTight ("(" ++ text ++ ")") := by
  obtain ⟨span, span', count, hparen⟩ := h.parenthesised
  have htext : ("(" ++ text ++ ")").toList = '(' :: (text.toList ++ [')']) := by
    rw [String.toList_append, String.toList_append]
    rfl
  rw [← htext] at hparen
  obtain ⟨place, count', last, hlast, hrun⟩ := parse_where hparen
  have hsource : "a where (" ++ text ++ ")" = "a where " ++ ("(" ++ text ++ ")") := by
    rw [← String.append_assoc, ← String.append_assoc]
    rfl
  rw [hsource, hrun] at hparse
  refine ⟨_, hparen, .parenthesis ⟨rfl, rfl, (matched_shift 0 words count).trans hmatched, ?_⟩⟩
  have hends : ∀ token ∈ (⟨.symbol .leftParen, span⟩ ::
      (words.map (Token.shift count) ++ [⟨.symbol .rightParen, span'⟩]) : List Token).getLast?,
      token.kind ≠ .symbol .minus := by
    intro token hmem
    rw [← List.cons_append, List.getLast?_concat, Option.mem_some_iff] at hmem
    rw [← hmem]
    simp
  have hback := runTokens_unshift hends hlast hparse
  rw [List.cons_append, List.append_assoc] at hback
  exact ⟨unshift count' place, last.relocate (unshift count'), tree, hlast, hback⟩

/-! ## Sources -/

/-- The text is read as this tree over everything that binds looser, wherever it stands. -/
def Expressing (text : String) (c : Tree) : Prop :=
  ∃ words, Words 0 text.toList words ∧ ∀ count, Expresses (words.map (Token.shift count)) c

/-- The text is read as this condition, wherever it stands. -/
def Fulfilling (text : String) (c : Tree) : Prop :=
  ∃ words, Words 0 text.toList words ∧ ∀ count, Fulfils (words.map (Token.shift count)) c

theorem IsTight.expressing {text : String} (h : IsTight text) : ∃ c, Expressing text c := by
  obtain ⟨words, hwords, htight⟩ := h
  obtain ⟨c, hc⟩ := htight.expresses_shift
  exact ⟨c, words, hwords, hc⟩

theorem Expressing.fulfilling {text : String} (h : Expressing text c) : Fulfilling text c := by
  obtain ⟨words, hwords, hc⟩ := h
  exact ⟨words, hwords, fun count => (hc count).fulfils⟩

/-- A condition is parsed behind a `where`. -/
theorem Fulfilling.parse {text : String} (h : Fulfilling text c) :
    Grammar.parse ("a where " ++ text) = .ok (filtered "a" c) := by
  obtain ⟨words, hwords, hc⟩ := h
  obtain ⟨place, count, last, hlast, hrun⟩ := parse_where hwords
  exact (hrun _).2 ((hc count).finish hlast place)

/-- A condition with a further one. -/
theorem Fulfilling.and {text text' : String} (h : Fulfilling text c) (h' : Expressing text' d) :
    Fulfilling (text ++ " and " ++ text') (.node (.op .and) [c, d]) := by
  obtain ⟨words, hwords, hc⟩ := h
  obtain ⟨words', hwords', hd⟩ := h'
  have hread : Source.read 'a' "nd".toList = ⟨.keyword .and, "and".toList, []⟩ := rfl
  obtain ⟨span, count, hboth⟩ := hwords.beside hwords' hread rfl
  refine ⟨words ++ ⟨.keyword .and, span⟩ :: words'.map (Token.shift count), ?_, fun count' => ?_⟩
  · rw [String.toList_append, String.toList_append, List.append_assoc]
    exact hboth
  · rw [List.map_append, List.map_cons, shift_shift]
    exact (hc count').and (hd (count' + count)) rfl

/-- A text between two bounds. -/
theorem Expressing.between {text lower upper : String} (h : Expressing text v) (hlower : Expressing lower lo)
    (hupper : Expressing upper hi) :
    Fulfilling (text ++ " between " ++ lower ++ " and " ++ upper) (.node (.op .between) [v, lo, hi]) := by
  obtain ⟨words, hwords, hv⟩ := h
  obtain ⟨words', hwords', hlo⟩ := hlower
  obtain ⟨words'', hwords'', hhi⟩ := hupper
  have hread : Source.read 'b' "etween".toList = ⟨.keyword .between, "between".toList, []⟩ := rfl
  have hread' : Source.read 'a' "nd".toList = ⟨.keyword .and, "and".toList, []⟩ := rfl
  obtain ⟨span, count, hfirst⟩ := hwords.beside hwords' hread rfl
  obtain ⟨span', count', hboth⟩ := hfirst.beside hwords'' hread' rfl
  refine ⟨words ++ ⟨.keyword .between, span⟩ :: words'.map (Token.shift count) ++
    ⟨.keyword .and, span'⟩ :: words''.map (Token.shift count'), ?_, fun moved => ?_⟩
  · simp only [String.toList_append, List.append_assoc]
    simpa using hboth
  · simp only [List.map_append, List.map_cons, shift_shift, List.append_assoc, List.cons_append]
    exact (hv moved).between (hlo (moved + count)) (hhi (moved + count')) rfl rfl

/-- A text that is not between two bounds. -/
theorem Expressing.notBetween {text lower upper : String} (h : Expressing text v)
    (hlower : Expressing lower lo) (hupper : Expressing upper hi) :
    Fulfilling (text ++ " not between " ++ lower ++ " and " ++ upper)
      (.node (.op .not) [.node (.op .between) [v, lo, hi]]) := by
  obtain ⟨words, hwords, hv⟩ := h
  obtain ⟨words', hwords', hlo⟩ := hlower
  obtain ⟨words'', hwords'', hhi⟩ := hupper
  have hread : Source.read 'b' "etween".toList = ⟨.keyword .between, "between".toList, []⟩ := rfl
  have hread' : Source.read 'n' "ot".toList = ⟨.keyword .not, "not".toList, []⟩ := rfl
  have hread'' : Source.read 'a' "nd".toList = ⟨.keyword .and, "and".toList, []⟩ := rfl
  obtain ⟨span, count, hbehind⟩ := hwords'.behind hread rfl
  obtain ⟨span', count', hfirst⟩ := hwords.beside hbehind hread' rfl
  obtain ⟨span'', count'', hboth⟩ := hfirst.beside hwords'' hread'' rfl
  refine ⟨words ++ ⟨.keyword .not, span'⟩ ::
      (⟨.keyword .between, span⟩ :: words'.map (Token.shift count)).map (Token.shift count') ++
    ⟨.keyword .and, span''⟩ :: words''.map (Token.shift count''), ?_, fun moved => ?_⟩
  · simp only [String.toList_append, List.append_assoc]
    simpa using hboth
  · simp only [List.map_append, List.map_cons, shift_shift, List.append_assoc, List.cons_append]
    exact (hv moved).notBetween (hlo (moved + (count' + count))) (hhi (moved + count'')) rfl rfl rfl

/-- A condition with further ones behind it. -/
def joinedTexts (first : String) (conditions : List String) : String :=
  conditions.foldl (fun text condition => text ++ " and " ++ condition) first

/-- A condition that is joined with further ones from the left. -/
def joinedTrees (first : Tree) (conditions : List Tree) : Tree :=
  conditions.foldl (fun tree condition => .node (.op .and) [tree, condition]) first

/-- Further conditions join the first from the left. -/
theorem Fulfilling.joined {texts : List String} {trees : List Tree}
    (htexts : List.Forall₂ Expressing texts trees) {text : String} (h : Fulfilling text c) :
    Fulfilling (joinedTexts text texts) (joinedTrees c trees) := by
  induction htexts generalizing text c with
  | nil => exact h
  | cons hfirst _ ih => exact ih (h.and hfirst)

theorem exists_expressing {texts : List String} (h : ∀ text ∈ texts, IsTight text) :
    ∃ trees, List.Forall₂ Expressing texts trees := by
  induction texts with
  | nil => exact ⟨[], .nil⟩
  | cons text texts ih =>
    obtain ⟨hfirst, hrest⟩ := List.forall_mem_cons.1 h
    obtain ⟨c, hc⟩ := hfirst.expressing
    obtain ⟨trees, htrees⟩ := ih hrest
    exact ⟨c :: trees, .cons hc htrees⟩

/-- **A `between` takes the next `and`, and those behind it join further conditions; a source in which the
words of its bound lead to none is not right.** -/
theorem parse_between_and :
    (∀ (text lower upper : String) (conditions : List String), IsTight text → IsTight lower →
      IsTight upper → (∀ condition ∈ conditions, IsTight condition) →
      ∃ v lo hi trees, parse ("a where " ++ text) = .ok (filtered "a" v) ∧
        parse ("a where " ++ lower) = .ok (filtered "a" lo) ∧
        parse ("a where " ++ upper) = .ok (filtered "a" hi) ∧
        List.Forall₂ (fun condition t => parse ("a where " ++ condition) = .ok (filtered "a" t))
          conditions trees ∧
        parse ("a where " ++
            joinedTexts (text ++ " between " ++ lower ++ " and " ++ upper) conditions) =
          .ok (filtered "a" (joinedTrees (.node (.op .between) [v, lo, hi]) trees)) ∧
        parse ("a where " ++
            joinedTexts (text ++ " not between " ++ lower ++ " and " ++ upper) conditions) =
          .ok (filtered "a" (joinedTrees (.node (.op .not) [.node (.op .between) [v, lo, hi]]) trees))) ∧
    ∀ (source : String) (before : List Token) (between : Token) (rest : List Token) (tree : Tree),
      Source.lex source = before ++ between :: rest → between.kind = .keyword .between →
      findsAnd 0 rest = false → parse source ≠ .ok tree := by
  constructor
  · intro text lower upper conditions htext hlower hupper hconditions
    obtain ⟨v, hv⟩ := htext.expressing
    obtain ⟨lo, hlo⟩ := hlower.expressing
    obtain ⟨hi, hhi⟩ := hupper.expressing
    obtain ⟨trees, htrees⟩ := exists_expressing hconditions
    refine ⟨v, lo, hi, trees, hv.fulfilling.parse, hlo.fulfilling.parse, hhi.fulfilling.parse, ?_, ?_, ?_⟩
    · exact htrees.imp fun _ _ h => h.fulfilling.parse
    · exact (Fulfilling.joined htrees (hv.between hlo hhi)).parse
    · exact (Fulfilling.joined htrees (hv.notBetween hlo hhi)).parse
  · intro source before between rest tree hlex hbetween hmissing hparse
    rw [findsAnd_of_parse hlex hbetween hparse] at hmissing
    cases hmissing

/-- A sum between a negative number and a condition in parentheses with a `between` of its own, and a
negated name; and bounds behind which no `and`, or only that of an alternative or of a scope, stands. -/
theorem parse_between_and_nested :
    (IsTight "x + 1" ∧ IsTight "-2" ∧ IsTight "(p between 1 and 2 and q)" ∧ IsTight "!y" ∧
      ∃ v lo hi trees,
        parse ("a where " ++ joinedTexts ("x + 1" ++ " between " ++ "-2" ++ " and " ++
            "(p between 1 and 2 and q)") ["!y"]) =
          .ok (filtered "a" (joinedTrees (.node (.op .between) [v, lo, hi]) trees))) ∧
    ∀ source ∈ ["a where x between 1", "a where x between 1 or y and z",
        "a where x between 1 from b where y and z"],
      ∃ before between rest, Source.lex source = before ++ between :: rest ∧
        between.kind = .keyword .between ∧ findsAnd 0 rest = false ∧ ∀ tree, parse source ≠ .ok tree := by
  constructor
  · have hsum : IsTight "x + 1" :=
      ⟨[⟨.name "x", ⟨0, 1⟩⟩, ⟨.symbol .plus, ⟨2, 3⟩⟩, ⟨.integer "1", ⟨4, 5⟩⟩],
        ⟨⟨⟨.finish, ⟨5, 5⟩⟩, rfl, by decide +kernel⟩, by simp [TokenKind.isLast]⟩,
        @Tight.between [_] [_] _ .plus (.operand rfl) rfl (by decide) (by simp) (.operand rfl)⟩
    have hnumber : IsTight "-2" :=
      ⟨[⟨.symbol .minus, ⟨0, 1⟩⟩, ⟨.integer "2", ⟨1, 2⟩⟩],
        ⟨⟨⟨.finish, ⟨2, 2⟩⟩, rfl, by decide +kernel⟩, by simp [TokenKind.isLast]⟩, .numeral (.signed rfl rfl)⟩
    have hinner : Words 0 "p between 1 and 2 and q".toList
        [⟨.name "p", ⟨0, 1⟩⟩, ⟨.keyword .between, ⟨2, 9⟩⟩, ⟨.integer "1", ⟨10, 11⟩⟩,
          ⟨.keyword .and, ⟨12, 15⟩⟩, ⟨.integer "2", ⟨16, 17⟩⟩, ⟨.keyword .and, ⟨18, 21⟩⟩,
          ⟨.name "q", ⟨22, 23⟩⟩] :=
      ⟨⟨⟨.finish, ⟨23, 23⟩⟩, rfl, by decide +kernel⟩, by simp [TokenKind.isLast]⟩
    have hparen : IsTight ("(" ++ "p between 1 and 2 and q" ++ ")") :=
      @isTight_parenthesised _ _ hinner (by decide) (filtered "a" (.node .par [.node (.op .and)
        [.node (.op .between) [.leaf .field "p", .leaf .integer "1", .leaf .integer "2"],
          .leaf .field "q"]])) (by decide +kernel)
    have hnegated : IsTight "!y" :=
      ⟨[⟨.symbol .bang, ⟨0, 1⟩⟩, ⟨.name "y", ⟨1, 2⟩⟩],
        ⟨⟨⟨.finish, ⟨2, 2⟩⟩, rfl, by decide +kernel⟩, by simp [TokenKind.isLast]⟩,
        .before (.operand rfl) rfl (by decide) (by simp)⟩
    refine ⟨hsum, hnumber, hparen, hnegated, ?_⟩
    obtain ⟨v, lo, hi, trees, -, -, -, -, hparse, -⟩ :=
      parse_between_and.1 "x + 1" "-2" "(p between 1 and 2 and q)" ["!y"] hsum hnumber hparen
        (List.forall_mem_singleton.2 hnegated)
    exact ⟨v, lo, hi, trees, hparse⟩
  · let before : List Token :=
      [⟨.name "a", ⟨0, 1⟩⟩, ⟨.keyword .where_, ⟨2, 7⟩⟩, ⟨.name "x", ⟨8, 9⟩⟩]
    let between : Token := ⟨.keyword .between, ⟨10, 17⟩⟩
    have hbare : Source.lex "a where x between 1" =
        before ++ between :: [⟨.integer "1", ⟨18, 19⟩⟩, ⟨.finish, ⟨19, 19⟩⟩] := by
      decide +kernel
    have halternative : Source.lex "a where x between 1 or y and z" =
        before ++ between :: [⟨.integer "1", ⟨18, 19⟩⟩, ⟨.keyword .or, ⟨20, 22⟩⟩, ⟨.name "y", ⟨23, 24⟩⟩,
          ⟨.keyword .and, ⟨25, 28⟩⟩, ⟨.name "z", ⟨29, 30⟩⟩, ⟨.finish, ⟨30, 30⟩⟩] := by
      decide +kernel
    have hscope : Source.lex "a where x between 1 from b where y and z" =
        before ++ between :: [⟨.integer "1", ⟨18, 19⟩⟩, ⟨.keyword .from_, ⟨20, 24⟩⟩, ⟨.name "b", ⟨25, 26⟩⟩,
          ⟨.keyword .where_, ⟨27, 32⟩⟩, ⟨.name "y", ⟨33, 34⟩⟩, ⟨.keyword .and, ⟨35, 38⟩⟩,
          ⟨.name "z", ⟨39, 40⟩⟩, ⟨.finish, ⟨40, 40⟩⟩] := by
      decide +kernel
    simp only [List.forall_mem_cons, List.not_mem_nil, false_imp_iff, implies_true, and_true]
    refine ⟨⟨_, _, _, hbare, rfl, rfl, fun tree => ?_⟩, ⟨_, _, _, halternative, rfl, rfl, fun tree => ?_⟩,
      ⟨_, _, _, hscope, rfl, rfl, fun tree => ?_⟩⟩
    · exact parse_between_and.2 _ _ _ _ tree hbare rfl rfl
    · exact parse_between_and.2 _ _ _ _ tree halternative rfl rfl
    · exact parse_between_and.2 _ _ _ _ tree hscope rfl rfl

end RelationSql.Grammar
