import RelationSql.Proofs.Grammar.Layout
import RelationSql.Proofs.Grammar.Plain
import RelationSql.Proofs.Grammar.Wrapped
import RelationSql.Proofs.Source.Spelling
import RelationSql.Proofs.Walk.Yields

/-!
# Rendered conditions

Where fields render as their names, a condition renders as a text that lays out the words of the
condition with its alternatives in parentheses (`writes_condition`).
-/

namespace RelationSql

open Grammar Source WalkM

/-! ## Fragments -/

/-- Bringing back what was hidden turns the first text into the second, whatever follows. -/
def Restores (text plain : List Char) : Prop :=
  ∀ rest, Fragment.restore (text ++ rest) = plain ++ Fragment.restore rest

theorem Restores.append {as bs cs ds : List Char} (h : Restores as cs) (h' : Restores bs ds) :
    Restores (as ++ bs) (cs ++ ds) := by
  intro rest
  rw [List.append_assoc, h, h', List.append_assoc]

theorem Restores.cons {c : Char} (hc : c ≠ Fragment.escape) {cs ds : List Char}
    (h : Restores cs ds) : Restores (c :: cs) (c :: ds) := by
  intro rest
  rw [List.cons_append, Fragment.restore_cons hc, h, List.cons_append]

theorem Restores.self {cs : List Char} (h : Fragment.escape ∉ cs) : Restores cs cs := by
  induction cs with
  | nil => exact fun rest => rfl
  | cons c cs ih =>
    rw [List.mem_cons, not_or] at h
    exact (ih h.2).cons (Ne.symm h.1)

theorem Restores.protect (cs : List Char) : Restores (Fragment.protect cs) cs :=
  fun rest => Fragment.restore_protect_append cs rest

/-- The text, with its literals brought back, is read into tokens of this kind wherever a delimiter follows. -/
def Recovers (P : List Token → Prop) (text : List Char) : Prop :=
  ∃ plain, Restores text plain ∧ LaidOut P plain

namespace Recovers

variable {P Q R : List Token → Prop} {cs ds : List Char}

theorem mono (h : Recovers P cs) (hPQ : ∀ tokens, P tokens → AreRead tokens → Q tokens) : Recovers Q cs := by
  obtain ⟨ps, hrestores, hlaid⟩ := h
  exact ⟨ps, hrestores, hlaid.mono hPQ⟩

/-- A blank stands between two parts. -/
theorem spaced (h : Recovers P cs) (h' : Recovers Q ds)
    (hR : ∀ tokens tokens', P tokens → Q tokens' → R (tokens ++ tokens')) : Recovers R (cs ++ ' ' :: ds) := by
  obtain ⟨ps, hrestores, hlaid⟩ := h
  obtain ⟨qs, hrestores', hlaid'⟩ := h'
  exact ⟨_, hrestores.append (hrestores'.cons (by decide)), hlaid.spaced hlaid' hR⟩

/-- A comma stands between two parts. -/
theorem comma (h : Recovers P cs) (h' : Recovers Q ds)
    (hR : ∀ tokens (comma : Token) tokens', P tokens → comma.kind = .symbol .comma → Q tokens' →
      R (tokens ++ comma :: tokens')) : Recovers R (cs ++ ',' :: ds) := by
  obtain ⟨ps, hrestores, hlaid⟩ := h
  obtain ⟨qs, hrestores', hlaid'⟩ := h'
  exact ⟨_, hrestores.append (hrestores'.cons (by decide)), hlaid.comma hlaid' hR⟩

/-- Parentheses stand around a part. -/
theorem par (h : Recovers P cs) (hR : ∀ (opening : Token) tokens (closing : Token),
      opening.kind = .symbol .leftParen → P tokens → closing.kind = .symbol .rightParen →
      R (opening :: (tokens ++ [closing]))) : Recovers R ('(' :: cs ++ [')']) := by
  obtain ⟨ps, hrestores, hlaid⟩ := h
  exact ⟨_, (hrestores.cons (by decide)).append (.self (by decide)), hlaid.par hR⟩

/-- A minus stands in front. -/
theorem minus (h : Recovers P cs) (hQ : ∀ (minus : Token) tokens, minus.kind = .symbol .minus → P tokens →
      Q (minus :: tokens)) : Recovers Q ('-' :: cs) := by
  obtain ⟨ps, hrestores, hlaid⟩ := h
  exact ⟨_, hrestores.cons (by decide), hlaid.sign (.symbol .minus) rfl (fun _ => rfl) hQ⟩

end Recovers

/-- The text, with its literals brought back, lays out the words. -/
def Spelled (words : List Item) (text : List Char) : Prop :=
  ∃ plain, Restores text plain ∧ Lays words plain

namespace Spelled

variable {xs ys : List Item} {cs ds : List Char}

theorem of_lays (h : Lays xs cs) (hescape : Fragment.escape ∉ cs) : Spelled xs cs :=
  ⟨cs, .self hescape, h⟩

theorem spaced (hx : Spelled xs cs) (hy : Spelled ys ds) : Spelled (xs ++ ys) (cs ++ ' ' :: ds) :=
  Recovers.spaced hx hy fun _ _ hks hjs => hks.append hjs

theorem comma (hx : Spelled xs cs) (hy : Spelled ys ds) :
    Spelled (xs ++ .comma :: ys) (cs ++ ',' :: ds) :=
  Recovers.comma hx hy fun _ _ _ hks hcomma hjs => hks.append (.cons hcomma hjs)

theorem par (hx : Spelled xs cs) : Spelled (.opening :: xs ++ [.closing]) ('(' :: cs ++ [')']) :=
  Recovers.par hx fun _ _ _ hopening hks hclosing => .cons hopening (hks.append (.cons hclosing .nil))

end Spelled

/-! ## Signs and words of SQL -/

/-- The spelling of an operator in SQL is read as the operator. -/
theorem exists_read_sql {o : Operator} (h : isBinary o = true ∨ o = .between) :
    ∃ c cs kind, o.sql.toList = c :: cs ∧ read c cs = ⟨kind, c :: cs, []⟩ ∧
      operatorOf? kind = some o ∧ Fragment.escape ∉ c :: cs := by
  cases o with
  | not | bang | changeSign | invertBits => simp [isBinary] at h
  | _ => exact ⟨_, _, _, rfl, rfl, rfl, by decide⟩

/-- An operator between two operands. -/
theorem spelled_operator {o : Operator} (h : isBinary o = true ∨ o = .between) :
    Spelled [.operator o] o.sql.toList := by
  obtain ⟨c, cs, kind, heq, hread, ho, hescape⟩ := exists_read_sql h
  have hspelled : (Item.operator o).SpelledBy kind := ho
  rw [heq]
  exact .of_lays (Lays.lexeme hspelled (isLast_of_operatorOf? ho) hread) hescape

/-! ## Leaves -/

/-- The rendering of a leaf where fields render as their names. -/
def leafText? : Tree → Option String
  | .node .field [.atom name] => some name
  | .node .integer [.atom digits] => some digits
  | .node .real [.atom digits] => some digits
  | .node .string [.atom content] => some (Fragment.protectText (Value.quoteText content))
  | .node .null [] => some "NULL"
  | _ => none

/-- The rendering of the leaf can be read as the leaf. -/
def Legible (t : Tree) : Prop :=
  ∃ text, leafText? t = some text ∧ Spelled [.operand t] text.toList

/-- A leaf is rendered as it is. -/
theorem wrapBelow_of_legible {t : Tree} (h : Legible t) : wrapBelow t = t := by
  obtain ⟨text, htext, -⟩ := h
  unfold leafText? at htext
  split at htext
  all_goals first | rfl | cases htext

theorem escape_not_mem_of_forall {cs : List Char} {p : Char → Prop} (h : ∀ c ∈ cs, p c)
    (hp : ¬ p Fragment.escape) : Fragment.escape ∉ cs :=
  fun hmem => hp (h _ hmem)

/-- The name of a field. -/
theorem legible_name {c : Char} {cs : List Char} {name : String}
    (h : (read c cs).kind = .name name) : Legible (.leaf .field name) := by
  obtain ⟨d, ds, rfl, hall, hread⟩ := read_name h
  refine ⟨_, rfl, ?_⟩
  rw [String.toList_ofList]
  have hspelled : (Item.operand (.leaf .field (String.ofList (d :: ds)))).SpelledBy
      (.name (String.ofList (d :: ds))) := rfl
  exact .of_lays (Lays.lexeme hspelled rfl hread) (escape_not_mem_of_forall hall (by decide))

/-- The tags and the tokens of whole numbers and of numbers with a point. -/
inductive IsNumber : Tag → (String → TokenKind) → Prop where
  | integer : IsNumber .integer .integer
  | real : IsNumber .real .real

/-- The spelling of a number. -/
theorem IsNumber.read {tag : Tag} {kind : String → TokenKind} (h : IsNumber tag kind) {c : Char}
    {cs : List Char} {digits : String} (hkind : (Source.read c cs).kind = kind digits) :
    ∃ d ds, digits.toList = d :: ds ∧ Fragment.escape ∉ d :: ds ∧
      Source.read d ds = ⟨kind digits, d :: ds, []⟩ := by
  have hnumber : kind digits = .integer digits ∨ kind digits = .real digits := by
    cases h
    · exact Or.inl rfl
    · exact Or.inr rfl
  obtain ⟨d, ds, hdigits, hall, hread⟩ := read_number hkind hnumber
  refine ⟨d, ds, ?_, escape_not_mem_of_forall hall (by decide), hread⟩
  rw [hdigits, String.toList_ofList]

/-- A number. -/
theorem legible_number {tag : Tag} {kind : String → TokenKind} (h : IsNumber tag kind) {c : Char}
    {cs : List Char} {digits : String} (hkind : (read c cs).kind = kind digits) :
    Legible (.leaf tag digits) := by
  obtain ⟨d, ds, hdigits, hescape, hread⟩ := h.read hkind
  refine ⟨digits, by cases h <;> rfl, ?_⟩
  rw [hdigits]
  have hspelled : (Item.operand (.leaf tag digits)).SpelledBy (kind digits) := by
    cases h <;> rfl
  exact .of_lays (Lays.lexeme hspelled (by cases h <;> rfl) hread) hescape

/-- A number with a minus in front. -/
theorem legible_minus {tag : Tag} {kind : String → TokenKind} (h : IsNumber tag kind) {c : Char}
    {cs : List Char} {digits : String} (hkind : (read c cs).kind = kind digits) :
    Legible (.leaf tag ("-" ++ digits)) := by
  obtain ⟨d, ds, hdigits, hescape, hread⟩ := h.read hkind
  refine ⟨"-" ++ digits, by cases h <;> rfl, ?_⟩
  have htext : ("-" ++ digits).toList = '-' :: d :: ds := by
    rw [String.toList_append, hdigits]
    rfl
  rw [htext]
  refine .of_lays (Lays.signed hread (by cases h <;> rfl) ?_) ?_
  · intro minus number htouches hnumber
    rw [signedLiteral?, if_pos htouches, hnumber]
    cases h <;> rfl
  · exact fun hmem => (List.mem_cons.1 hmem).elim (by decide) hescape

/-- A number with a minus in front that touches it. -/
theorem legible_signed {minus number : Token} {t : Tree}
    (h : signedLiteral? minus number = some t)
    (hread : ∃ c cs, number.kind = (read c cs).kind) : Legible t := by
  obtain ⟨c, cs, hkind⟩ := hread
  unfold signedLiteral? at h
  split at h
  · split at h
    · next digits hdigits =>
      cases h
      exact legible_minus .integer (hkind.symm.trans hdigits)
    · next digits hdigits =>
      cases h
      exact legible_minus .real (hkind.symm.trans hdigits)
    · cases h
  · cases h

/-- A text without quotes and backslashes. -/
theorem legible_text {content : String} (hquote : '\'' ∉ content.toList)
    (hbackslash : '\\' ∉ content.toList) : Legible (.leaf .string content) := by
  have hliteral : (Value.quoteText content).toList = '\'' :: (content.toList ++ ['\'']) := by
    have hplain : ∀ {cs : List Char}, '\'' ∉ cs →
        (cs.flatMap fun c => if c = '\'' then ['\'', '\''] else [c]) = cs := by
      intro cs hcs
      induction cs with
      | nil => rfl
      | cons c cs ih =>
        rw [List.mem_cons, not_or] at hcs
        rw [List.flatMap_cons, if_neg (Ne.symm hcs.1), ih hcs.2]
        rfl
    rw [Value.quoteText, String.toList_ofList, Value.wrapDoubled, hplain hquote, List.cons_append]
  refine ⟨_, rfl, ?_⟩
  rw [Fragment.protectText, String.toList_ofList, hliteral]
  have hread := read_text hquote hbackslash
  rw [String.ofList_toList] at hread
  have hspelled : (Item.operand (.leaf .string content)).SpelledBy (.text content) := rfl
  exact ⟨_, .protect _, Lays.lexeme hspelled rfl hread⟩

/-- The word `null`. -/
theorem legible_null : Legible (.node .null []) := by
  have hspelled : (Item.operand (.node .null [])).SpelledBy (.keyword .null) := rfl
  have hread : read 'N' "ULL".toList = ⟨.keyword .null, "NULL".toList, []⟩ := rfl
  exact ⟨_, rfl, .of_lays (Lays.lexeme hspelled rfl hread) (by decide)⟩

/-- **The leaves of a plain source are legible.** -/
theorem standsFor_legible {source : String} : StandsFor Legible (lex source) where
  literal := by
    intro token hmem hplain t ht
    have hread : ∃ c cs, token.kind = (read c cs).kind := by
      rcases exists_read_of_mem_lex hmem with hkind | hread
      · rw [hkind] at ht
        cases ht
      · exact hread
    obtain ⟨c, cs, hread⟩ := hread
    unfold operandOf? at ht
    split at ht
    · next hkind =>
      cases ht
      exact legible_number .integer (hread.symm.trans hkind)
    · next hkind =>
      cases ht
      exact legible_number .real (hread.symm.trans hkind)
    · next content hkind =>
      cases ht
      rw [hkind] at hplain
      simp only [isPlainLiteral, Bool.and_eq_true, Bool.not_eq_true', List.contains_eq_mem,
        decide_eq_false_iff_not] at hplain
      exact legible_text hplain.1 hplain.2
    · next hkind =>
      cases ht
      exact legible_name (hread.symm.trans hkind)
    · cases ht
      exact legible_null
    · cases ht
  signed := by
    intro minus hminus number hnumber t ht
    rcases exists_read_of_mem_lex hnumber with hkind | hread
    · unfold signedLiteral? at ht
      rw [hkind] at ht
      split at ht <;> cases ht
    · exact legible_signed ht hread

/-! ## Rendering -/

/-- Fields render as their names, equalities have no form of their own, and the literals are those of
the dialect. -/
structure BareFields (host : Host) (w : Walk) : Prop where
  field : ∀ name, Yields (host.field name) w (some name)
  equal : ∀ left right, Yields (host.equal left right) w none
  unconnected : host.options.connection = none

/-- The tree renders as a text that spells the words. -/
def Writes (host : Host) (atEnd : WalkM Unit) (w : Walk) (t : Tree) (words : List Item) : Prop :=
  ∃ text, Yields (renderWith host atEnd t) w text ∧ Spelled words text.toList

variable {host : Host} {atEnd : WalkM Unit} {w : Walk}

/-- The part of a tree in a rendering. -/
abbrev partOf (host : Host) (atEnd : WalkM Unit) (t : Tree) : Part :=
  Part.ofTree (renderNode host atEnd) t

/-- The literal of a text, in single quotes. -/
theorem yields_quoteLiteral (hbare : BareFields host w) (content : String) :
    Yields (host.quoteLiteral content) w (Fragment.protectText (Value.quoteText content)) := by
  have hquery : Yields query w w.query := rfl
  unfold Host.quoteLiteral
  rw [hbare.unconnected]
  exact hquery.bind (Yields.pure _ w)

/-- A leaf renders as its text. -/
theorem yields_leaf (hbare : BareFields host w) {t : Tree} {text : String}
    (h : leafText? t = some text) : Yields (renderWith host atEnd t) w text := by
  have hatom : ∀ tag text, Yields (Part.atomChild tag [partOf host atEnd (.atom text)] 0) w text :=
    fun tag text => yields_atomChild rfl rfl tag w
  unfold leafText? at h
  split at h
  · next name =>
    rw [Option.some.injEq] at h
    subst h
    have hfield : Yields (host.resolveField name) w name :=
      (hbare.field name).bind (Yields.pure name w)
    exact (hatom .field name).bind hfield
  · next digits =>
    rw [Option.some.injEq] at h
    subst h
    exact hatom .integer digits
  · next digits =>
    rw [Option.some.injEq] at h
    subst h
    exact hatom .real digits
  · next content =>
    rw [Option.some.injEq] at h
    subst h
    exact (hatom .string content).bind (yields_quoteLiteral hbare content)
  · rw [Option.some.injEq] at h
    subst h
    exact Yields.pure "NULL" w
  · cases h

/-- An operator between its operands, where the alternative of conditions is left aside. -/
theorem yields_operator (hbare : BareFields host w) {o : Operator} (ho : isBinary o = true)
    (hor : o ≠ .or) {l r : Tree} {left right : String} (hl : Yields (renderWith host atEnd l) w left)
    (hr : Yields (renderWith host atEnd r) w right) :
    Yields (renderWith host atEnd (.node (.op o) [l, r])) w
      (Expression.infixText left o.sql right) := by
  have hbinary : ∀ o, Yields (Expression.binary o (partOf host atEnd l) (partOf host atEnd r)) w
      (Expression.infixText left o.sql right) := by
    intro o
    exact hl.bind (hr.bind (Yields.pure _ w))
  have hequality : Yields (Expression.equality host [partOf host atEnd l, partOf host atEnd r]) w
      (Expression.infixText left Operator.equal.sql right) := by
    unfold Expression.equality
    refine (yields_child rfl (.op .equal) w).bind ((yields_child rfl (.op .equal) w).bind ?_)
    exact (hbare.equal _ _).bind (hbinary .equal)
  cases o with
  | not | bang | changeSign | invertBits | between => cases ho
  | or => exact absurd rfl hor
  | equal => exact hequality
  | _ => exact hbinary _

theorem yields_or {l r : Tree} {left right : String} (hl : Yields (renderWith host atEnd l) w left)
    (hr : Yields (renderWith host atEnd r) w right) :
    Yields (renderWith host atEnd (.node (.op .or) [l, r])) w
      ("(" ++ left ++ " OR " ++ right ++ ")") := by
  show Yields (Expression.disjunction [partOf host atEnd l, partOf host atEnd r]) w _
  unfold Expression.disjunction
  refine (yields_renderChild rfl hl (.op .or)).bind ?_
  exact (yields_renderChild rfl hr (.op .or)).bind (Yields.pure _ w)

theorem yields_between {v lo hi : Tree} {value low high : String}
    (hv : Yields (renderWith host atEnd v) w value) (hlo : Yields (renderWith host atEnd lo) w low)
    (hhi : Yields (renderWith host atEnd hi) w high) :
    Yields (renderWith host atEnd (.node (.op .between) [v, lo, hi])) w
      (value ++ " BETWEEN " ++ low ++ " AND " ++ high) := by
  show Yields (Expression.betweenBounds
    [partOf host atEnd v, partOf host atEnd lo, partOf host atEnd hi]) w _
  unfold Expression.betweenBounds
  refine (yields_renderChild rfl hv (.op .between)).bind ?_
  refine (yields_renderChild rfl hlo (.op .between)).bind ?_
  exact (yields_renderChild rfl hhi (.op .between)).bind (Yields.pure _ w)

theorem yields_not_between {v lo hi : Tree} {value low high : String}
    (hv : Yields (renderWith host atEnd v) w value) (hlo : Yields (renderWith host atEnd lo) w low)
    (hhi : Yields (renderWith host atEnd hi) w high) :
    Yields (renderWith host atEnd (.node (.op .not) [.node (.op .between) [v, lo, hi]])) w
      (value ++ " NOT BETWEEN " ++ low ++ " AND " ++ high) := by
  show Yields (Expression.negation (.op .not)
    [partOf host atEnd (.node (.op .between) [v, lo, hi])]) w _
  unfold Expression.negation
  refine (yields_child rfl (.op .not) w).bind ?_
  show Yields (do
    let value ← renderWith host atEnd v
    let low ← renderWith host atEnd lo
    let high ← renderWith host atEnd hi
    return value ++ " NOT BETWEEN " ++ low ++ " AND " ++ high) w _
  exact hv.bind (hlo.bind (hhi.bind (Yields.pure _ w)))

theorem yields_not_within {o : Operator} (ho : Expression.negatesInPlace o = true) {l r : Tree}
    {left right : String} (hl : Yields (renderWith host atEnd l) w left)
    (hr : Yields (renderWith host atEnd r) w right) :
    Yields (renderWith host atEnd (.node (.op .not) [.node (.op o) [l, r]])) w
      (Expression.infixText left ("NOT " ++ o.sql) right) := by
  have hinfix : Yields (do
      let left ← renderWith host atEnd l
      let right ← renderWith host atEnd r
      return Expression.infixText left ("NOT " ++ o.sql) right) w
        (Expression.infixText left ("NOT " ++ o.sql) right) :=
    hl.bind (hr.bind (Yields.pure _ w))
  show Yields (Expression.negation (.op .not) [partOf host atEnd (.node (.op o) [l, r])]) w _
  unfold Expression.negation
  refine (yields_child rfl (.op .not) w).bind ?_
  cases o with
  | like | regexp | in_ => exact hinfix
  | _ => cases ho

/-- A negation whose `NOT` stands in front. -/
theorem yields_not_before {t : Tree} (ht : negatedWithin t = false) {text : String}
    (h : Yields (renderWith host atEnd t) w text) :
    Yields (renderWith host atEnd (.node (.op .not) [t])) w ("NOT " ++ text) := by
  have hfront : Yields (do return "NOT " ++ (← renderWith host atEnd t)) w ("NOT " ++ text) :=
    h.bind (Yields.pure _ w)
  show Yields (Expression.negation (.op .not) [partOf host atEnd t]) w _
  unfold Expression.negation
  refine (yields_child rfl (.op .not) w).bind ?_
  cases t with
  | atom => exact hfront
  | node tag ts =>
    cases tag with
    | op o =>
      rcases ts with _ | ⟨a, _ | ⟨b, _ | ⟨c, _ | ⟨d, ts⟩⟩⟩⟩
      · cases o <;> exact hfront
      · cases o <;> exact hfront
      · cases o <;> first | exact hfront | cases ht
      · cases o <;> first | exact hfront | cases ht
      · cases o <;> exact hfront
    | _ => exact hfront

/-! ## Conditions -/

/-- The rendering of a tree, and that of its negation where the `NOT` stands within it. -/
structure Written (host : Host) (atEnd : WalkM Unit) (w : Walk) (t : Tree) : Prop where
  writes : Writes host atEnd w t (items (wrapOr t))
  negated : negatedWithin t = true →
    Writes host atEnd w (.node (.op .not) [t]) (items (wrapOr (.node (.op .not) [t])))

theorem spelled_word (item : Item) (kind : TokenKind) {c : Char} {cs : List Char}
    (hread : read c cs = ⟨kind, c :: cs, []⟩) (hitem : item.SpelledBy kind)
    (hkind : kind.isLast = false) (hescape : Fragment.escape ∉ c :: cs) :
    Spelled [item] (c :: cs) :=
  .of_lays (Lays.lexeme hitem hkind hread) hescape

theorem spelled_and : Spelled [.upTo] "AND".toList :=
  spelled_word .upTo (.keyword .and) rfl rfl rfl (by decide)

theorem spelled_notWithin : Spelled [.notWithin] "NOT".toList :=
  spelled_word .notWithin (.keyword .not) rfl rfl rfl (by decide)

theorem spelled_notBefore : Spelled [.notBefore] "NOT".toList :=
  spelled_word .notBefore (.keyword .not) rfl rfl rfl (by decide)

/-- Operands with an operator between them. -/
theorem Spelled.between_operands {xs ys : List Item} {left right : String} {o : Operator}
    (ho : isBinary o = true ∨ o = .between) (hl : Spelled xs left.toList)
    (hr : Spelled ys right.toList) : Spelled (xs ++ .operator o :: ys)
      (Expression.infixText left o.sql right).toList := by
  have h := hl.spaced ((spelled_operator ho).spaced hr)
  simpa [Expression.infixText] using h

theorem isOr_of_isLeaf {t : Tree} (h : isLeaf t = true) : isOr t = false := by
  cases t with
  | atom text => rfl
  | node tag ts =>
    cases tag with
    | op o => cases h
    | _ => rfl

theorem written_leaf (hbare : BareFields host w) {t : Tree} (ht : isLeaf t = true)
    (h : Legible t) : Written host atEnd w t where
  writes := by
    have hwrap : wrapOr t = t := by
      rw [wrapOr, wrapBelow_of_legible h, parenthesised_of_isOr (isOr_of_isLeaf ht)]
    obtain ⟨text, htext, hspelled⟩ := h
    rw [hwrap, items_leaf ht]
    exact ⟨text, yields_leaf hbare htext, hspelled⟩
  negated := by
    intro hneg
    unfold negatedWithin at hneg
    split at hneg
    · cases ht
    · cases ht
    · cases hneg

theorem written_or {l r : Tree} (hl : Written host atEnd w l) (hr : Written host atEnd w r) :
    Written host atEnd w (.node (.op .or) [l, r]) where
  writes := by
    obtain ⟨left, hleft, hxs⟩ := hl.writes
    obtain ⟨right, hright, hys⟩ := hr.writes
    have hsql : Operator.or.sql = "OR" := rfl
    have h := (Spelled.between_operands (o := .or) (Or.inl rfl) hxs hys).par
    refine ⟨_, yields_or hleft hright, ?_⟩
    rw [wrapOr_or, items_par, itemsAll_singleton]
    simpa [Expression.infixText, hsql, items] using h
  negated := fun hneg => nomatch hneg

theorem written_binary (hbare : BareFields host w) {o : Operator} (ho : isBinary o = true)
    (hor : o ≠ .or) {l r : Tree} (hl : Written host atEnd w l) (hr : Written host atEnd w r) :
    Written host atEnd w (.node (.op o) [l, r]) := by
  obtain ⟨left, hleft, hxs⟩ := hl.writes
  obtain ⟨right, hright, hys⟩ := hr.writes
  refine ⟨?_, ?_⟩
  · refine ⟨_, yields_operator hbare ho hor hleft hright, ?_⟩
    rw [wrapOr_op hor, List.map_cons, List.map_singleton, items_binary ho]
    exact Spelled.between_operands (Or.inl ho) hxs hys
  · intro hneg
    have hplace : Expression.negatesInPlace o = true := by
      obtain ⟨-, -, -, -, hbetween⟩ := isBinary_iff.1 ho
      simpa [negatedWithin] using hneg
    refine ⟨_, yields_not_within hplace hleft hright, ?_⟩
    have h := hxs.spaced (spelled_notWithin.spaced ((spelled_operator (Or.inl ho)).spaced hys))
    rw [wrapOr_op (by simp), List.map_singleton, wrapOr_op hor, List.map_cons, List.map_singleton,
      items_not_within hplace]
    simpa [Expression.infixText] using h

theorem written_between {v lo hi : Tree} (hv : Written host atEnd w v)
    (hlo : Written host atEnd w lo) (hhi : Written host atEnd w hi) :
    Written host atEnd w (.node (.op .between) [v, lo, hi]) := by
  obtain ⟨value, hvalue, hxs⟩ := hv.writes
  obtain ⟨low, hlow, hys⟩ := hlo.writes
  obtain ⟨high, hhigh, hzs⟩ := hhi.writes
  have hwrap : wrapOr (.node (.op .between) [v, lo, hi]) =
      .node (.op .between) [wrapOr v, wrapOr lo, wrapOr hi] := wrapOr_op (by simp) _
  have hsql : Operator.between.sql = "BETWEEN" := rfl
  have hbounds := (spelled_operator (Or.inr rfl)).spaced (hys.spaced (spelled_and.spaced hzs))
  refine ⟨?_, ?_⟩
  · refine ⟨_, yields_between hvalue hlow hhigh, ?_⟩
    have h := hxs.spaced hbounds
    rw [hwrap, items_between]
    simpa [hsql] using h
  · intro _
    refine ⟨_, yields_not_between hvalue hlow hhigh, ?_⟩
    have h := hxs.spaced (spelled_notWithin.spaced hbounds)
    rw [wrapOr_op (by simp), List.map_singleton, hwrap, items_not_between]
    simpa [hsql] using h

/-- Whether a `not` goes into an operator depends on the operator and the number of operands only. -/
theorem negatedWithin_map (o : Operator) (f : Tree → Tree) (ts : List Tree) :
    negatedWithin (.node (.op o) (ts.map f)) = negatedWithin (.node (.op o) ts) := by
  rcases ts with _ | ⟨a, _ | ⟨b, _ | ⟨c, _ | ⟨d, ts⟩⟩⟩⟩ <;> cases o <;> rfl

theorem negatedWithin_of_tag {t : Tree} (h : ∀ o, t.tag? ≠ some (.op o)) :
    negatedWithin t = false := by
  unfold negatedWithin
  split
  · exact absurd rfl (h _)
  · exact absurd rfl (h _)
  · rfl

theorem negatedWithin_wrapOr {t : Tree} (h : negatedWithin t = false) :
    negatedWithin (wrapOr t) = false := by
  rcases parenthesised_cases (wrapBelow t) with heq | ⟨ts, -, heq⟩
  · rw [wrapOr, heq]
    by_cases htag : ∃ o, t.tag? = some (.op o)
    · obtain ⟨o, ho⟩ := htag
      cases t with
      | atom text => cases ho
      | node tag ts =>
        cases ho
        rwa [wrapBelow_op, negatedWithin_map]
    · apply negatedWithin_of_tag
      intro o ho
      rw [tag?_wrapBelow] at ho
      exact htag ⟨o, ho⟩
  · rw [wrapOr, heq]
    rfl

theorem written_not {t : Tree} (ht : Written host atEnd w t) :
    Written host atEnd w (.node (.op .not) [t]) where
  writes := by
    cases hneg : negatedWithin t with
    | true => exact ht.negated hneg
    | false =>
      obtain ⟨text, htext, hspelled⟩ := ht.writes
      refine ⟨_, yields_not_before hneg htext, ?_⟩
      have h := spelled_notBefore.spaced hspelled
      rw [wrapOr_op (by simp), List.map_singleton, items_not_before (negatedWithin_wrapOr hneg)]
      simpa using h
  negated := fun hneg => nomatch hneg

/-! ### Parentheses -/

/-- The items of a list. -/
theorem writes_list {ts : List Tree} (hne : ts ≠ []) (h : ∀ t ∈ ts, Written host atEnd w t) :
    ∃ text texts, Yields (Part.renderAll (ts.map (partOf host atEnd))) w (text :: texts) ∧
      Spelled (itemsAll (ts.map wrapOr)) (Text.joinWith "," (text :: texts)).toList := by
  induction ts with
  | nil => exact absurd rfl hne
  | cons t ts ih =>
    rw [List.forall_mem_cons] at h
    obtain ⟨text, htext, hspelled⟩ := h.1.writes
    cases ts with
    | nil =>
      refine ⟨text, [], ?_, ?_⟩
      · exact Yields.bind htext ((Yields.pure [] w).bind (Yields.pure _ w))
      · simpa [Text.joinWith] using hspelled
    | cons u ts =>
      obtain ⟨first, more, hall, hspelled'⟩ := ih (by simp) h.2
      refine ⟨text, first :: more, Yields.bind htext (hall.bind (Yields.pure _ w)), ?_⟩
      have hlist := hspelled.comma hspelled'
      rw [List.map_cons, List.map_cons, itemsAll_cons_cons, ← List.map_cons]
      simpa [Text.joinWith] using hlist

/-- Rendered items in parentheses. -/
theorem writes_parenthesised {ts : List Tree} (hne : ts ≠ [])
    (h : ∀ t ∈ ts, Written host atEnd w t) :
    ∃ text, Yields (Expression.parenthesised (ts.map (partOf host atEnd))) w text ∧
      Spelled (items (.node .par (ts.map wrapOr))) text.toList := by
  obtain ⟨first, more, hall, hspelled⟩ := writes_list hne h
  refine ⟨_, hall.bind (Yields.pure _ w), ?_⟩
  have hpar := hspelled.par
  rw [items_par]
  simpa using hpar

theorem isDisjunction_partOf (t : Tree) :
    Expression.isDisjunction (partOf host atEnd t) = isOr t := by
  rw [Expression.isDisjunction, Part.tree_ofTree, isOr]

theorem written_par {ts : List Tree} (hne : ts ≠ []) (h : ∀ t ∈ ts, Written host atEnd w t) :
    Written host atEnd w (.node .par ts) where
  writes := by
    have hrender : renderWith host atEnd (.node .par ts) =
        Expression.parenthesis (ts.map (partOf host atEnd)) := by
      rw [← Part.ofTrees_eq_map]
      rfl
    by_cases hor : ∃ t, ts = [t] ∧ isOr t = true
    · obtain ⟨t, rfl, hor⟩ := hor
      have hinner : renderWith host atEnd (.node .par [t]) = renderWith host atEnd t := by
        rw [hrender, List.map_singleton, Expression.parenthesis, isDisjunction_partOf, if_pos hor]
        rfl
      have hwrap : wrapOr (.node .par [t]) = wrapOr t := by
        cases t with
        | atom text => cases hor
        | node tag us =>
          rw [isOr, Tree.tag?, beq_iff_eq, Option.some.injEq] at hor
          rw [hor, wrapOr_par_or]
      rw [Writes, hinner, hwrap]
      exact (h t List.mem_cons_self).writes
    · have hlist : renderWith host atEnd (.node .par ts) =
          Expression.parenthesised (ts.map (partOf host atEnd)) := by
        rw [hrender]
        rcases ts with _ | ⟨t, _ | ⟨u, ts⟩⟩
        · exact absurd rfl hne
        · have ht : ¬ isOr t = true := fun ht => hor ⟨t, rfl, ht⟩
          rw [List.map_singleton, Expression.parenthesis, isDisjunction_partOf, if_neg ht]
        · rfl
      rw [Writes, hlist, wrapOr_par]
      · exact writes_parenthesised hne h
      · intro t hts
        cases ht : isOr t with
        | false => rfl
        | true => exact absurd ⟨t, hts, ht⟩ hor
  negated := fun hneg => nomatch hneg

/-- **A condition renders as the words of the condition with its alternatives in parentheses.** -/
theorem written_condition (hbare : BareFields host w) {t : Tree} (h : Condition Legible t) :
    Written host atEnd w t := by
  induction h with
  | leaf ht hleaf => exact written_leaf hbare ht hleaf
  | par hne _ ih => exact written_par hne ih
  | @binary o l r ho _ _ _ _ _ ihl ihr =>
    by_cases hor : o = .or
    · subst hor
      exact written_or ihl ihr
    · exact written_binary hbare ho hor ihl ihr
  | between _ _ _ _ _ _ _ ihv ihlo ihhi => exact written_between ihv ihlo ihhi
  | not _ _ ih => exact written_not ih

end RelationSql
