import RelationSql.Proofs.Grammar.Conjoined
import RelationSql.Proofs.Grammar.Shape
import RelationSql.Proofs.Walk.Written

/-!
# The words of rendered conditions

Whatever a domain renders its fields and calls as, a rendered condition consists of operands and of the
signs that the rendering puts around them (`phrase_of_render`). An operand is taken as a whole: what a
domain writes there is none of the grammar's business. An operator looser than `and` stands outside of
all parentheses of a rendered condition exactly if it is at the root of the condition and has no
parentheses of its own (`looseAt_phrase`).
-/

namespace RelationSql

open Grammar Source WalkM

/-! ## Words -/

/-- A word of a rendered condition. -/
inductive Word where
  /-- An operand with whatever text it has. -/
  | operand (text : String)
  | operator (operator : Operator)
  /-- The `AND` between the bounds of a `BETWEEN`. -/
  | upTo
  /-- A `NOT` in front of its operand. -/
  | notBefore
  /-- A `NOT` in front of the operator that it negates. -/
  | notWithin
  /-- A minus in front of its operand. -/
  | minus
  | opening | closing | comma
  deriving DecidableEq, Repr

namespace Word

/-- The text of a word without the blanks around it. -/
def sign : Word → String
  | operand text => text
  | operator o => o.sql
  | upTo => "AND"
  | notBefore | notWithin => "NOT"
  | minus => "-"
  | opening => "("
  | closing => ")"
  | comma => ","

/-- The text of a word with the blanks around it. -/
def text : Word → String
  | operator o => " " ++ o.sql ++ " "
  | upTo => " AND "
  | notBefore => "NOT "
  | notWithin => " NOT"
  | word => word.sign

/-- The token that the sign is read as; an operand is read as one token. -/
def kind : Word → TokenKind
  | operand text => .text text
  | word =>
    match word.sign.toList with
    | [] => .finish
    | c :: cs => (read c cs).kind

/-- The word as a token. The places of tokens do not matter for how they are grouped. -/
def token (word : Word) : Token :=
  ⟨word.kind, ⟨0, 0⟩⟩

@[simp] theorem kind_token (word : Word) : word.token.kind = word.kind := rfl

/-- The text of words side by side. -/
def layout : List Word → String
  | [] => ""
  | word :: words => word.text ++ layout words

theorem layout_append (xs ys : List Word) : layout (xs ++ ys) = layout xs ++ layout ys := by
  induction xs with
  | nil => simp [layout]
  | cons word xs ih => simp [layout, ih, String.append_assoc]

@[simp] theorem layout_cons (word : Word) (words : List Word) :
    layout (word :: words) = word.text ++ layout words := rfl

@[simp] theorem layout_nil : layout [] = "" := rfl

/-- The sign of an operator is read as the operator. -/
theorem operatorOf?_kind {o : Operator} (h : isBinary o = true ∨ o = .between) :
    operatorOf? (operator o).kind = some o := by
  obtain ⟨c, cs, kind, hsql, hread, ho, -⟩ := exists_read_sql h
  have hkind : (operator o).kind = (read c cs).kind := by
    show (match o.sql.toList with | [] => _ | c :: cs => (read c cs).kind) = _
    rw [hsql]
  rw [hkind, hread]
  exact ho

end Word

/-! ## Phrases -/

/-- Is the rendering of the tree an operand as a whole? A tilde never stands between two operands. -/
def isWhole : Tree → Bool
  | .node .par _ => false
  | .node (.op o) _ => o == .invertBits
  | _ => true

/-- The words that the trees of a list are rendered as, up to the texts of operands. -/
inductive Phrase : List Tree → List Word → Prop where
  | nil : Phrase [] []
  | cons {t u : Tree} {ts : List Tree} {xs ys : List Word} : Phrase [t] xs → Phrase (u :: ts) ys →
      Phrase (t :: u :: ts) (xs ++ .comma :: ys)
  | whole {t : Tree} (h : isWhole t = true) (text : String) : Phrase [t] [.operand text]
  /-- An equality for which the domain has a form of its own. -/
  | ownForm {ts : List Tree} (text : String) : Phrase [.node (.op .equal) ts] [.operand text]
  | par {ts : List Tree} {xs : List Word} (h : ∀ t, ts = [t] → isOr t = false) : Phrase ts xs →
      Phrase [.node .par ts] (.opening :: xs ++ [.closing])
  /-- An alternative brings the parentheses itself. -/
  | inner {t : Tree} {xs : List Word} (h : isOr t = true) : Phrase [t] xs →
      Phrase [.node .par [t]] xs
  | or {l r : Tree} {more : List Tree} {xs ys : List Word} : Phrase [l] xs → Phrase [r] ys →
      Phrase [.node (.op .or) (l :: r :: more)]
        (.opening :: (xs ++ .operator .or :: ys) ++ [.closing])
  | operator {o : Operator} {l r : Tree} {more : List Tree} {xs ys : List Word}
      (h : isBinary o = true) (hor : o ≠ .or) : Phrase [l] xs → Phrase [r] ys →
      Phrase [.node (.op o) (l :: r :: more)] (xs ++ .operator o :: ys)
  | between {v lo hi : Tree} {more : List Tree} {xs ys zs : List Word} : Phrase [v] xs →
      Phrase [lo] ys → Phrase [hi] zs → Phrase [.node (.op .between) (v :: lo :: hi :: more)]
        (xs ++ .operator .between :: (ys ++ .upTo :: zs))
  | changeSign {t : Tree} {more : List Tree} {xs : List Word} : Phrase [t] xs →
      Phrase [.node (.op .changeSign) (t :: more)] (.minus :: xs)
  | notBefore {o : Operator} {t : Tree} {more : List Tree} {xs : List Word}
      (h : o = .not ∨ o = .bang) (ht : negatedWithin t = false) : Phrase [t] xs →
      Phrase [.node (.op o) (t :: more)] (.notBefore :: xs)
  | notWithin {o q : Operator} {l r : Tree} {more : List Tree} {xs ys : List Word}
      (h : o = .not ∨ o = .bang) (hq : Expression.negatesInPlace q = true) : Phrase [l] xs →
      Phrase [r] ys → Phrase [.node (.op o) (.node (.op q) [l, r] :: more)]
        (xs ++ .notWithin :: .operator q :: ys)
  | notBetween {o : Operator} {v lo hi : Tree} {more : List Tree} {xs ys zs : List Word}
      (h : o = .not ∨ o = .bang) : Phrase [v] xs → Phrase [lo] ys → Phrase [hi] zs →
      Phrase [.node (.op o) (.node (.op .between) [v, lo, hi] :: more)]
        (xs ++ .notWithin :: .operator .between :: (ys ++ .upTo :: zs))

variable {t : Tree} {ts : List Tree} {words xs ys : List Word} {o : Operator}

theorem isBinary_of_negatesInPlace (h : Expression.negatesInPlace o = true) :
    isBinary o = true := by
  cases o <;> first | rfl | cases h

theorem isWord_of_operatorOf? {kind : TokenKind} (h : operatorOf? kind = some o) :
    isWord kind = true := by
  unfold isWord
  split <;> simp_all

/-- **Every word of a phrase is one that the grammar knows.** -/
theorem Phrase.isWord (h : Phrase ts words) : ∀ word ∈ words, isWord word.kind = true := by
  have hoperator : ∀ {o}, (isBinary o = true ∨ o = .between) →
      Grammar.isWord (Word.operator o).kind = true :=
    fun ho => isWord_of_operatorOf? (Word.operatorOf?_kind ho)
  have hor : Grammar.isWord (Word.operator .or).kind = true := rfl
  have hbetween : Grammar.isWord (Word.operator .between).kind = true := rfl
  have hfixed : Grammar.isWord Word.upTo.kind = true ∧ Grammar.isWord Word.notBefore.kind = true ∧
      Grammar.isWord Word.notWithin.kind = true ∧ Grammar.isWord Word.minus.kind = true ∧
      Grammar.isWord Word.opening.kind = true ∧ Grammar.isWord Word.closing.kind = true ∧
      Grammar.isWord Word.comma.kind = true := ⟨rfl, rfl, rfl, rfl, rfl, rfl, rfl⟩
  obtain ⟨hupTo, hnotBefore, hnotWithin, hminus, hopening, hclosing, hcomma⟩ := hfixed
  induction h with
  | nil => simp
  | whole | ownForm => simp [Word.kind, Grammar.isWord]
  | inner _ _ ih => exact ih
  | par _ _ ih => simpa [or_imp, forall_and, hopening, hclosing] using ih
  | changeSign _ ih => simpa [hminus] using ih
  | notBefore _ _ _ ih => simpa [hnotBefore] using ih
  | cons _ _ ihx ihy => simpa [or_imp, forall_and, hcomma] using ⟨ihx, ihy⟩
  | or _ _ ihx ihy => simpa [or_imp, forall_and, hopening, hclosing, hor] using ⟨ihx, ihy⟩
  | operator ho _ _ _ ihx ihy =>
    simpa [or_imp, forall_and, hoperator (Or.inl ho)] using ⟨ihx, ihy⟩
  | between _ _ _ ihx ihy ihz =>
    simpa [or_imp, forall_and, hbetween, hupTo] using ⟨ihx, ihy, ihz⟩
  | notWithin _ hq _ _ ihx ihy =>
    have ho := hoperator (Or.inl (isBinary_of_negatesInPlace hq))
    simpa [or_imp, forall_and, hnotWithin, ho] using ⟨ihx, ihy⟩
  | notBetween _ _ _ _ ihx ihy ihz =>
    simpa [or_imp, forall_and, hnotWithin, hbetween, hupTo] using ⟨ihx, ihy, ihz⟩

/-! ## Parentheses and loose operators -/

/-- The tokens of words. -/
def tokens (words : List Word) : List Token :=
  words.map Word.token

@[simp] theorem tokens_append (xs ys : List Word) : tokens (xs ++ ys) = tokens xs ++ tokens ys :=
  List.map_append

@[simp] theorem tokens_cons (word : Word) (words : List Word) :
    tokens (word :: words) = word.token :: tokens words := rfl

@[simp] theorem tokens_nil : tokens [] = [] := rfl

theorem depthAfter_append (depth : Nat) (xs ys : List Token) :
    depthAfter depth (xs ++ ys) = depthAfter (depthAfter depth xs) ys := by
  induction xs generalizing depth with
  | nil => rfl
  | cons token xs ih =>
    obtain ⟨kind, span⟩ := token
    cases kind with
    | symbol symbol => cases symbol <;> simp [depthAfter, ih]
    | _ => simp [depthAfter, ih]

/-- A word that is no parenthesis leaves the parentheses as they are. -/
theorem depthAfter_word {word : Word} (hopening : word.kind ≠ .symbol .leftParen)
    (hclosing : word.kind ≠ .symbol .rightParen) (depth : Nat) (rest : List Token) :
    depthAfter depth (word.token :: rest) = depthAfter depth rest := by
  rw [depthAfter]
  split
  · next heq => exact absurd heq hopening
  · next heq => exact absurd heq hclosing
  · rfl

theorem kind_operator_ne (ho : isBinary o = true ∨ o = .between) {s : Symbol}
    (hs : infixOperator? (.symbol s) = none) : (Word.operator o).kind ≠ .symbol s := by
  intro heq
  have h := Word.operatorOf?_kind ho
  rw [heq] at h
  change infixOperator? (.symbol s) = some o at h
  rw [hs] at h
  cases h

/-- The words close the parentheses they open, and inside of a parenthesis none of them is loose. -/
structure Balanced (words : List Word) : Prop where
  depth : ∀ depth, depthAfter depth (tokens words) = depth
  inside : ∀ depth, looseAt (depth + 1) (tokens words) = false

namespace Balanced

theorem append (hx : Balanced xs) (hy : Balanced ys) : Balanced (xs ++ ys) where
  depth := by
    intro depth
    rw [tokens_append, depthAfter_append, hx.depth, hy.depth]
  inside := by
    intro depth
    rw [tokens_append, looseAt_append, hx.inside, hx.depth, hy.inside]
    rfl

/-- A word that is no parenthesis. -/
theorem word {word : Word} (hopening : word.kind ≠ .symbol .leftParen)
    (hclosing : word.kind ≠ .symbol .rightParen) : Balanced [word] where
  depth := fun depth => depthAfter_word hopening hclosing depth []
  inside := fun depth => looseAt_of_depth hopening hclosing (Nat.succ_ne_zero depth) ⟨0, 0⟩ []

theorem operator (ho : isBinary o = true ∨ o = .between) : Balanced [.operator o] :=
  .word (kind_operator_ne ho rfl) (kind_operator_ne ho rfl)

/-- A parenthesis around words. -/
theorem par (h : Balanced xs) : Balanced (.opening :: xs ++ [.closing]) where
  depth := by
    intro depth
    show depthAfter (depth + 1) (tokens (xs ++ [.closing])) = depth
    rw [tokens_append, depthAfter_append, h.depth]
    rfl
  inside := by
    intro depth
    show looseAt (depth + 1 + 1) (tokens (xs ++ [.closing])) = false
    rw [tokens_append, looseAt_append, h.inside, h.depth]
    rfl

end Balanced

/-- **A phrase closes what it opens, and inside of a parenthesis nothing is loose.** -/
theorem Phrase.balanced (h : Phrase ts words) : Balanced words := by
  have hword : Balanced [.comma] ∧ Balanced [.minus] ∧ Balanced [.notBefore] ∧
      Balanced [.notWithin] ∧ Balanced [.upTo] :=
    ⟨.word nofun nofun, .word nofun nofun, .word nofun nofun, .word nofun nofun, .word nofun nofun⟩
  obtain ⟨hcomma, hminus, hnotBefore, hnotWithin, hupTo⟩ := hword
  have hbetween := Balanced.operator (o := .between) (Or.inr rfl)
  induction h with
  | nil => exact ⟨fun _ => rfl, fun _ => rfl⟩
  | whole | ownForm => exact .word nofun nofun
  | inner _ _ ih => exact ih
  | par _ _ ih => exact ih.par
  | changeSign _ ih => exact hminus.append ih
  | notBefore _ _ _ ih => exact hnotBefore.append ih
  | cons _ _ ihx ihy => exact ihx.append (hcomma.append ihy)
  | or _ _ ihx ihy => exact (ihx.append ((Balanced.operator (Or.inl rfl)).append ihy)).par
  | operator ho _ _ _ ihx ihy => exact ihx.append ((Balanced.operator (Or.inl ho)).append ihy)
  | between _ _ _ ihx ihy ihz =>
    exact ihx.append (hbetween.append (ihy.append (hupTo.append ihz)))
  | notWithin _ hq _ _ ihx ihy =>
    have ho := Balanced.operator (Or.inl (isBinary_of_negatesInPlace hq))
    exact ihx.append (hnotWithin.append (ho.append ihy))
  | notBetween _ _ _ _ ihx ihy ihz =>
    exact ihx.append (hnotWithin.append (hbetween.append (ihy.append (hupTo.append ihz))))

/-! ## Loose operators -/

/-- Is an operator at the root of the tree that is looser than `and` and is rendered without
parentheses? -/
def isBareLoose : Tree → Bool
  | .node (.op .xor) _ | .node (.op .assign) _ => true
  | _ => false

theorem isBareLoose_op (o : Operator) (ts : List Tree) :
    isBareLoose (.node (.op o) ts) = (isLoose o && o != .or) := by
  cases o <;> rfl

/-- Is a word of the list, outside of its parentheses, looser than `and`? -/
def isLooseAmong (words : List Word) : Bool :=
  looseAt 0 (tokens words)

theorem isLooseAmong_append (hx : Balanced xs) (ys : List Word) :
    isLooseAmong (xs ++ ys) = (isLooseAmong xs || isLooseAmong ys) := by
  rw [isLooseAmong, tokens_append, looseAt_append, hx.depth]
  rfl

theorem isLooseAmong_operator (ho : isBinary o = true ∨ o = .between) (words : List Word) :
    isLooseAmong (.operator o :: words) = (isLoose o || isLooseAmong words) := by
  have hkind : operatorOf? (Word.operator o).token.kind = some o := by
    rw [Word.kind_token]
    exact Word.operatorOf?_kind ho
  rw [isLooseAmong, tokens_cons]
  exact looseAt_operator hkind _

/-- In a parenthesis nothing is loose. -/
theorem isLooseAmong_par (hx : Balanced xs) : isLooseAmong (.opening :: xs ++ [.closing]) = false := by
  show looseAt 1 (tokens (xs ++ [.closing])) = false
  rw [tokens_append, looseAt_append, hx.inside, hx.depth]
  rfl

/-- The children of a tight node are not loose. -/
theorem isBareLoose_of_shaped (ho : isLoose o = false) (h : Shaped (.node (.op o) ts)) (ht : t ∈ ts) :
    Shaped t ∧ isBareLoose t = false := by
  cases h with
  | node children tight items =>
    have hloose := tight (by simp [bindsTight, ho]) t ht
    refine ⟨children t ht, ?_⟩
    cases t with
    | atom text => rfl
    | node tag us =>
      cases tag with
      | op q =>
        rw [isBareLoose_op, show isLoose q = false from hloose]
        rfl
      | _ => rfl

/-- Nothing is loose in the words of a child of a tight node. -/
theorem isLooseAmong_of_tight (ho : isLoose o = false) (h : Shaped (.node (.op o) ts)) (ht : t ∈ ts)
    (hx : (∀ u ∈ [t], Shaped u) → isLooseAmong xs = [t].any isBareLoose) :
    isLooseAmong xs = false := by
  obtain ⟨hshaped, hbare⟩ := isBareLoose_of_shaped ho h ht
  rw [hx (by simpa using hshaped)]
  simp [hbare]

theorem isBareLoose_of_isWhole (h : isWhole t = true) : isBareLoose t = false := by
  cases t with
  | atom text => rfl
  | node tag us =>
    cases tag with
    | op o => cases o <;> first | rfl | cases h
    | _ => rfl

theorem isBareLoose_of_isOr (h : isOr t = true) : isBareLoose t = false := by
  cases t with
  | atom text => rfl
  | node tag us =>
    rw [isOr, Tree.tag?, beq_iff_eq, Option.some.injEq] at h
    rw [h]
    rfl

/-- **Outside of the parentheses of a rendered condition, a loose operator stands exactly if it is
that of the condition and brings no parentheses.** -/
theorem Phrase.isLooseAmong (h : Phrase ts words) (hts : ∀ t ∈ ts, Shaped t) :
    RelationSql.isLooseAmong words = ts.any isBareLoose := by
  have hnot : ∀ {o : Operator}, (o = .not ∨ o = .bang) → isLoose o = false := by
    rintro o (rfl | rfl) <;> rfl
  have hplace : ∀ {q : Operator}, Expression.negatesInPlace q = true → isLoose q = false := by
    intro q hq
    cases q <;> first | rfl | cases hq
  induction h with
  | nil => rfl
  | whole hwhole =>
    rw [List.any_cons, isBareLoose_of_isWhole hwhole]
    rfl
  | ownForm => rfl
  | inner hor _ ih =>
    have hshaped := (hts _ List.mem_cons_self).child List.mem_cons_self
    rw [ih (by simpa using hshaped), List.any_cons, isBareLoose_of_isOr hor]
    rfl
  | par _ hx _ => exact isLooseAmong_par hx.balanced
  | cons hx _ ihx ihy =>
    rw [List.forall_mem_cons] at hts
    rw [isLooseAmong_append hx.balanced, ihx (by simpa using hts.1), List.any_cons, List.any_cons,
      List.any_nil, Bool.or_false]
    exact congrArg _ (ihy hts.2)
  | or hx hy _ _ =>
    exact isLooseAmong_par (hx.balanced.append ((Balanced.operator (Or.inl rfl)).append hy.balanced))
  | changeSign _ ih =>
    have hshaped := hts _ List.mem_cons_self
    exact isLooseAmong_of_tight rfl hshaped List.mem_cons_self ih
  | notBefore ho _ _ ih =>
    have hshaped := hts _ List.mem_cons_self
    have hx := isLooseAmong_of_tight (hnot ho) hshaped List.mem_cons_self ih
    rw [List.any_cons, isBareLoose_op, hnot ho]
    exact hx
  | @operator o l r more xs ys ho hor hx _ ihx ihy =>
    have hshaped := hts _ List.mem_cons_self
    rw [isLooseAmong_append hx.balanced, isLooseAmong_operator (Or.inl ho), List.any_cons,
      isBareLoose_op]
    cases hloose : isLoose o with
    | true => simp [hor]
    | false =>
      rw [isLooseAmong_of_tight hloose hshaped (by simp) ihx,
        isLooseAmong_of_tight hloose hshaped (by simp) ihy]
      rfl
  | between hx hy _ ihx ihy ihz =>
    have hshaped := hts _ List.mem_cons_self
    have hz := isLooseAmong_of_tight rfl hshaped (by simp) ihz
    rw [isLooseAmong_append hx.balanced, isLooseAmong_operator (Or.inr rfl),
      isLooseAmong_append hy.balanced, isLooseAmong_of_tight rfl hshaped (by simp) ihx,
      isLooseAmong_of_tight rfl hshaped (by simp) ihy]
    exact hz
  | @notWithin o q l r more xs ys ho hq hx _ ihx ihy =>
    have hshaped := (hts _ List.mem_cons_self).child List.mem_cons_self
    have hword : RelationSql.isLooseAmong (.notWithin :: .operator q :: ys) =
        RelationSql.isLooseAmong (.operator q :: ys) := rfl
    rw [isLooseAmong_append hx.balanced, hword,
      isLooseAmong_operator (Or.inl (isBinary_of_negatesInPlace hq)), hplace hq,
      isLooseAmong_of_tight (hplace hq) hshaped (by simp) ihx,
      isLooseAmong_of_tight (hplace hq) hshaped (by simp) ihy, List.any_cons, isBareLoose_op, hnot ho]
    rfl
  | @notBetween o v lo hi more xs ys zs ho hx hy _ ihx ihy ihz =>
    have hshaped := (hts _ List.mem_cons_self).child List.mem_cons_self
    have hz := isLooseAmong_of_tight rfl hshaped (by simp) ihz
    have hword : RelationSql.isLooseAmong (.notWithin :: .operator .between :: (ys ++ .upTo :: zs)) =
        RelationSql.isLooseAmong (ys ++ .upTo :: zs) := rfl
    rw [isLooseAmong_append hx.balanced, hword, isLooseAmong_append hy.balanced,
      isLooseAmong_of_tight rfl hshaped (by simp) ihx,
      isLooseAmong_of_tight rfl hshaped (by simp) ihy, List.any_cons, isBareLoose_op, hnot ho]
    exact hz

/-! ## Rendering -/

/-- Whatever the tree renders as lays out a phrase of it. -/
def RendersPhrase (host : Host) (atEnd : WalkM Unit) (t : Tree) : Prop :=
  ∀ (w left : Walk) (text : String), (renderWith host atEnd t).runFrom w = (.ok text, left) →
    ∃ words, Phrase [t] words ∧ Word.layout words = text

variable {host : Host} {atEnd : WalkM Unit} {w left : Walk} {text : String}

/-- The items of a list. -/
theorem phrase_of_renderAll (h : ∀ t ∈ ts, RendersPhrase host atEnd t) {texts : List String}
    (hall : (Part.renderAll (ts.map (partOf host atEnd))).runFrom w = (.ok texts, left)) :
    ∃ words, Phrase ts words ∧ Word.layout words = Text.joinWith "," texts ∧
      texts.length = ts.length := by
  induction ts generalizing w texts with
  | nil =>
    cases hall
    exact ⟨[], .nil, rfl, rfl⟩
  | cons t ts ih =>
    rw [List.forall_mem_cons] at h
    obtain ⟨text, middle, ht, hall⟩ := runFrom_bind_eq_ok hall
    obtain ⟨more, middle', hmore, hall⟩ := runFrom_bind_eq_ok hall
    cases hall
    obtain ⟨xs, hxs, rfl⟩ := h.1 _ _ _ ht
    obtain ⟨ys, hys, hlayout, hlength⟩ := ih h.2 hmore
    cases ts with
    | nil =>
      obtain rfl := List.length_eq_zero_iff.1 hlength
      exact ⟨xs, hxs, rfl, rfl⟩
    | cons u ts =>
      obtain ⟨first, others, rfl⟩ := List.exists_cons_of_length_eq_add_one hlength
      refine ⟨xs ++ .comma :: ys, .cons hxs hys, ?_, by simpa using hlength⟩
      rw [Word.layout_append, Word.layout_cons, hlayout, ← String.append_assoc]
      rfl

/-- A parenthesis around a list. -/
theorem phrase_of_parenthesised (hor : ∀ t, ts = [t] → isOr t = false)
    (h : ∀ t ∈ ts, RendersPhrase host atEnd t)
    (hrun : (Expression.parenthesised (ts.map (partOf host atEnd))).runFrom w = (.ok text, left)) :
    ∃ words, Phrase [.node .par ts] words ∧ Word.layout words = text := by
  obtain ⟨texts, middle, hall, hrun⟩ := runFrom_bind_eq_ok hrun
  cases hrun
  obtain ⟨words, hwords, hlayout, -⟩ := phrase_of_renderAll h hall
  refine ⟨_, .par hor hwords, ?_⟩
  simp [Word.layout_append, hlayout, Word.text, Word.sign, String.append_assoc]

theorem rendersPhrase_par (h : ∀ t ∈ ts, RendersPhrase host atEnd t) :
    RendersPhrase host atEnd (.node .par ts) := by
  intro w left text hrun
  have hparts : renderWith host atEnd (.node .par ts) =
      Expression.parenthesis (ts.map (partOf host atEnd)) := by
    rw [← Part.ofTrees_eq_map]
    rfl
  rw [hparts] at hrun
  rcases ts with _ | ⟨t, _ | ⟨u, ts⟩⟩
  · exact phrase_of_parenthesised (fun _ heq => by cases heq) h hrun
  · rw [List.map_singleton, Expression.parenthesis, isDisjunction_partOf] at hrun
    split at hrun
    · next hor =>
      obtain ⟨words, hwords, hlayout⟩ := h t List.mem_cons_self _ _ _ hrun
      exact ⟨words, .inner hor hwords, hlayout⟩
    · next hor =>
      refine phrase_of_parenthesised ?_ h hrun
      rintro _ ⟨⟩
      exact eq_false_of_ne_true hor
  · exact phrase_of_parenthesised (fun _ heq => by cases heq) h hrun

/-- A rendered child of a node. -/
theorem phrase_of_renderChild (h : ∀ t ∈ ts, RendersPhrase host atEnd t) {tag : Tag} {index : Nat}
    (hrun : (Part.renderChild tag (ts.map (partOf host atEnd)) index).runFrom w = (.ok text, left)) :
    ∃ t words, ts[index]? = some t ∧ Phrase [t] words ∧ Word.layout words = text := by
  obtain ⟨part, hpart, hrender⟩ := runFrom_renderChild_eq_ok hrun
  rw [List.getElem?_map, Option.map_eq_some_iff] at hpart
  obtain ⟨t, ht, rfl⟩ := hpart
  obtain ⟨words, hwords, hlayout⟩ := h t (List.mem_of_getElem? ht) _ _ _ hrender
  exact ⟨t, words, ht, hwords, hlayout⟩

/-- Two operands with an operator between them. -/
theorem phrase_of_binary {l r : Tree} {more : List Tree} (hl : RendersPhrase host atEnd l)
    (hr : RendersPhrase host atEnd r) (ho : isBinary o = true) (hor : o ≠ .or)
    (hrun : (Expression.binary o (partOf host atEnd l) (partOf host atEnd r)).runFrom w =
      (.ok text, left)) :
    ∃ words, Phrase [.node (.op o) (l :: r :: more)] words ∧ Word.layout words = text := by
  obtain ⟨first, middle, hleft, hrun⟩ := runFrom_bind_eq_ok hrun
  obtain ⟨second, middle', hright, hrun⟩ := runFrom_bind_eq_ok hrun
  cases hrun
  obtain ⟨xs, hxs, rfl⟩ := hl _ _ _ hleft
  obtain ⟨ys, hys, rfl⟩ := hr _ _ _ hright
  refine ⟨_, .operator ho hor hxs hys, ?_⟩
  simp [Word.layout_append, Word.text, Expression.infixText, String.append_assoc]

/-- An operator without a rendering of its own. -/
theorem phrase_of_operation (h : ∀ t ∈ ts, RendersPhrase host atEnd t) (ho : isBinary o = true)
    (hor : o ≠ .or)
    (hrun : (Expression.operation o (ts.map (partOf host atEnd))).runFrom w = (.ok text, left)) :
    ∃ words, Phrase [.node (.op o) ts] words ∧ Word.layout words = text := by
  rcases ts with _ | ⟨l, _ | ⟨r, _ | ⟨t, ts⟩⟩⟩
  · cases hrun
  · cases hrun
  · simp only [List.forall_mem_cons] at h
    exact phrase_of_binary h.1 h.2.1 ho hor hrun
  · cases hrun

theorem phrase_of_equality (h : ∀ t ∈ ts, RendersPhrase host atEnd t)
    (hrun : (Expression.equality host (ts.map (partOf host atEnd))).runFrom w = (.ok text, left)) :
    ∃ words, Phrase [.node (.op .equal) ts] words ∧ Word.layout words = text := by
  rcases ts with _ | ⟨l, _ | ⟨r, more⟩⟩
  · cases hrun
  · cases hrun
  · simp only [List.forall_mem_cons] at h
    obtain ⟨_, _, hleft, hrun⟩ := runFrom_bind_eq_ok hrun
    cases hleft
    obtain ⟨_, _, hright, hrun⟩ := runFrom_bind_eq_ok hrun
    cases hright
    obtain ⟨form, middle, -, hrun⟩ := runFrom_bind_eq_ok hrun
    cases form with
    | some form =>
      cases hrun
      exact ⟨_, .ownForm text, by simp [Word.text, Word.sign]⟩
    | none => exact phrase_of_binary h.1 h.2.1 rfl (by simp) hrun

theorem phrase_of_disjunction (h : ∀ t ∈ ts, RendersPhrase host atEnd t)
    (hrun : (Expression.disjunction (ts.map (partOf host atEnd))).runFrom w = (.ok text, left)) :
    ∃ words, Phrase [.node (.op .or) ts] words ∧ Word.layout words = text := by
  obtain ⟨first, middle, hleft, hrun⟩ := runFrom_bind_eq_ok hrun
  obtain ⟨second, middle', hright, hrun⟩ := runFrom_bind_eq_ok hrun
  cases hrun
  obtain ⟨l, xs, hl, hxs, rfl⟩ := phrase_of_renderChild h hleft
  obtain ⟨r, ys, hr, hys, rfl⟩ := phrase_of_renderChild h hright
  rcases ts with _ | ⟨_, _ | ⟨_, more⟩⟩
  · cases hl
  · cases hr
  · cases hl
    cases hr
    refine ⟨_, .or hxs hys, ?_⟩
    have hsql : Operator.or.sql = "OR" := rfl
    simp [Word.layout_append, Word.text, Word.sign, hsql, String.append_assoc]

theorem phrase_of_betweenBounds (h : ∀ t ∈ ts, RendersPhrase host atEnd t)
    (hrun : (Expression.betweenBounds (ts.map (partOf host atEnd))).runFrom w = (.ok text, left)) :
    ∃ words, Phrase [.node (.op .between) ts] words ∧ Word.layout words = text := by
  obtain ⟨value, _, hvalue, hrun⟩ := runFrom_bind_eq_ok hrun
  obtain ⟨low, _, hlow, hrun⟩ := runFrom_bind_eq_ok hrun
  obtain ⟨high, _, hhigh, hrun⟩ := runFrom_bind_eq_ok hrun
  cases hrun
  obtain ⟨v, xs, hv, hxs, rfl⟩ := phrase_of_renderChild h hvalue
  obtain ⟨lo, ys, hlo, hys, rfl⟩ := phrase_of_renderChild h hlow
  obtain ⟨hi, zs, hhi, hzs, rfl⟩ := phrase_of_renderChild h hhigh
  rcases ts with _ | ⟨_, _ | ⟨_, _ | ⟨_, more⟩⟩⟩
  · cases hv
  · cases hlo
  · cases hhi
  · cases hv
    cases hlo
    cases hhi
    refine ⟨_, .between hxs hys hzs, ?_⟩
    have hsql : Operator.between.sql = "BETWEEN" := rfl
    simp [Word.layout_append, Word.text, hsql, String.append_assoc]

theorem phrase_of_changedSign (h : ∀ t ∈ ts, RendersPhrase host atEnd t)
    (hrun : (Expression.changedSign (ts.map (partOf host atEnd))).runFrom w = (.ok text, left)) :
    ∃ words, Phrase [.node (.op .changeSign) ts] words ∧ Word.layout words = text := by
  obtain ⟨operand, _, hoperand, hrun⟩ := runFrom_bind_eq_ok hrun
  cases hrun
  obtain ⟨t, xs, ht, hxs, rfl⟩ := phrase_of_renderChild h hoperand
  cases ts with
  | nil => cases ht
  | cons u more =>
    cases ht
    exact ⟨_, .changeSign hxs, rfl⟩

/-- A negation whose `NOT` stands in front renders its operand after the `NOT`. -/
theorem negation_before (ht : negatedWithin t = false) (tag : Tag) (parts : List Part) :
    Expression.negation tag (partOf host atEnd t :: parts) =
      do return "NOT " ++ (← renderWith host atEnd t) := by
  cases t with
  | atom => rfl
  | node tag ts =>
    cases tag with
    | op o =>
      rcases ts with _ | ⟨a, _ | ⟨b, _ | ⟨c, _ | ⟨d, ts⟩⟩⟩⟩
      · cases o <;> rfl
      · cases o <;> rfl
      · cases o <;> first | rfl | cases ht
      · cases o <;> first | rfl | cases ht
      · cases o <;> rfl
    | _ => rfl

/-- A negation in the place of its operand's operator. -/
theorem negation_within (ho : Expression.negatesInPlace o = true) (l r : Tree) (tag : Tag)
    (parts : List Part) :
    Expression.negation tag (partOf host atEnd (.node (.op o) [l, r]) :: parts) = do
      let left ← renderWith host atEnd l
      let right ← renderWith host atEnd r
      return Expression.infixText left ("NOT " ++ o.sql) right := by
  cases o <;> first | rfl | cases ho

theorem negation_between (v lo hi : Tree) (tag : Tag) (parts : List Part) :
    Expression.negation tag (partOf host atEnd (.node (.op .between) [v, lo, hi]) :: parts) = do
      let value ← renderWith host atEnd v
      let low ← renderWith host atEnd lo
      let high ← renderWith host atEnd hi
      return value ++ " NOT BETWEEN " ++ low ++ " AND " ++ high := rfl

/-- The tree and its children render as phrases. -/
def RendersBelow (host : Host) (atEnd : WalkM Unit) (t : Tree) : Prop :=
  RendersPhrase host atEnd t ∧ ∀ us, t.children? = some us → ∀ u ∈ us, RendersPhrase host atEnd u

theorem phrase_of_negation (hnot : o = .not ∨ o = .bang)
    (h : ∀ t ∈ ts, RendersBelow host atEnd t) {tag : Tag}
    (hrun : (Expression.negation tag (ts.map (partOf host atEnd))).runFrom w = (.ok text, left)) :
    ∃ words, Phrase [.node (.op o) ts] words ∧ Word.layout words = text := by
  cases ts with
  | nil => cases hrun
  | cons t more =>
    obtain ⟨ht, hbelow⟩ := h t List.mem_cons_self
    rw [List.map_cons] at hrun
    cases hneg : negatedWithin t with
    | false =>
      rw [negation_before hneg] at hrun
      obtain ⟨operand, _, hoperand, hrun⟩ := runFrom_bind_eq_ok hrun
      cases hrun
      obtain ⟨xs, hxs, rfl⟩ := ht _ _ _ hoperand
      exact ⟨_, .notBefore hnot hneg hxs, rfl⟩
    | true =>
      unfold negatedWithin at hneg
      split at hneg
      · next v lo hi =>
        have hchildren := hbelow _ rfl
        simp only [List.forall_mem_cons] at hchildren
        obtain ⟨hv, hlo, hhi, -⟩ := hchildren
        rw [negation_between] at hrun
        obtain ⟨value, _, hvalue, hrun⟩ := runFrom_bind_eq_ok hrun
        obtain ⟨low, _, hlow, hrun⟩ := runFrom_bind_eq_ok hrun
        obtain ⟨high, _, hhigh, hrun⟩ := runFrom_bind_eq_ok hrun
        cases hrun
        obtain ⟨xs, hxs, rfl⟩ := hv _ _ _ hvalue
        obtain ⟨ys, hys, rfl⟩ := hlo _ _ _ hlow
        obtain ⟨zs, hzs, rfl⟩ := hhi _ _ _ hhigh
        refine ⟨_, .notBetween hnot hxs hys hzs, ?_⟩
        have hsign : ∀ more : String, " NOT" ++ (Word.operator .between).text ++ more =
            " NOT BETWEEN " ++ more := fun _ => rfl
        simp [Word.layout_append, ← hsign, Word.text, String.append_assoc]
      · next q l r =>
        have hchildren := hbelow _ rfl
        simp only [List.forall_mem_cons] at hchildren
        rw [negation_within hneg] at hrun
        obtain ⟨first, _, hleft, hrun⟩ := runFrom_bind_eq_ok hrun
        obtain ⟨second, _, hright, hrun⟩ := runFrom_bind_eq_ok hrun
        cases hrun
        obtain ⟨xs, hxs, rfl⟩ := hchildren.1 _ _ _ hleft
        obtain ⟨ys, hys, rfl⟩ := hchildren.2.1 _ _ _ hright
        refine ⟨_, .notWithin hnot hneg hxs hys, ?_⟩
        have hsign : ∀ more : String, " NOT" ++ (" " ++ more) = " " ++ ("NOT " ++ more) := by
          intro more
          rw [← String.append_assoc, ← String.append_assoc]
          rfl
        simp [Word.layout_append, Word.text, Expression.infixText, String.append_assoc, hsign]
      · cases hneg

theorem rendersPhrase_op (h : ∀ t ∈ ts, RendersBelow host atEnd t) (o : Operator) :
    RendersPhrase host atEnd (.node (.op o) ts) := by
  intro w left text hrun
  have hts : ∀ t ∈ ts, RendersPhrase host atEnd t := fun t ht => (h t ht).1
  have hparts : renderWith host atEnd (.node (.op o) ts) =
      renderOperator host o (ts.map (partOf host atEnd)) := by
    rw [← Part.ofTrees_eq_map]
    rfl
  rw [hparts] at hrun
  cases o with
  | not => exact phrase_of_negation (Or.inl rfl) h hrun
  | bang => exact phrase_of_negation (Or.inr rfl) h hrun
  | or => exact phrase_of_disjunction hts hrun
  | equal => exact phrase_of_equality hts hrun
  | between => exact phrase_of_betweenBounds hts hrun
  | changeSign => exact phrase_of_changedSign hts hrun
  | invertBits => exact ⟨_, .whole rfl text, by simp [Word.text, Word.sign]⟩
  | _ => exact phrase_of_operation hts rfl (by simp) hrun

theorem sizeOf_child {tag : Tag} (ht : t ∈ ts) : sizeOf t < sizeOf (Tree.node tag ts) := by
  have hlt := List.sizeOf_lt_of_mem ht
  simp only [Tree.node.sizeOf_spec]
  omega

/-- **Whatever a tree renders as lays out a phrase of it**, with any domain and in any state of the
walk. -/
theorem phrase_of_render (t : Tree) : RendersPhrase host atEnd t := by
  induction hn : sizeOf t using Nat.strongRecOn generalizing t with
  | ind n ih =>
    subst hn
    cases t with
    | atom text =>
      intro w left text hrun
      exact ⟨_, .whole rfl text, by simp [Word.text, Word.sign]⟩
    | node tag ts =>
      have hts : ∀ t ∈ ts, RendersPhrase host atEnd t := fun t ht => ih _ (sizeOf_child ht) t rfl
      cases tag with
      | par => exact rendersPhrase_par hts
      | op o =>
        refine rendersPhrase_op (fun t ht => ⟨hts t ht, fun us hus u hu => ?_⟩) o
        -- a negation renders the operands of its operand
        cases t with
        | atom text => cases hus
        | node tag' us' =>
          cases hus
          exact ih _ (Nat.lt_trans (sizeOf_child hu) (sizeOf_child ht)) u rfl
      | _ =>
        intro w left text hrun
        exact ⟨_, .whole rfl text, by simp [Word.text, Word.sign]⟩

end RelationSql
