import Mathlib.Tactic.Common
import RelationSql.Proofs.Query.Values

/-!
# Reading values back

The literal of a value says exactly what the value holds. A value is a tree; its leaves stand between
commas, whatever the tree looks like (`literal_eq_joinWith_leaves`). A reader that knows nothing of the
writer cuts the text at the commas outside quotes and reads each piece on its own (`readLiterals?`). No
text can end its quotes early or hide a comma behind them, since the quotes of a text and the doubled
quotes in it are even in number: a literal is one piece wherever it stands (`Whole`).

Lists are expanded in three places: by the inline literal, by the dialects and for bound values. They
agree at any depth (`quoteBound_literal`, `literal_numbers`).
-/

namespace RelationSql.Value

open RelationSql.Text

/-! ## Leaves -/

mutual

/-- What a value holds, from left to right. An empty list holds one `null`. -/
def leaves : Value → List Value
  | .null => [.null]
  | .bool value => [.bool value]
  | .int value => [.int value]
  | .float bits => [.float bits]
  | .text content => [.text content]
  | .list [] => [.null]
  | .list (item :: items) => leavesOfAll (item :: items)

/-- What the elements of a list hold. -/
def leavesOfAll : List Value → List Value
  | [] => []
  | item :: items => leaves item ++ leavesOfAll items

end

/-- The value holds no double precision number. -/
def FloatFree (value : Value) : Prop :=
  ∀ bits, .float bits ∉ value.leaves

mutual

theorem leaves_ne_nil : (value : Value) → value.leaves ≠ []
  | .null | .bool _ | .int _ | .float _ | .text _ | .list [] => List.cons_ne_nil _ _
  | .list (item :: items) => leavesOfAll_ne_nil item items

theorem leavesOfAll_ne_nil (item : Value) (items : List Value) : leavesOfAll (item :: items) ≠ [] :=
  fun h => leaves_ne_nil item (List.append_eq_nil_iff.1 h).1

end

mutual

/-- A list is no leaf. -/
theorem list_notMem_leaves (items : List Value) : (value : Value) → .list items ∉ value.leaves
  | .null | .bool _ | .int _ | .float _ | .text _ | .list [] => by simp [leaves]
  | .list (item :: more) => list_notMem_leavesOfAll items (item :: more)

theorem list_notMem_leavesOfAll (items : List Value) :
    (values : List Value) → .list items ∉ leavesOfAll values
  | [] => List.not_mem_nil
  | value :: values => by
    rw [leavesOfAll, List.mem_append, not_or]
    exact ⟨list_notMem_leaves items value, list_notMem_leavesOfAll items values⟩

end

/-- Two groups of texts are joined one behind the other. -/
theorem joinWith_append {separator : String} {texts more : List String} (h : texts ≠ [])
    (hmore : more ≠ []) :
    joinWith separator (texts ++ more) =
      joinWith separator texts ++ separator ++ joinWith separator more := by
  obtain ⟨first, more, rfl⟩ := List.exists_cons_of_ne_nil hmore
  fun_induction joinWith separator texts with
  | case1 => exact absurd rfl h
  | case2 text => rfl
  | case3 text texts hne ih =>
    rw [List.cons_append, joinWith, ih hne]
    · simp only [String.append_assoc]
    · exact fun hnil => hne (List.append_eq_nil_iff.1 hnil).1

mutual

/-- **The literal of a value is the literals of its leaves between commas.** -/
theorem literal_eq_joinWith_leaves (spelling : Spelling) :
    (value : Value) → value.literal spelling = joinWith "," (value.leaves.map (literal spelling))
  | .null | .bool _ | .int _ | .float _ | .text _ => rfl
  | .list [] => by rw [leaves, literal, List.map_singleton, literal, joinWith]
  | .list (item :: items) => by
    rw [literal, leaves]
    exact joinWith_literals spelling (item :: items)

/-- A list is expanded element by element. -/
theorem joinWith_literals (spelling : Spelling) :
    (items : List Value) → joinWith "," (literals spelling items) =
      joinWith "," ((leavesOfAll items).map (literal spelling))
  | [] => rfl
  | item :: items => by
    have hfirst := literal_eq_joinWith_leaves spelling item
    have hmore := joinWith_literals spelling items
    cases items with
    | nil =>
      rw [literals, literals, joinWith, leavesOfAll, leavesOfAll, List.append_nil]
      exact hfirst
    | cons second items =>
      have hleaves : (leavesOfAll (second :: items)).map (literal spelling) ≠ [] :=
        mt List.map_eq_nil_iff.1 (leavesOfAll_ne_nil second items)
      calc
        _ = item.literal spelling ++ "," ++ joinWith "," (literals spelling (second :: items)) := rfl
        _ = joinWith "," (item.leaves.map (literal spelling)) ++ "," ++
            joinWith "," ((leavesOfAll (second :: items)).map (literal spelling)) := by
          rw [hfirst, hmore]
        _ = _ := by
          rw [← joinWith_append (mt List.map_eq_nil_iff.1 (leaves_ne_nil item)) hleaves,
            ← List.map_append]
          rfl

end

/-! ## A reader of literals -/

/-- The pieces of a text between the commas outside single quotes; `quoted` tells if the text starts
inside them. -/
def pieces : (quoted : Bool) → List Char → List (List Char)
  | _, [] => [[]]
  | quoted, c :: cs =>
    if c = ',' ∧ quoted = false then [] :: pieces quoted cs
    else (pieces (if c = '\'' then !quoted else quoted) cs).modifyHead (c :: ·)

/-- The text before the quote that ends it and the literal; two quotes are one of the text. -/
def unquoted? : List Char → Option (List Char)
  | [] => none
  | ['\''] => some []
  | '\'' :: '\'' :: rest => (unquoted? rest).map ('\'' :: ·)
  | c :: rest => if c = '\'' then none else (unquoted? rest).map (c :: ·)

/-- The number that decimal digits write. -/
def natural? (digits : List Char) : Option Nat :=
  if digits ≠ [] ∧ digits.all Char.isDigit then some (Nat.ofDigitChars 10 digits 0) else none

/-- What an SQL literal says: a text in quotes, an integer or one of the three words. -/
def readLiteral? : List Char → Option Value
  | '\'' :: rest => (unquoted? rest).map fun content => .text (String.ofList content)
  | '-' :: rest => (natural? rest).map fun n : Nat => .int (-n)
  | piece =>
    if piece = ['N', 'U', 'L', 'L'] then some .null
    else if piece = ['T', 'R', 'U', 'E'] then some (.bool true)
    else if piece = ['F', 'A', 'L', 'S', 'E'] then some (.bool false)
    else (natural? piece).map fun n : Nat => .int n

/-- What the literals between commas say. -/
def readLiterals? (text : String) : Option (List Value) :=
  (pieces false text.toList).mapM readLiteral?

/-! ## Literals are pieces -/

/-- A text that stays in one piece and leaves what follows it as it is. -/
def Whole (piece : List Char) : Prop :=
  ∀ rest, pieces false (piece ++ rest) = (pieces false rest).modifyHead (piece ++ ·)

/-- A text without commas and quotes is whole. -/
theorem whole_of_plain {piece : List Char} (h : ∀ c ∈ piece, c ≠ ',' ∧ c ≠ '\'') : Whole piece := by
  intro rest
  induction piece with
  | nil =>
    change _ = (pieces false rest).modifyHead id
    rw [List.modifyHead_id, List.nil_append]
    rfl
  | cons c piece ih =>
    rw [List.forall_mem_cons] at h
    rw [List.cons_append, pieces, if_neg fun hc => h.1.1 hc.1, if_neg h.1.2, ih h.2,
      List.modifyHead_modifyHead]
    rfl

/-- Inside of quotes no comma and no doubled quote ends the piece. -/
theorem pieces_quoted (content rest : List Char) :
    pieces true (content.flatMap (fun c => if c = '\'' then ['\'', '\''] else [c]) ++ '\'' :: rest) =
      (pieces false rest).modifyHead
        (content.flatMap (fun c => if c = '\'' then ['\'', '\''] else [c]) ++ '\'' :: ·) := by
  induction content with
  | nil => rfl
  | cons c content ih =>
    rw [List.flatMap_cons, List.append_assoc]
    by_cases hc : c = '\''
    · rw [if_pos hc, List.cons_append, List.singleton_append, pieces, if_neg (by simp), if_pos rfl,
        Bool.not_true, pieces, if_neg (by decide), if_pos rfl, Bool.not_false, ih,
        List.modifyHead_modifyHead, List.modifyHead_modifyHead]
      rfl
    · rw [if_neg hc, List.singleton_append, pieces, if_neg (by simp), if_neg hc, ih,
        List.modifyHead_modifyHead]
      rfl

/-- **A text in quotes is whole**, whatever it holds. -/
theorem whole_wrapDoubled (content : List Char) : Whole (wrapDoubled '\'' content) := by
  intro rest
  rw [wrapDoubled, List.cons_append, List.cons_append, List.append_assoc, List.singleton_append, pieces,
    if_neg (by decide), if_pos rfl, Bool.not_false, pieces_quoted, List.modifyHead_modifyHead]
  congr 1
  funext piece
  simp

/-- The characters of an integer. -/
theorem toList_toString_int (value : Int) :
    (toString value).toList =
      match value with
      | .ofNat n => Nat.toDigits 10 n
      | .negSucc n => '-' :: Nat.toDigits 10 (n + 1) := by
  cases value with
  | ofNat n => simp [toString, Int.repr, Nat.repr]
  | negSucc n => simp [toString, Int.repr, Nat.repr]

/-- The characters of a natural number are digits. -/
theorem isDigit_of_mem_decimal {n : Nat} {c : Char} (h : c ∈ Nat.toDigits 10 n) : c.isDigit = true :=
  Nat.isDigit_of_mem_toDigits (by decide) (by decide) h

/-- **The literal of a leaf is whole.** -/
theorem whole_inline {leaf : Value} (hfloat : ∀ bits, leaf ≠ .float bits)
    (hlist : ∀ items, leaf ≠ .list items) : Whole leaf.inline.toList := by
  have hdigit {c : Char} (h : c.isDigit = true) : c ≠ ',' ∧ c ≠ '\'' := by
    constructor <;> rintro rfl <;> exact absurd h (by decide)
  cases leaf with
  | null => exact whole_of_plain (by decide)
  | bool value => cases value <;> exact whole_of_plain (by decide)
  | int value =>
    apply whole_of_plain
    rw [inline, literal, toList_toString_int]
    cases value with
    | ofNat n => exact fun c hc => hdigit (isDigit_of_mem_decimal hc)
    | negSucc n =>
      rw [List.forall_mem_cons]
      exact ⟨by decide, fun c hc => hdigit (isDigit_of_mem_decimal hc)⟩
  | float bits => exact absurd rfl (hfloat bits)
  | text content =>
    rw [inline, literal, quoteText, String.toList_ofList]
    exact whole_wrapDoubled content.toList
  | list items => exact absurd rfl (hlist items)

/-- Whole texts between commas are the pieces. -/
theorem pieces_joinWith {texts : List String} (hne : texts ≠ [])
    (h : ∀ text ∈ texts, Whole text.toList) :
    pieces false (joinWith "," texts).toList = texts.map String.toList := by
  fun_induction joinWith "," texts with
  | case1 => exact absurd rfl hne
  | case2 text =>
    have hwhole := h text List.mem_cons_self []
    rw [List.append_nil] at hwhole
    simp [hwhole, pieces]
  | case3 text texts hmore ih =>
    rw [List.forall_mem_cons] at h
    have hcomma (rest : List Char) : pieces false (',' :: rest) = [] :: pieces false rest := rfl
    rw [String.toList_append, String.toList_append, List.append_assoc, h.1,
      show ",".toList = [','] from rfl, List.singleton_append, hcomma,
      ih hmore h.2]
    simp

/-! ## Leaves are read back -/

/-- A text is read up to the quote that ends it. -/
theorem unquoted?_doubled (content : List Char) :
    unquoted? (content.flatMap (fun c => if c = '\'' then ['\'', '\''] else [c]) ++ ['\'']) =
      some content := by
  induction content with
  | nil => rfl
  | cons c content ih =>
    rw [List.flatMap_cons, List.append_assoc]
    by_cases hc : c = '\''
    · rw [if_pos hc, List.cons_append, List.singleton_append, unquoted?, ih, hc]
      rfl
    · rw [if_neg hc, List.singleton_append, unquoted?, if_neg hc, ih]
      · rfl
      · exact fun hquote => absurd hquote hc
      · exact fun _ hquote => absurd hquote hc

theorem natural?_toDigits (n : Nat) : natural? (Nat.toDigits 10 n) = some n := by
  rw [natural?, if_pos, Nat.ofDigitChars_toDigits (by decide) (by decide)]
  exact ⟨Nat.toDigits_ne_nil, List.all_eq_true.2 fun c hc => isDigit_of_mem_decimal hc⟩

/-- Digits are neither quoted nor a word, and they have no sign. -/
theorem readLiteral?_toDigits (n : Nat) : readLiteral? (Nat.toDigits 10 n) = some (.int n) := by
  have hread := natural?_toDigits n
  obtain ⟨c, cs, hdigits⟩ := List.exists_cons_of_ne_nil (Nat.toDigits_ne_nil (b := 10) (n := n))
  have hc : c.isDigit = true := isDigit_of_mem_decimal (n := n) (hdigits ▸ List.mem_cons_self)
  have hword {word : Char} {more : List Char} (hword : word.isDigit = false) : c :: cs ≠ word :: more :=
    fun heq => by
      obtain ⟨rfl, -⟩ := List.cons.inj heq
      rw [hc] at hword
      cases hword
  rw [hdigits] at hread ⊢
  rw [readLiteral?, if_neg (hword rfl), if_neg (hword rfl), if_neg (hword rfl), hread]
  · rfl
  · exact fun rest heq => hword rfl heq
  · exact fun rest heq => hword rfl heq

/-- **The literal of a leaf says the leaf.** -/
theorem readLiteral?_inline {leaf : Value} (hfloat : ∀ bits, leaf ≠ .float bits)
    (hlist : ∀ items, leaf ≠ .list items) : readLiteral? leaf.inline.toList = some leaf := by
  cases leaf with
  | null => rfl
  | bool value => cases value <;> rfl
  | int value =>
    rw [inline, literal, toList_toString_int]
    cases value with
    | ofNat n => exact readLiteral?_toDigits n
    | negSucc n =>
      rw [readLiteral?, natural?_toDigits]
      rfl
  | float bits => exact absurd rfl (hfloat bits)
  | text content =>
    rw [inline, literal, quoteText, String.toList_ofList, wrapDoubled, List.cons_append, readLiteral?,
      unquoted?_doubled]
    exact congrArg (fun content => some (Value.text content)) (String.ofList_toList)
  | list items => exact absurd rfl (hlist items)

theorem mapM_readLiteral? {leaves : List Value}
    (h : ∀ leaf ∈ leaves, readLiteral? leaf.inline.toList = some leaf) :
    (leaves.mapM fun leaf => readLiteral? leaf.inline.toList) = some leaves := by
  induction leaves with
  | nil => rfl
  | cons leaf leaves ih =>
    rw [List.forall_mem_cons] at h
    rw [List.mapM_cons, h.1, ih h.2]
    rfl

/-- **Values are read back.** The pieces of the literal of a value say its leaves. -/
theorem readLiterals?_inline {value : Value} (h : value.FloatFree) :
    readLiterals? value.inline = some value.leaves := by
  have hfloat {leaf : Value} (hleaf : leaf ∈ value.leaves) (bits : UInt64) : leaf ≠ .float bits :=
    fun heq => h bits (heq ▸ hleaf)
  have hlist {leaf : Value} (hleaf : leaf ∈ value.leaves) (items : List Value) : leaf ≠ .list items :=
    fun heq => list_notMem_leaves items value (heq ▸ hleaf)
  have hwhole : ∀ text ∈ value.leaves.map inline, Whole text.toList := by
    rw [List.forall_mem_map]
    exact fun leaf hleaf => whole_inline (hfloat hleaf) (hlist hleaf)
  have hsome : ∀ leaf ∈ value.leaves, readLiteral? leaf.inline.toList = some leaf :=
    fun leaf hleaf => readLiteral?_inline (hfloat hleaf) (hlist hleaf)
  have hpieces : pieces false value.inline.toList = (value.leaves.map inline).map String.toList := by
    rw [inline, literal_eq_joinWith_leaves]
    exact pieces_joinWith (mt List.map_eq_nil_iff.1 (leaves_ne_nil value)) hwhole
  rw [readLiterals?, hpieces, List.mapM_map, List.mapM_map]
  exact mapM_readLiteral? hsome

/-! ## Truth values as numbers -/

mutual

/-- The value with one and nought for the truth values in it. -/
def withNumbers : Value → Value
  | .null => .null
  | .bool true => .int 1
  | .bool false => .int 0
  | .int value => .int value
  | .float bits => .float bits
  | .text content => .text content
  | .list items => .list (withNumbersAll items)

/-- The elements with one and nought for the truth values in them. -/
def withNumbersAll : List Value → List Value
  | [] => []
  | item :: items => withNumbers item :: withNumbersAll items

end

mutual

/-- **Truth values written as numbers are the numbers.** -/
theorem literal_numbers : (value : Value) → value.literal numbers = value.withNumbers.inline
  | .null | .bool true | .bool false | .int _ | .float _ | .text _ | .list [] => rfl
  | .list (item :: items) => by
    rw [literal, withNumbers, literals_numbers, withNumbersAll, inline, literal]

theorem literals_numbers :
    (items : List Value) → literals numbers items = literals words (withNumbersAll items)
  | [] => rfl
  | item :: items => by
    rw [literals, literal_numbers item, literals_numbers items, withNumbersAll, literals, inline]

end

end RelationSql.Value

namespace RelationSql.Query

open RelationSql.Fragment

/-- **Bound values are expanded as the literals are.** -/
theorem quoteBound_literal (spelling : Value.Spelling) (value : Value) :
    quoteBound (Value.literal spelling) value = value.literal spelling := by
  cases value with
  | list items =>
    cases items with
    | nil => rw [quoteBound, Value.literal, Value.literal]
    | cons item items =>
      rw [quoteBound, ← Value.literals_eq_map, Value.literal]
      exact List.cons_ne_nil item items
  | _ => rfl

/-- **Bound values say what they hold.** A statement with values is its restored pieces with the text of
each bind's value behind them. Where truth values are words, the text is the literal of the value, and
where they are numbers, it is the literal of the value with numbers for them; the literal of a value
without double precision numbers is read back as the leaves of the value, whatever its texts hold. -/
theorem sql_inserts_readable (q : Query) (bindings : Bindings) (kind : StatementKind) :
    let parts := cut (q.statement kind).toList
    q.sql bindings kind =
        withValues q.dialect.quoteValue bindings (restoredPieces parts) (restoredLast parts) ∧
      (q.dialect = .generic ∨ q.dialect = .postgres →
        ∀ value, quoteBound q.dialect.quoteValue value = value.inline) ∧
      (q.dialect = .sqlite →
        ∀ value, quoteBound q.dialect.quoteValue value = value.withNumbers.inline) ∧
      ∀ value : Value, value.FloatFree → Value.readLiterals? value.inline = some value.leaves := by
  intro parts
  refine ⟨sqlWith_eq_withValues q _ bindings kind, ?_, ?_, fun value => Value.readLiterals?_inline⟩
  · intro hwords value
    have htruth : q.dialect.truth = Value.words := by
      obtain h | h := hwords <;> rw [h] <;> rfl
    rw [Dialect.quoteValue, quoteBound_literal, htruth, Value.inline]
  · intro hnumbers value
    have htruth : q.dialect.truth = Value.numbers := by
      rw [hnumbers]
      rfl
    rw [Dialect.quoteValue, quoteBound_literal, htruth, Value.literal_numbers]

/-- A list with a text of quotes and commas, an empty list and a list of its own. -/
def nested : Value :=
  .list [.text "it's, ' OR 1,'", .list [], .list [.bool true, .int (-3)]]

theorem floatFree_nested : nested.FloatFree := by
  intro bits h
  simp [nested, Value.leaves, Value.leavesOfAll] at h

/-- The quotes of the text are doubled; read back, the commas in it are its own. -/
theorem nested_reads_back :
    quoteBound oneOfTwo.dialect.quoteValue nested = "'it''s, '' OR 1,''',NULL,TRUE,-3" ∧
      quoteBound Dialect.sqlite.quoteValue nested = "'it''s, '' OR 1,''',NULL,1,-3" ∧
      Value.readLiterals? nested.inline =
        some [.text "it's, ' OR 1,'", .null, .bool true, .int (-3)] := by
  obtain ⟨-, hwords, -, hread⟩ := sql_inserts_readable oneOfTwo (fun _ => some nested) .find
  obtain ⟨-, -, hnumbers, -⟩ :=
    sql_inserts_readable { oneOfTwo with dialect := .sqlite } (fun _ => some nested) .find
  refine ⟨(hwords (.inl rfl) nested).trans ?_, (hnumbers rfl nested).trans ?_,
    (hread nested floatFree_nested).trans ?_⟩
  · decide +kernel
  · decide +kernel
  · rfl

end RelationSql.Query
