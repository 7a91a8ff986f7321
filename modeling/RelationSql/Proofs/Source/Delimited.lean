import RelationSql.Source.Lexer

/-!
# Tokens in front of a delimiter

A blank, a comma and a closing parenthesis end every token. A text that is read as one token by
itself is therefore read as the same token in front of them (`read_of_delimited`), and the tokens of
a longer text are those of its pieces (`tokensFrom_of_read`, `tokensFrom_space`).
-/

namespace RelationSql.Source

open RelationSql.Text

/-- Is the character one of those that end every token? -/
def isDelimiter (c : Char) : Bool :=
  c == ' ' || c == ',' || c == ')'

/-- Does the text end, or start with a delimiter? -/
def isDelimited : List Char → Bool
  | [] => true
  | c :: _ => isDelimiter c

theorem isDelimiter_iff {c : Char} : isDelimiter c = true ↔ c = ' ' ∨ c = ',' ∨ c = ')' := by
  simp [isDelimiter, or_assoc]

/-- A class that holds no delimiter takes nothing off a delimited text. -/
theorem takeWhile_of_isDelimited {p : Char → Bool} (hp : ∀ c, isDelimiter c = true → p c = false)
    {more : List Char} (h : isDelimited more = true) : more.takeWhile p = [] := by
  cases more with
  | nil => rfl
  | cons c more => rw [List.takeWhile_cons_of_neg (by simp [hp c h])]

theorem dropWhile_of_isDelimited {p : Char → Bool} (hp : ∀ c, isDelimiter c = true → p c = false)
    {more : List Char} (h : isDelimited more = true) : more.dropWhile p = more := by
  cases more with
  | nil => rfl
  | cons c more => rw [List.dropWhile_cons_of_neg (by simp [hp c h])]

theorem isDigit_of_isDelimiter (c : Char) (h : isDelimiter c = true) : c.isDigit = false := by
  rcases isDelimiter_iff.1 h with rfl | rfl | rfl <;> decide

theorem isNameRest_of_isDelimiter (c : Char) (h : isDelimiter c = true) : isNameRest c = false := by
  rcases isDelimiter_iff.1 h with rfl | rfl | rfl <;> decide

/-! ## Symbols -/

/-- What a text starts with is found in a longer text as well. -/
theorem after?_append {front text rest : List Char} (h : after? front text = some rest)
    (more : List Char) : after? front (text ++ more) = some (rest ++ more) := by
  rw [after?_eq_some_iff] at h ⊢
  rw [h, List.append_assoc]

/-- No delimiter completes a text without delimiters. -/
theorem after?_append_eq_none {front text more : List Char} (h : after? front text = none)
    (hfront : ∀ c ∈ front, isDelimiter c = false) (hmore : isDelimited more = true) :
    after? front (text ++ more) = none := by
  induction front generalizing text with
  | nil => cases h
  | cons a front ih =>
    have htail := fun c hc => hfront c (List.mem_cons_of_mem a hc)
    cases text with
    | nil =>
      cases more with
      | nil => rfl
      | cons d more =>
        have hne : a ≠ d := by
          rintro rfl
          rw [isDelimited, hfront a List.mem_cons_self] at hmore
          cases hmore
        simp [after?, hne]
    | cons b text =>
      by_cases hab : a = b
      · simp only [after?, hab, if_true, List.cons_append] at h ⊢
        exact ih h htail
      · simp [after?, hab]

/-- Are all spellings of a table free of delimiters after their first character? -/
def isUndelimited (table : List (String × Symbol)) : Bool :=
  table.all fun entry => entry.1.toList.tail.all fun c => !isDelimiter c

/-- A symbol is read in front of a delimiter as it is read alone. -/
theorem readSymbol?_append_of_delimited {table : List (String × Symbol)}
    (ht : isUndelimited table = true) {c : Char} {cs more : List Char}
    (hmore : isDelimited more = true) :
    readSymbol? (c :: cs ++ more) table =
      (readSymbol? (c :: cs) table).map fun reading =>
        ⟨reading.kind, reading.lexeme, reading.rest ++ more⟩ := by
  induction table with
  | nil => rfl
  | cons entry table ih =>
    obtain ⟨spelling, symbol⟩ := entry
    simp only [isUndelimited, List.all_cons, Bool.and_eq_true] at ht
    rw [readSymbol?, readSymbol?]
    cases hfound : after? spelling.toList (c :: cs) with
    | some rest =>
      rw [after?_append hfound]
      rfl
    | none =>
      have hnone : after? spelling.toList (c :: cs ++ more) = none := by
        cases hspelling : spelling.toList with
        | nil =>
          rw [hspelling] at hfound
          cases hfound
        | cons a front =>
          rw [hspelling] at hfound ht
          have hfront : ∀ d ∈ front, isDelimiter d = false := by
            simpa using ht.1
          by_cases hac : a = c
          · simp only [after?, hac, if_true, List.cons_append] at hfound ⊢
            exact after?_append_eq_none hfound hfront hmore
          · simp [after?, hac]
      rw [hnone]
      exact ih ht.2

/-! ## Quoted texts, numbers and words -/

/-- A character that is no backslash stands for itself or closes the text. -/
theorem readQuoted_cons {quote c : Char} (hc : c ≠ '\\') (cs : List Char) :
    readQuoted quote (c :: cs) =
      if c = quote then some ⟨[], [c], cs⟩
      else (readQuoted quote cs).map (QuotedText.cons c [c]) := by
  rw [readQuoted]
  · exact fun heq _ => hc heq
  · exact fun _ _ heq _ => hc heq

/-- A closed quoted text is not changed by what follows it. -/
theorem readQuoted_append_more {quote : Char} {cs : List Char} {quoted : QuotedText}
    (h : readQuoted quote cs = some quoted) (more : List Char) :
    readQuoted quote (cs ++ more) =
      some ⟨quoted.content, quoted.lexeme, quoted.rest ++ more⟩ := by
  have hplain : ∀ {c : Char} {cs : List Char}, (c = '\\' → cs = [] → False) →
      (∀ d ds, c = '\\' → cs = d :: ds → False) → c ≠ '\\' := by
    intro c cs hnil hcons hc
    cases cs with
    | nil => exact hnil hc rfl
    | cons d ds => exact hcons d ds hc rfl
  fun_induction readQuoted quote cs generalizing quoted with
  | case1 => cases h
  | case2 => cases h
  | case3 c cs ih =>
    obtain ⟨tail, ht, rfl⟩ := Option.map_eq_some_iff.1 h
    simp [readQuoted, ih ht, QuotedText.cons]
  | case4 cs hnil hcons =>
    cases h
    rw [List.cons_append, readQuoted_cons (hplain hnil hcons), if_pos rfl]
  | case5 c cs hnil hcons hc ih =>
    obtain ⟨tail, ht, rfl⟩ := Option.map_eq_some_iff.1 h
    rw [List.cons_append, readQuoted_cons (hplain hnil hcons), if_neg hc, ih ht]
    rfl

/-- A class takes the same off a text in front of a delimiter. -/
theorem takeWhile_append_of_isDelimited {p : Char → Bool}
    (hp : ∀ c, isDelimiter c = true → p c = false) (text : List Char) {more : List Char}
    (hmore : isDelimited more = true) :
    (text ++ more).takeWhile p = text.takeWhile p ∧
      (text ++ more).dropWhile p = text.dropWhile p ++ more := by
  induction text with
  | nil => exact ⟨takeWhile_of_isDelimited hp hmore, dropWhile_of_isDelimited hp hmore⟩
  | cons c text ih =>
    obtain ⟨htake, hdrop⟩ := ih
    rw [List.cons_append]
    by_cases hc : p c = true
    · rw [List.takeWhile_cons_of_pos hc, List.takeWhile_cons_of_pos hc,
        List.dropWhile_cons_of_pos hc, List.dropWhile_cons_of_pos hc, htake]
      exact ⟨rfl, hdrop⟩
    · rw [List.takeWhile_cons_of_neg hc, List.takeWhile_cons_of_neg hc,
        List.dropWhile_cons_of_neg hc, List.dropWhile_cons_of_neg hc]
      exact ⟨rfl, rfl⟩

/-- The same reading, with more text behind it. -/
def Reading.before (more : List Char) (reading : Reading) : Reading :=
  ⟨reading.kind, reading.lexeme, reading.rest ++ more⟩

/-- A number without a fraction. -/
theorem readNumber_whole {text : List Char}
    (h : ∀ c cs, text.dropWhile Char.isDigit = '.' :: c :: cs → c.isDigit = false) :
    readNumber text = ⟨.integer (String.ofList (text.takeWhile Char.isDigit)),
      text.takeWhile Char.isDigit, text.dropWhile Char.isDigit⟩ := by
  unfold readNumber
  dsimp only
  split
  · next c cs hrest => rw [if_neg (by simp [h c cs hrest]), hrest]
  · rfl

/-- A number with a fraction. -/
theorem readNumber_fraction {text : List Char} {c : Char} {cs : List Char}
    (h : text.dropWhile Char.isDigit = '.' :: c :: cs) (hc : c.isDigit = true) :
    readNumber text =
      ⟨.real (String.ofList (text.takeWhile Char.isDigit ++ '.' :: (c :: cs).takeWhile Char.isDigit)),
        text.takeWhile Char.isDigit ++ '.' :: (c :: cs).takeWhile Char.isDigit,
        (c :: cs).dropWhile Char.isDigit⟩ := by
  unfold readNumber
  simp only [h, hc, if_true]

/-- A number is read in front of a delimiter as it is read alone. -/
theorem readNumber_append_of_delimited (text : List Char) {more : List Char}
    (hmore : isDelimited more = true) :
    readNumber (text ++ more) = (readNumber text).before more := by
  obtain ⟨htake, hdrop⟩ := takeWhile_append_of_isDelimited isDigit_of_isDelimiter text hmore
  by_cases hfraction : ∃ c cs, text.dropWhile Char.isDigit = '.' :: c :: cs ∧ c.isDigit = true
  · obtain ⟨c, cs, hrest, hc⟩ := hfraction
    obtain ⟨htake', hdrop'⟩ :=
      takeWhile_append_of_isDelimited isDigit_of_isDelimiter (c :: cs) hmore
    have hrest' : (text ++ more).dropWhile Char.isDigit = '.' :: c :: (cs ++ more) := by
      rw [hdrop, hrest]
      rfl
    rw [readNumber_fraction hrest hc, readNumber_fraction hrest' hc, htake, ← List.cons_append,
      htake', hdrop']
    rfl
  · have hwhole : ∀ c cs, text.dropWhile Char.isDigit = '.' :: c :: cs → c.isDigit = false := by
      intro c cs hrest
      exact Bool.eq_false_iff.2 fun hc => hfraction ⟨c, cs, hrest, hc⟩
    have hwhole' : ∀ c cs, (text ++ more).dropWhile Char.isDigit = '.' :: c :: cs →
        c.isDigit = false := by
      intro c cs hrest'
      rw [hdrop] at hrest'
      -- neither the point nor the digit behind it is a delimiter
      rcases hrest : text.dropWhile Char.isDigit with _ | ⟨d, _ | ⟨e, rest⟩⟩
      · rw [hrest, List.nil_append] at hrest'
        rw [hrest'] at hmore
        cases hmore
      · rw [hrest, List.singleton_append] at hrest'
        obtain ⟨-, hmore'⟩ := List.cons.inj hrest'
        rw [hmore'] at hmore
        exact isDigit_of_isDelimiter c hmore
      · rw [hrest, List.cons_append, List.cons_append] at hrest'
        cases hrest'
        exact hwhole c rest hrest
    rw [readNumber_whole hwhole, readNumber_whole hwhole', htake, hdrop]
    rfl

/-- A word is read in front of a delimiter as it is read alone. -/
theorem readWord_append_of_delimited (text : List Char) {more : List Char}
    (hmore : isDelimited more = true) : readWord (text ++ more) = (readWord text).before more := by
  obtain ⟨htake, hdrop⟩ := takeWhile_append_of_isDelimited isNameRest_of_isDelimiter text hmore
  unfold readWord
  rw [htake, hdrop]
  rfl

/-! ## One token -/

/-- **A token is read in front of a delimiter as it is read alone**, with the delimiter behind what it
leaves. -/
theorem read_append_of_delimited {c : Char} {cs more : List Char}
    (hkind : (read c cs).kind.isLast = false) (hmore : isDelimited more = true) :
    read c (cs ++ more) = (read c cs).before more := by
  have hsymbol : readSymbol? (c :: (cs ++ more)) Symbol.spellings =
      (readSymbol? (c :: cs) Symbol.spellings).map fun reading =>
        ⟨reading.kind, reading.lexeme, reading.rest ++ more⟩ :=
    readSymbol?_append_of_delimited (by decide) hmore
  unfold read at hkind ⊢
  rw [hsymbol]
  cases hfound : readSymbol? (c :: cs) Symbol.spellings with
  | some reading => rfl
  | none =>
    rw [hfound] at hkind
    simp only [Option.map_none] at hkind ⊢
    split
    · next hquote =>
      rw [if_pos hquote] at hkind
      unfold readText at hkind ⊢
      cases hquoted : readQuoted c cs with
      | none =>
        rw [hquoted] at hkind
        cases hkind
      | some quoted =>
        rw [readQuoted_append_more hquoted]
        rfl
    · next hquote =>
      rw [if_neg hquote] at hkind
      split
      · exact readNumber_append_of_delimited (c :: cs) hmore
      · next hdigit =>
        rw [if_neg hdigit] at hkind
        split
        · exact readWord_append_of_delimited (c :: cs) hmore
        · next hname =>
          rw [if_neg hname] at hkind
          cases hkind

theorem read_of_delimited {c : Char} {cs more : List Char} {kind : TokenKind}
    (h : read c cs = ⟨kind, c :: cs, []⟩) (hkind : kind.isLast = false)
    (hmore : isDelimited more = true) : read c (cs ++ more) = ⟨kind, c :: cs, more⟩ := by
  rw [read_append_of_delimited (by rw [h]; exact hkind) hmore, h]
  rfl

/-! ## Blanks -/

/-- Do two classes of characters share no code point? -/
def areDisjoint (these those : CodeRanges) : Bool :=
  these.all fun a => those.all fun b => decide (a.2 < b.1) || decide (b.2 < a.1)

theorem contains_of_areDisjoint {these those : CodeRanges} (h : areDisjoint these those = true)
    {c : Char} (hc : these.contains c = true) : those.contains c = false := by
  obtain ⟨a, ha, hlow, hhigh⟩ := (CodeRanges.contains_iff these c).1 hc
  cases hb : those.contains c with
  | false => rfl
  | true =>
    obtain ⟨b, hb, hlow', hhigh'⟩ := (CodeRanges.contains_iff those c).1 hb
    have hab := List.all_eq_true.1 (List.all_eq_true.1 h a ha) b hb
    simp only [Bool.or_eq_true, decide_eq_true_eq] at hab
    omega

/-- The letters and digits of ASCII. -/
def alphanumericRanges : CodeRanges :=
  [(0x30, 0x39), (0x41, 0x5A), (0x5F, 0x5F), (0x61, 0x7A)]

theorem alphanumericRanges_of_isDigit {c : Char} (h : c.isDigit = true) :
    alphanumericRanges.contains c = true := by
  simp only [Char.isDigit, Bool.and_eq_true, decide_eq_true_eq, UInt32.le_iff_toNat_le] at h
  have hrange : 0x30 ≤ c.toNat ∧ c.toNat ≤ 0x39 := h
  simp [alphanumericRanges, CodeRanges.contains, hrange]

/-- The code points of the ASCII letters. -/
theorem toNat_of_isAlpha {c : Char} (h : c.isAlpha = true) :
    (0x41 ≤ c.toNat ∧ c.toNat ≤ 0x5A) ∨ (0x61 ≤ c.toNat ∧ c.toNat ≤ 0x7A) := by
  have hcases : (c.isUpper || c.isLower) = true := h
  rcases Bool.or_eq_true_iff.1 hcases with hupper | hlower
  · exact Or.inl (of_decide_eq_true hupper)
  · obtain ⟨hleast, hmost⟩ := Bool.and_eq_true_iff.1 hlower
    exact Or.inr ⟨of_decide_eq_true hleast, of_decide_eq_true hmost⟩

theorem alphanumericRanges_of_isAlpha {c : Char} (h : c.isAlpha = true) :
    alphanumericRanges.contains c = true := by
  rcases toNat_of_isAlpha h with hrange | hrange <;>
    simp [alphanumericRanges, CodeRanges.contains, hrange]

/-- No letter is blank. -/
theorem isBlank_of_isNameStart {c : Char} (h : isNameStart c = true) : isBlank c = false := by
  cases hb : isBlank c with
  | false => rfl
  | true =>
    have hletter : letterRanges.contains c = false :=
      contains_of_areDisjoint (by decide +kernel) hb
    have halpha : alphanumericRanges.contains c = false :=
      contains_of_areDisjoint (by decide) hb
    simp only [isNameStart, isLetter, Bool.or_eq_true, beq_iff_eq] at h
    rcases h with h | rfl
    · split at h
      · rw [alphanumericRanges_of_isAlpha h] at halpha
        cases halpha
      · rw [hletter] at h
        cases h
    · exact absurd halpha (by decide)

/-- No digit is blank. -/
theorem isBlank_of_isDigit {c : Char} (h : c.isDigit = true) : isBlank c = false := by
  cases hb : isBlank c with
  | false => rfl
  | true =>
    have halpha : alphanumericRanges.contains c = false := contains_of_areDisjoint (by decide) hb
    rw [alphanumericRanges_of_isDigit h] at halpha
    cases halpha

/-- The first character of a symbol. -/
theorem mem_heads_of_readSymbol? {c : Char} {cs : List Char} {table : List (String × Symbol)}
    (ht : table.all fun entry => !entry.1.toList.isEmpty) {reading : Reading}
    (h : readSymbol? (c :: cs) table = some reading) :
    c ∈ table.filterMap fun entry => entry.1.toList.head? := by
  obtain ⟨happ, entry, hmem, hlexeme, -⟩ := readSymbol?_append h
  rw [List.mem_filterMap]
  refine ⟨entry, hmem, ?_⟩
  have hne := List.all_eq_true.1 ht entry hmem
  rw [hlexeme] at happ
  cases hspelling : entry.1.toList with
  | nil =>
    rw [hspelling] at hne
    cases hne
  | cons a front =>
    rw [hspelling] at happ
    cases happ
    rfl

/-- **No token starts with a blank.** -/
theorem isBlank_of_read {c : Char} {cs : List Char} (h : (read c cs).kind.isLast = false) :
    isBlank c = false := by
  unfold read at h
  split at h
  · next reading hfound =>
    have hmem := mem_heads_of_readSymbol? (by decide) hfound
    have hheads : (Symbol.spellings.filterMap fun entry => entry.1.toList.head?).all
        (fun d => !isBlank d) = true := by decide
    simpa using List.all_eq_true.1 hheads c hmem
  · split at h
    · next hquote =>
      simp only [Bool.or_eq_true, beq_iff_eq] at hquote
      rcases hquote with rfl | rfl <;> decide
    · split at h
      · next hdigit => exact isBlank_of_isDigit hdigit
      · split at h
        · next hname => exact isBlank_of_isNameStart hname
        · cases h

/-! ## The tokens of a longer text -/

/-- A text of blanks holds the end of the source only. -/
theorem tokensFrom_of_nil {text : List Char} (h : text.dropWhile isBlank = []) (offset : Nat) :
    tokensFrom offset text =
      [⟨.finish, ⟨offset + bytes (text.takeWhile isBlank),
        offset + bytes (text.takeWhile isBlank)⟩⟩] := by
  conv => lhs; unfold tokensFrom
  split
  · rfl
  · next heq =>
    rw [h] at heq
    cases heq

/-- The first token of a text and the tokens after it. -/
theorem tokensFrom_of_cons {text : List Char} {c : Char} {cs : List Char}
    (h : text.dropWhile isBlank = c :: cs) {start : Nat} (offset : Nat)
    (hstart : start = offset + bytes (text.takeWhile isBlank)) :
    tokensFrom offset text =
      ⟨(read c cs).kind, ⟨start, start + bytes (read c cs).lexeme⟩⟩ ::
        tokensFrom (start + bytes (read c cs).lexeme) (read c cs).rest := by
  conv => lhs; unfold tokensFrom
  split
  · next heq =>
    rw [h] at heq
    cases heq
  · next heq =>
    rw [h] at heq
    cases heq
    rw [hstart]

/-- A blank is passed over. -/
theorem tokensFrom_blank {c : Char} (hc : isBlank c = true) (offset : Nat) (cs : List Char) :
    tokensFrom offset (c :: cs) = tokensFrom (offset + c.utf8Size) cs := by
  have hdrop : (c :: cs).dropWhile isBlank = cs.dropWhile isBlank := List.dropWhile_cons_of_pos hc
  have htake : bytes ((c :: cs).takeWhile isBlank) = c.utf8Size + bytes (cs.takeWhile isBlank) := by
    rw [List.takeWhile_cons_of_pos hc, bytes_cons]
  cases hcs : cs.dropWhile isBlank with
  | nil =>
    rw [hcs] at hdrop
    rw [tokensFrom_of_nil hdrop, tokensFrom_of_nil hcs, htake, Nat.add_assoc]
  | cons d ds =>
    rw [hcs] at hdrop
    rw [tokensFrom_of_cons hdrop offset rfl, tokensFrom_of_cons hcs _ rfl, htake, ← Nat.add_assoc]

theorem tokensFrom_space (offset : Nat) (cs : List Char) :
    tokensFrom offset (' ' :: cs) = tokensFrom (offset + 1) cs :=
  tokensFrom_blank (by decide) offset cs

/-- What is read in front of the rest of a text. -/
theorem tokensFrom_reading {kind : TokenKind} {c : Char} {cs more : List Char}
    (hc : isBlank c = false) (h : read c (cs ++ more) = ⟨kind, c :: cs, more⟩) (offset : Nat) :
    tokensFrom offset (c :: cs ++ more) =
      ⟨kind, ⟨offset, offset + bytes (c :: cs)⟩⟩ :: tokensFrom (offset + bytes (c :: cs)) more := by
  have hdrop : (c :: cs ++ more).dropWhile isBlank = c :: (cs ++ more) :=
    List.dropWhile_cons_of_neg (by simp [hc])
  have htake : (c :: cs ++ more).takeWhile isBlank = [] :=
    List.takeWhile_cons_of_neg (by simp [hc])
  rw [tokensFrom_of_cons hdrop offset rfl, htake, h]
  rfl

/-- A token in front of the rest of a text. -/
theorem tokensFrom_of_read {c : Char} {cs more : List Char} {kind : TokenKind}
    (h : read c (cs ++ more) = ⟨kind, c :: cs, more⟩) (hkind : kind.isLast = false)
    (offset : Nat) : tokensFrom offset (c :: cs ++ more) =
      ⟨kind, ⟨offset, offset + bytes (c :: cs)⟩⟩ :: tokensFrom (offset + bytes (c :: cs)) more := by
  have hlast : (read c (cs ++ more)).kind.isLast = false := by
    rw [h]
    exact hkind
  exact tokensFrom_reading (isBlank_of_read hlast) h offset

/-- Tokens that are all used are followed by what follows them. -/
theorem upToLast_append {tokens more : List Token}
    (h : ∀ token ∈ tokens, token.kind.isLast = false) :
    upToLast (tokens ++ more) = tokens ++ upToLast more := by
  induction tokens with
  | nil => rfl
  | cons token tokens ih =>
    rw [List.forall_mem_cons] at h
    simp [upToLast, h.1, ih h.2]

end RelationSql.Source
