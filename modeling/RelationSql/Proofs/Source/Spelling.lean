import RelationSql.Proofs.Source.Delimited

/-!
# Tokens written again

The payload of a token says how it can be written: the spelling of a name or a number is read as the
same token (`read_name`, `read_integer`, `read_real`), and so is a text without quotes and
backslashes between single quotes (`read_text`). Every token of a source but its end was read from
some characters (`exists_read_of_mem`).
-/

namespace RelationSql.Source

open RelationSql.Text

/-! ## No symbol starts like a name or a number -/

/-- A symbol is not read from what starts with a character of another kind. -/
theorem readSymbol?_eq_none {c : Char} (h : c.isDigit = true ∨ isNameStart c = true ∨ c = '\'')
    (cs : List Char) : readSymbol? (c :: cs) Symbol.spellings = none := by
  cases hfound : readSymbol? (c :: cs) Symbol.spellings with
  | none => rfl
  | some reading =>
    have hmem := mem_heads_of_readSymbol? (by decide) hfound
    have hheads : (Symbol.spellings.filterMap fun entry => entry.1.toList.head?).all
        (fun d => !d.isDigit && !isNameStart d && d != '\'') = true := by decide
    have hhead := List.all_eq_true.1 hheads c hmem
    simp only [Bool.and_eq_true, Bool.not_eq_true', bne_iff_ne] at hhead
    obtain ⟨⟨hdigit, hname⟩, hquote⟩ := hhead
    rcases h with h | h | h
    · rw [hdigit] at h
      cases h
    · rw [hname] at h
      cases h
    · exact absurd h hquote

theorem ne_quote_of_isDigit {c : Char} (h : c.isDigit = true) :
    (c == '\'' || c == '"') = false := by
  cases hquote : c == '\'' || c == '"' with
  | false => rfl
  | true =>
    simp only [Bool.or_eq_true, beq_iff_eq] at hquote
    rcases hquote with rfl | rfl <;> cases h

theorem ne_quote_of_isNameStart {c : Char} (h : isNameStart c = true) :
    (c == '\'' || c == '"') = false := by
  cases hquote : c == '\'' || c == '"' with
  | false => rfl
  | true =>
    simp only [Bool.or_eq_true, beq_iff_eq] at hquote
    rcases hquote with rfl | rfl <;> cases h

/-- No digit starts a name. -/
theorem isDigit_of_isNameStart {c : Char} (h : isNameStart c = true) : c.isDigit = false := by
  cases hd : c.isDigit with
  | false => rfl
  | true =>
    simp only [Char.isDigit, Bool.and_eq_true, decide_eq_true_eq, UInt32.le_iff_toNat_le] at hd
    have hrange : 0x30 ≤ c.toNat ∧ c.toNat ≤ 0x39 := hd
    simp only [isNameStart, Bool.or_eq_true, beq_iff_eq] at h
    rcases h with h | rfl
    · rw [isLetter_of_ascii c (by omega)] at h
      have hletter := toNat_of_isAlpha h
      omega
    · exact absurd hrange (by decide)

/-- What starts with a digit is read as a number. -/
theorem read_of_isDigit {c : Char} (h : c.isDigit = true) (cs : List Char) :
    read c cs = readNumber (c :: cs) := by
  unfold read
  rw [readSymbol?_eq_none (Or.inl h), ne_quote_of_isDigit h, h]
  rfl

/-- What starts like a name is read as a word. -/
theorem read_of_isNameStart {c : Char} (h : isNameStart c = true) (cs : List Char) :
    read c cs = readWord (c :: cs) := by
  unfold read
  rw [readSymbol?_eq_none (Or.inr (Or.inl h)), ne_quote_of_isNameStart h,
    isDigit_of_isNameStart h, h]
  rfl

/-! ## The token of a spelling -/

/-- A class that holds all characters of a text takes the whole text. -/
theorem span_of_forall {p : Char → Bool} {text : List Char} (h : ∀ c ∈ text, p c = true) :
    text.takeWhile p = text ∧ text.dropWhile p = [] := by
  have htake : (text ++ []).takeWhile p = text ++ [].takeWhile p := List.takeWhile_append_of_pos h
  have hdrop : (text ++ []).dropWhile p = [].dropWhile p := List.dropWhile_append_of_pos h
  simpa using And.intro htake hdrop

theorem forall_mem_takeWhile {p : Char → Bool} (text : List Char) :
    ∀ c ∈ text.takeWhile p, p c = true :=
  List.all_eq_true.1 List.all_takeWhile

/-- What kind of token a character starts. -/
theorem read_cases (c : Char) (cs : List Char) :
    (∃ symbol, (read c cs).kind = .symbol symbol) ∨
      (∃ content, (read c cs).kind = .text content ∨ (read c cs).kind = .template content) ∨
      (∃ reason, (read c cs).kind = .invalid reason) ∨
      (c.isDigit = true ∧ read c cs = readNumber (c :: cs)) ∨
      (isNameStart c = true ∧ read c cs = readWord (c :: cs)) := by
  unfold read
  split
  · next reading hfound =>
    obtain ⟨-, entry, -, -, hkind⟩ := readSymbol?_append hfound
    exact Or.inl ⟨_, hkind⟩
  · split
    · right
      unfold readText
      split
      · next quoted _ =>
        refine Or.inl ⟨String.ofList quoted.content, ?_⟩
        simp only [quotedKind]
        split
        · exact Or.inr rfl
        · exact Or.inl rfl
      · exact Or.inr (Or.inl ⟨_, rfl⟩)
    · split
      · next hdigit => exact Or.inr (Or.inr (Or.inr (Or.inl ⟨hdigit, rfl⟩)))
      · split
        · next hname => exact Or.inr (Or.inr (Or.inr (Or.inr ⟨hname, rfl⟩)))
        · exact Or.inr (Or.inr (Or.inl ⟨_, rfl⟩))

/-- What a number is read as. -/
theorem readNumber_cases (text : List Char) :
    (readNumber text).kind = .integer (String.ofList (text.takeWhile Char.isDigit)) ∨
      ∃ c cs, c.isDigit = true ∧ (readNumber text).kind =
        .real (String.ofList
          (text.takeWhile Char.isDigit ++ '.' :: (c :: cs).takeWhile Char.isDigit)) := by
  unfold readNumber
  dsimp only
  split
  · next c cs _ =>
    split
    · next hc => exact Or.inr ⟨c, cs, hc, rfl⟩
    · exact Or.inl rfl
  · exact Or.inl rfl

theorem wordKind_cases (word : String) :
    wordKind word = .name word ∨ ∃ keyword, wordKind word = .keyword keyword := by
  unfold wordKind
  split
  · exact Or.inr ⟨_, rfl⟩
  · exact Or.inl rfl

/-- **The spelling of a name is read as the name.** -/
theorem read_name {c : Char} {cs : List Char} {name : String}
    (h : (read c cs).kind = .name name) :
    ∃ d ds, name = String.ofList (d :: ds) ∧ (∀ e ∈ d :: ds, isNameRest e = true) ∧
      read d ds = ⟨.name name, d :: ds, []⟩ := by
  rcases read_cases c cs with ⟨_, hk⟩ | ⟨_, hk | hk⟩ | ⟨_, hk⟩ | ⟨_, hk⟩ | ⟨hc, hk⟩
  · rw [hk] at h; cases h
  · rw [hk] at h; cases h
  · rw [hk] at h; cases h
  · rw [hk] at h; cases h
  · rw [hk] at h
    rcases readNumber_cases (c :: cs) with hn | ⟨_, _, _, hn⟩
    · rw [hn] at h; cases h
    · rw [hn] at h; cases h
  · have hword : (c :: cs).takeWhile isNameRest = c :: cs.takeWhile isNameRest :=
      List.takeWhile_cons_of_pos (isNameRest_of_isNameStart c hc)
    have hall := forall_mem_takeWhile (p := isNameRest) (c :: cs)
    rw [hword] at hall
    obtain ⟨htake, hdrop⟩ := span_of_forall hall
    rw [hk, readWord, hword] at h
    have hname : name = String.ofList (c :: cs.takeWhile isNameRest) := by
      rcases wordKind_cases (String.ofList (c :: cs.takeWhile isNameRest)) with hw | ⟨_, hw⟩
      · simp only [hw, TokenKind.name.injEq] at h
        exact h.symm
      · simp only [hw] at h
        cases h
    refine ⟨c, cs.takeWhile isNameRest, hname, hall, ?_⟩
    rw [read_of_isNameStart hc, readWord, htake, hdrop]
    simp only at h
    rw [h]

/-- The digits of a whole number are read as the number. -/
theorem readNumber_digits {digits : List Char} (hall : ∀ c ∈ digits, c.isDigit = true) :
    readNumber digits = ⟨.integer (String.ofList digits), digits, []⟩ := by
  obtain ⟨htake, hdrop⟩ := span_of_forall hall
  simp only [readNumber, htake, hdrop]

/-- The digits of a number with a point are read as the number. -/
theorem readNumber_point {whole fraction : List Char} {c : Char}
    (hwhole : ∀ d ∈ whole, d.isDigit = true) (hfraction : ∀ d ∈ c :: fraction, d.isDigit = true) :
    readNumber (whole ++ '.' :: c :: fraction) =
      ⟨.real (String.ofList (whole ++ '.' :: c :: fraction)), whole ++ '.' :: c :: fraction, []⟩ := by
  have htake : (whole ++ '.' :: c :: fraction).takeWhile Char.isDigit = whole := by
    rw [List.takeWhile_append_of_pos hwhole, List.takeWhile_cons_of_neg (by decide),
      List.append_nil]
  have hdrop : (whole ++ '.' :: c :: fraction).dropWhile Char.isDigit = '.' :: c :: fraction := by
    rw [List.dropWhile_append_of_pos hwhole, List.dropWhile_cons_of_neg (by decide)]
  obtain ⟨htake', hdrop'⟩ := span_of_forall hfraction
  have hc := hfraction c List.mem_cons_self
  simp only [readNumber, htake, hdrop, hc, if_true, htake', hdrop']

/-- **The spelling of a number is read as the number.** -/
theorem read_number {c : Char} {cs : List Char} {kind : TokenKind}
    (h : (read c cs).kind = kind) {digits : String}
    (hkind : kind = .integer digits ∨ kind = .real digits) :
    ∃ d ds, digits = String.ofList (d :: ds) ∧
      (∀ e ∈ d :: ds, e.isDigit = true ∨ e = '.') ∧ read d ds = ⟨kind, d :: ds, []⟩ := by
  have hnot : ∀ {other : TokenKind}, (read c cs).kind = other →
      other = .integer digits ∨ other = .real digits := by
    rintro other rfl
    rw [h]
    exact hkind
  rcases read_cases c cs with ⟨_, hk⟩ | ⟨_, hk | hk⟩ | ⟨_, hk⟩ | ⟨hc, hk⟩ | ⟨_, hk⟩
  · simpa using hnot hk
  · simpa using hnot hk
  · simpa using hnot hk
  · simpa using hnot hk
  · have hwhole : (c :: cs).takeWhile Char.isDigit = c :: cs.takeWhile Char.isDigit :=
      List.takeWhile_cons_of_pos hc
    have hall : ∀ d ∈ c :: cs.takeWhile Char.isDigit, d.isDigit = true := by
      rw [← hwhole]
      exact forall_mem_takeWhile _
    rw [hk] at h
    rcases readNumber_cases (c :: cs) with hn | ⟨e, es, he, hn⟩
    · rw [hn, hwhole] at h
      subst h
      refine ⟨c, cs.takeWhile Char.isDigit, by simpa [eq_comm] using hkind,
        fun d hd => Or.inl (hall d hd), ?_⟩
      rw [read_of_isDigit hc, readNumber_digits hall]
    · have hfraction : (e :: es).takeWhile Char.isDigit = e :: es.takeWhile Char.isDigit :=
        List.takeWhile_cons_of_pos he
      have hall' : ∀ d ∈ e :: es.takeWhile Char.isDigit, d.isDigit = true := by
        rw [← hfraction]
        exact forall_mem_takeWhile _
      rw [hn, hwhole, hfraction] at h
      subst h
      refine ⟨c, cs.takeWhile Char.isDigit ++ '.' :: e :: es.takeWhile Char.isDigit,
        by simpa [eq_comm] using hkind, ?_, ?_⟩
      · intro d hd
        rw [← List.cons_append] at hd
        rcases List.mem_append.1 hd with hd | hd
        · exact Or.inl (hall d hd)
        · rcases List.mem_cons.1 hd with rfl | hd
          · exact Or.inr rfl
          · exact Or.inl (hall' d hd)
      rw [read_of_isDigit hc, ← List.cons_append, readNumber_point hall hall']
  · have hword := wordKind_cases (String.ofList ((c :: cs).takeWhile isNameRest))
    have hkind' := hnot (congrArg Reading.kind hk)
    rcases hword with hw | ⟨_, hw⟩
    · simp [readWord, hw] at hkind'
    · simp [readWord, hw] at hkind'

/-! ## Texts -/

/-- A text without quotes and backslashes ends at the next quote. -/
theorem readQuoted_plain {content : List Char} (hquote : '\'' ∉ content)
    (hbackslash : '\\' ∉ content) (rest : List Char) :
    readQuoted '\'' (content ++ '\'' :: rest) = some ⟨content, content ++ ['\''], rest⟩ := by
  induction content with
  | nil => rw [List.nil_append, readQuoted_cons (by decide), if_pos rfl]; rfl
  | cons c content ih =>
    rw [List.mem_cons, not_or] at hquote hbackslash
    rw [List.cons_append, readQuoted_cons (Ne.symm hbackslash.1), if_neg (Ne.symm hquote.1),
      ih hquote.2 hbackslash.2]
    rfl

/-- **A text between single quotes is read as the text.** -/
theorem read_text {content : List Char} (hquote : '\'' ∉ content) (hbackslash : '\\' ∉ content) :
    read '\'' (content ++ ['\'']) =
      ⟨.text (String.ofList content), '\'' :: (content ++ ['\'']), []⟩ := by
  unfold read
  rw [readSymbol?_eq_none (Or.inr (Or.inr rfl))]
  simp [readText, readQuoted_plain hquote hbackslash, quotedKind]

/-! ## The tokens of a source -/

/-- A token of a text is its end or was read from some characters. -/
theorem exists_read_of_mem {offset : Nat} {text : List Char} {token : Token}
    (h : token ∈ tokensFrom offset text) :
    token.kind = .finish ∨ ∃ c cs, token.kind = (read c cs).kind := by
  fun_induction tokensFrom offset text with
  | case1 offset text start htext =>
    rw [List.mem_singleton.1 h]
    exact Or.inl rfl
  | case2 offset text start c cs htext reading stop ih =>
    rcases List.mem_cons.1 h with rfl | h
    · exact Or.inr ⟨c, cs, rfl⟩
    · exact ih h

theorem mem_of_mem_upToLast {token : Token} {tokens : List Token} (h : token ∈ upToLast tokens) :
    token ∈ tokens := by
  induction tokens with
  | nil => cases h
  | cons first tokens ih =>
    rw [upToLast] at h
    split at h
    · rw [List.mem_singleton.1 h]
      exact List.mem_cons_self
    · rcases List.mem_cons.1 h with rfl | h
      · exact List.mem_cons_self
      · exact List.mem_cons_of_mem _ (ih h)

/-- **A token of a source is its end or was read from some characters.** -/
theorem exists_read_of_mem_lex {source : String} {token : Token} (h : token ∈ lex source) :
    token.kind = .finish ∨ ∃ c cs, token.kind = (read c cs).kind :=
  exists_read_of_mem (mem_of_mem_upToLast h)

end RelationSql.Source
