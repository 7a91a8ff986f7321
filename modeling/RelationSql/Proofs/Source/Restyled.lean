import RelationSql.Proofs.Source.Ahead
import RelationSql.Proofs.Source.Tiling

/-!
# Sources in another layout

A source is laid out anew by writing other blanks where there are some, outside quoted texts, and by
writing its reserved words in other capitals (`Restyled`). Its tokens then stay the same but for their
places (`Relaid`): every token has its kind and its payload, and a minus touches what follows it as
before (`relaid_of_restyled`).
-/

namespace RelationSql.Source

open RelationSql.Text

/-! ## The same tokens in other places -/

/-- The same tokens, in other places: they have the same kinds, and a minus touches the token after it
in both lists or in neither. -/
inductive Relaid : List Token → List Token → Prop where
  | nil : Relaid [] []
  | cons {token token' : Token} {tokens tokens' : List Token} (kind : token'.kind = token.kind)
      (touches : token.kind = .symbol .minus → ∀ next ∈ tokens.head?, ∀ next' ∈ tokens'.head?,
        token'.span.touches next'.span = token.span.touches next.span)
      (rest : Relaid tokens tokens') : Relaid (token :: tokens) (token' :: tokens')

namespace Relaid

variable {tokens tokens' tokens'' : List Token}

theorem refl (tokens : List Token) : Relaid tokens tokens := by
  induction tokens with
  | nil => exact .nil
  | cons token tokens ih =>
    refine .cons rfl ?_ ih
    intro _ next hnext next' hnext'
    rw [Option.mem_unique hnext hnext']

/-- If one list goes on, so does the other. -/
theorem exists_head? (h : Relaid tokens tokens') {next : Token} (hnext : next ∈ tokens.head?) :
    ∃ next', next' ∈ tokens'.head? := by
  cases h with
  | nil => cases hnext
  | cons => exact ⟨_, rfl⟩

theorem trans (h : Relaid tokens tokens') (h' : Relaid tokens' tokens'') : Relaid tokens tokens'' := by
  induction h generalizing tokens'' with
  | nil => exact h'
  | @cons token token' tokens tokens' kind touches hrest ih =>
    cases h' with
    | @cons _ token'' _ tokens'' kind' touches' hrest' =>
      refine .cons (kind'.trans kind) ?_ (ih hrest')
      intro hminus next hnext next'' hnext''
      -- the tokens after the two are tied together by the one in the middle list
      obtain ⟨next', hnext'⟩ := hrest.exists_head? hnext
      rw [touches' (kind.trans hminus) next' hnext' next'' hnext'', touches hminus next hnext next' hnext']

/-- The tokens that are used are the same as well. -/
theorem upToLast (h : Relaid tokens tokens') : Relaid (upToLast tokens) (upToLast tokens') := by
  induction h with
  | nil => exact .nil
  | @cons token token' tokens tokens' kind touches hrest ih =>
    have hhead : ∀ tokens : List Token, (Source.upToLast tokens).head? = tokens.head? := by
      intro tokens
      cases tokens with
      | nil => rfl
      | cons token tokens =>
        rw [Source.upToLast]
        split <;> rfl
    rw [Source.upToLast, Source.upToLast, kind]
    split
    · exact .cons kind (by simp) .nil
    · refine .cons kind ?_ ih
      rw [hhead, hhead]
      exact touches

/-- Behind tokens that stay as they are, and do not touch them. -/
theorem prepend {words : List Token} (h : Relaid tokens tokens')
    (hleft : ∀ word ∈ words, ∀ next ∈ tokens.head?, word.span.touches next.span = false)
    (hright : ∀ word ∈ words, ∀ next ∈ tokens'.head?, word.span.touches next.span = false) :
    Relaid (words ++ tokens) (words ++ tokens') := by
  induction words with
  | nil => exact h
  | cons word words ih =>
    rw [List.forall_mem_cons] at hleft hright
    refine .cons rfl ?_ (ih hleft.2 hright.2)
    intro _ next hnext next' hnext'
    cases words with
    | nil => rw [hleft.1 next hnext, hright.1 next' hnext']
    | cons second words =>
      cases hnext
      cases hnext'
      rfl

/-- The same tokens further on. -/
theorem shift (tokens : List Token) (count count' : Nat) :
    Relaid (tokens.map (Token.shift count)) (tokens.map (Token.shift count')) := by
  induction tokens with
  | nil => exact .nil
  | cons token tokens ih =>
    refine .cons rfl ?_ ih
    intro _ next hnext next' hnext'
    cases tokens with
    | nil => cases hnext
    | cons second tokens =>
      cases hnext
      cases hnext'
      rw [Span.touches, Span.touches, Bool.eq_iff_iff, beq_iff_eq, beq_iff_eq]
      show count' + token.span.stop = count' + second.span.start ↔
        count + token.span.stop = count + second.span.start
      omega

end Relaid

/-! ## Quoted texts -/

/-- The quote that is open behind a text, if the first one was open in front of it. A backslash in a
quoted text takes the character after it with it. -/
def openQuote : Option Char → List Char → Option Char
  | quote, [] => quote
  | none, c :: cs => if c == '\'' || c == '"' then openQuote (some c) cs else openQuote none cs
  | some quote, '\\' :: [] => some quote
  | some quote, '\\' :: _ :: cs => openQuote (some quote) cs
  | some quote, c :: cs => if c = quote then openQuote none cs else openQuote (some quote) cs

/-- Behind the end of a quoted text no quote is open but those that follow it. -/
theorem openQuote_of_readQuoted {quote : Char} {cs : List Char} {quoted : QuotedText}
    (h : readQuoted quote cs = some quoted) : openQuote (some quote) cs = openQuote none quoted.rest := by
  fun_induction readQuoted quote cs generalizing quoted with
  | case1 => cases h
  | case2 => cases h
  | case3 c cs ih =>
    obtain ⟨tail, ht, rfl⟩ := Option.map_eq_some_iff.1 h
    rw [openQuote, ih ht]
    rfl
  | case4 cs hnil hcons =>
    cases h
    rw [openQuote, if_pos rfl]
    · exact hnil
    · exact hcons
  | case5 c cs hnil hcons hc ih =>
    obtain ⟨tail, ht, rfl⟩ := Option.map_eq_some_iff.1 h
    rw [openQuote, if_neg hc, ih ht]
    · rfl
    · exact hnil
    · exact hcons

/-- A quoted text that is not closed leaves its quote open. -/
theorem openQuote_of_readQuoted_none {quote : Char} {cs : List Char} (h : readQuoted quote cs = none) :
    openQuote (some quote) cs = some quote := by
  fun_induction readQuoted quote cs with
  | case1 => rfl
  | case2 => rfl
  | case3 c cs ih =>
    rw [openQuote]
    exact ih (Option.map_eq_none_iff.1 h)
  | case4 cs hnil hcons => cases h
  | case5 c cs hnil hcons hc ih =>
    rw [openQuote, if_neg hc]
    · exact ih (Option.map_eq_none_iff.1 h)
    · exact hnil
    · exact hcons

/-- Characters that are no quotes open none. -/
theorem openQuote_append {front : List Char} (h : ∀ c ∈ front, (c == '\'' || c == '"') = false)
    (more : List Char) : openQuote none (front ++ more) = openQuote none more := by
  induction front with
  | nil => rfl
  | cons c front ih =>
    rw [List.forall_mem_cons] at h
    rw [List.cons_append, openQuote, h.1]
    exact ih h.2

/-! ## Other blanks -/

/-- The characters of a token that is no quoted text: none of them is a quote or a blank. -/
theorem lexeme_plain {c : Char} {cs : List Char} (hblank : isBlank c = false)
    (hquote : (c == '\'' || c == '"') = false) :
    ∀ d ∈ (read c cs).lexeme, (d == '\'' || d == '"') = false ∧ isBlank d = false := by
  have hdigit : ∀ d : Char, d.isDigit = true → (d == '\'' || d == '"') = false ∧ isBlank d = false :=
    fun d hd => ⟨ne_quote_of_isDigit hd, isBlank_of_isDigit hd⟩
  unfold read
  split
  · next reading hfound =>
    obtain ⟨-, entry, hentry, hlexeme, -⟩ := readSymbol?_append hfound
    rw [hlexeme]
    intro d hd
    obtain ⟨hquote, hblank, -⟩ := sign_of_mem_spellings hentry hd
    exact ⟨hquote, hblank⟩
  · rw [if_neg (by simp [hquote])]
    split
    · -- a number: digits, and a point perhaps
      have hwhole := forall_mem_takeWhile (p := Char.isDigit) (c :: cs)
      unfold readNumber
      dsimp only
      split
      · split
        · next d ds _ _ =>
          intro e he
          rcases List.mem_append.1 he with he | he
          · exact hdigit e (hwhole e he)
          · rcases List.mem_cons.1 he with rfl | he
            · decide
            · exact hdigit e (forall_mem_takeWhile (d :: ds) e he)
        · exact fun e he => hdigit e (hwhole e he)
      · exact fun e he => hdigit e (hwhole e he)
    · split
      · -- a word
        intro e he
        have hrest : isNameRest e = true := forall_mem_takeWhile (c :: cs) e he
        constructor
        · cases hq : e == '\'' || e == '"' with
          | false => rfl
          | true =>
            simp only [Bool.or_eq_true, beq_iff_eq] at hq
            rcases hq with rfl | rfl
            · exact absurd hrest (by decide)
            · exact absurd hrest (by decide)
        · cases hb : isBlank e with
          | false => rfl
          | true => rw [isNameRest_of_isBlank hb] at hrest; cases hrest
      · intro e he
        obtain rfl := List.mem_singleton.1 he
        exact ⟨hquote, hblank⟩

/-- A token starts with the first character of its text. -/
theorem read_eq (c : Char) (cs : List Char) :
    ∃ lexeme, read c cs = ⟨(read c cs).kind, c :: lexeme, (read c cs).rest⟩ ∧
      cs = lexeme ++ (read c cs).rest := by
  have happ := read_append c cs
  rcases hlexeme : (read c cs).lexeme with _ | ⟨d, lexeme⟩
  · exact absurd hlexeme (read_ne_nil c cs)
  · rw [hlexeme, List.cons_append] at happ
    obtain ⟨rfl, htail⟩ := List.cons.inj happ
    exact ⟨lexeme, by rw [← hlexeme], htail.symm⟩

/-- Behind the blanks of a text there is no blank. -/
theorem isBlank_of_dropWhile {text : List Char} {c : Char} {cs : List Char}
    (h : text.dropWhile isBlank = c :: cs) : isBlank c = false := by
  have hhead := List.head?_dropWhile_not isBlank text
  simpa [h] using hhead

/-- **A token in front of a blank outside quoted texts ends before it.** -/
theorem read_of_openQuote {c : Char} {cs : List Char} (hblank : isBlank c = false)
    (hopen : openQuote none (c :: cs) = none) {d : Char} (hd : isBlank d = true) (more : List Char) :
    ∃ lexeme rest kind, cs = lexeme ++ rest ∧ openQuote none rest = none ∧
      read c (cs ++ d :: more) = ⟨kind, c :: lexeme, rest ++ d :: more⟩ := by
  cases hquote : c == '\'' || c == '"' with
  | true =>
    rw [openQuote, if_pos hquote] at hopen
    have hsymbol : readSymbol? (c :: (cs ++ d :: more)) Symbol.spellings = none := by
      simp only [Bool.or_eq_true, beq_iff_eq] at hquote
      rcases hquote with rfl | rfl <;> rfl
    cases hread : readQuoted c cs with
    | none =>
      rw [openQuote_of_readQuoted_none hread] at hopen
      cases hopen
    | some quoted =>
      refine ⟨quoted.lexeme, quoted.rest, quotedKind c quoted.content, (readQuoted_append hread).symm,
        ?_, ?_⟩
      · rw [← openQuote_of_readQuoted hread, hopen]
      · unfold read
        rw [hsymbol]
        dsimp only
        rw [if_pos hquote, readText, readQuoted_append_more hread]
  | false =>
    have hplain := @lexeme_plain c (cs ++ d :: more) hblank hquote
    obtain ⟨lexeme, hread, htail⟩ := read_eq c (cs ++ d :: more)
    generalize (read c (cs ++ d :: more)).kind = kind at hread
    generalize (read c (cs ++ d :: more)).rest = after at hread htail
    rw [hread] at hplain
    have hfree := (List.forall_mem_cons.1 hplain).2
    rcases List.append_eq_append_iff.1 htail with ⟨beyond, rfl, hbeyond⟩ | ⟨rest, rfl, rfl⟩
    · -- the token would hold the blank
      cases beyond with
      | nil =>
        rw [List.nil_append] at hbeyond
        refine ⟨cs, [], kind, by simp, rfl, ?_⟩
        rw [hread, ← hbeyond, List.append_nil, List.nil_append]
      | cons e beyond =>
        obtain ⟨rfl, -⟩ := List.cons.inj hbeyond
        have hbad := (hfree d (List.mem_append_right _ List.mem_cons_self)).2
        rw [hd] at hbad
        cases hbad
    · refine ⟨lexeme, rest, kind, rfl, ?_, hread⟩
      rw [openQuote, if_neg (by simp [hquote]), openQuote_append fun e he => (hfree e he).1] at hopen
      exact hopen

/-- **What stands in front of a blank outside quoted texts has its own tokens**, whatever blank it is and
whatever follows. -/
theorem tokensFrom_in_front {before : List Char} {d d' : Char}
    (hopen : openQuote none before = none) (hd : isBlank d = true) (hd' : isBlank d' = true)
    (more more' : List Char) (offset : Nat) :
    ∃ words, (∀ word ∈ words, word.span.stop ≤ offset + bytes before) ∧
      tokensFrom offset (before ++ d :: more) = words ++ tokensFrom (offset + bytes before) (d :: more) ∧
      tokensFrom offset (before ++ d' :: more') =
        words ++ tokensFrom (offset + bytes before) (d' :: more') := by
  induction hlength : before.length using Nat.strongRecOn generalizing offset before with
  | ind length ih =>
    subst hlength
    have hsplit := List.takeWhile_append_dropWhile (p := isBlank) (l := before)
    have hblanks : (before.takeWhile isBlank).dropWhile isBlank = [] :=
      (span_of_forall (forall_mem_takeWhile before)).2
    cases hbefore : before.dropWhile isBlank with
    | nil =>
      refine ⟨[], by simp, ?_, ?_⟩
      · exact tokensFrom_blanks offset hbefore _
      · exact tokensFrom_blanks offset hbefore _
    | cons c cs =>
      rw [hbefore] at hsplit
      generalize hgap : before.takeWhile isBlank = gap at hsplit hblanks
      subst hsplit
      have hc := isBlank_of_dropWhile hbefore
      have hgapPlain : ∀ e ∈ gap, (e == '\'' || e == '"') = false := by
        intro e he
        have heblank : isBlank e = true := by
          rw [← hgap] at he
          exact forall_mem_takeWhile _ e he
        cases hq : e == '\'' || e == '"' with
        | false => rfl
        | true =>
          simp only [Bool.or_eq_true, beq_iff_eq] at hq
          rcases hq with rfl | rfl
          · exact absurd heblank (by decide)
          · exact absurd heblank (by decide)
      rw [openQuote_append hgapPlain] at hopen
      obtain ⟨lexeme, rest, kind, rfl, hrest, hread⟩ := read_of_openQuote hc hopen hd more
      have hread' : read c (lexeme ++ (rest ++ d' :: more')) = ⟨kind, c :: lexeme, rest ++ d' :: more'⟩ := by
        rw [List.append_assoc] at hread
        have hagree : Agree Kindred (rest ++ d :: more) (rest ++ d' :: more') :=
          (Agree.differ (.blank hd hd') more more').append rest
        exact read_agree hread hagree
      obtain ⟨words, hwords, hleft, hright⟩ := ih rest.length (by simp; omega) hrest
        (offset + bytes gap + bytes (c :: lexeme)) rfl
      have hbytes : offset + bytes gap + bytes (c :: lexeme) + bytes rest =
          offset + bytes (gap ++ c :: (lexeme ++ rest)) := by
        simp only [bytes_append, bytes_cons]
        omega
      rw [hbytes] at hwords hleft hright
      refine ⟨⟨kind, ⟨offset + bytes gap, offset + bytes gap + bytes (c :: lexeme)⟩⟩ :: words,
        ?_, ?_, ?_⟩
      · refine List.forall_mem_cons.2 ⟨?_, hwords⟩
        show offset + bytes gap + bytes (c :: lexeme) ≤ _
        rw [← hbytes]
        exact Nat.le_add_right _ _
      · rw [List.append_assoc, tokensFrom_blanks offset hblanks, List.cons_append, List.append_assoc]
        rw [List.append_assoc] at hread
        have hfirst := tokensFrom_reading hc hread (offset + bytes gap)
        rw [List.cons_append] at hfirst
        rw [hfirst, hleft, List.cons_append]
      · rw [List.append_assoc, tokensFrom_blanks offset hblanks, List.cons_append, List.append_assoc]
        have hfirst := tokensFrom_reading hc hread' (offset + bytes gap)
        rw [List.cons_append] at hfirst
        rw [hfirst, hright, List.cons_append]

/-- Other blanks in a gap outside quoted texts. -/
theorem relaid_of_blanks {before gap gap' after : List Char} (hopen : openQuote none before = none)
    (hne : gap ≠ []) (hblank : ∀ c ∈ gap, isBlank c = true) (hne' : gap' ≠ [])
    (hblank' : ∀ c ∈ gap', isBlank c = true) :
    Relaid (tokensFrom 0 (before ++ (gap ++ after))) (tokensFrom 0 (before ++ (gap' ++ after))) := by
  -- the tokens behind a gap are those of the text there, moved behind the gap
  have hbehind : ∀ {blanks : List Char}, blanks ≠ [] → (∀ c ∈ blanks, isBlank c = true) →
      tokensFrom (0 + bytes before) (blanks ++ after) =
          (tokensFrom 0 after).map (Token.shift (bytes before + bytes blanks)) ∧
        ∀ next ∈ (tokensFrom (0 + bytes before) (blanks ++ after)).head?,
          0 + bytes before < next.span.start := by
    intro blanks hne hall
    have hblanks := tokensFrom_blanks (0 + bytes before) (span_of_forall hall).2 after
    have hpos := bytes_pos hne
    constructor
    · rw [hblanks, ← tokensFrom_shift, Nat.zero_add, Nat.add_zero]
    · intro next hnext
      rw [hblanks] at hnext
      have hle := (tiles_tokensFrom _ after).le_start next (List.mem_of_mem_head? hnext)
      omega
  obtain ⟨hgap, hfirst⟩ := hbehind hne hblank
  obtain ⟨hgap', hfirst'⟩ := hbehind hne' hblank'
  obtain ⟨c, gap, rfl⟩ := List.exists_cons_of_ne_nil hne
  obtain ⟨c', gap', rfl⟩ := List.exists_cons_of_ne_nil hne'
  obtain ⟨words, hwords, hleft, hright⟩ := tokensFrom_in_front hopen (hblank c List.mem_cons_self)
    (hblank' c' List.mem_cons_self) (gap ++ after) (gap' ++ after) 0
  rw [List.cons_append] at hgap hfirst ⊢
  rw [List.cons_append] at hgap' hfirst' ⊢
  have happart : ∀ {next : Token}, 0 + bytes before < next.span.start →
      ∀ word ∈ words, word.span.touches next.span = false := by
    intro next hnext word hword
    have hstop := hwords word hword
    rw [Span.touches, beq_eq_false_iff_ne]
    omega
  rw [hleft, hright]
  apply Relaid.prepend
  · rw [hgap, hgap']
    exact Relaid.shift _ _ _
  · exact fun word hword next hnext => happart (hfirst next hnext) word hword
  · exact fun word hword next hnext => happart (hfirst' next hnext) word hword

/-! ## Other capitals -/

/-- A reserved word is written with ASCII letters. -/
theorem isAlpha_of_wordKind {word : List Char} {keyword : Keyword}
    (h : wordKind (String.ofList word) = .keyword keyword) : ∀ c ∈ word, c.isAlpha = true := by
  have hspelled : keyword.spelling = lower (String.ofList word) := by
    unfold wordKind at h
    split at h
    · next found hfound =>
      cases h
      simpa using List.find?_some hfound
    · cases h
  have hletters : ∀ keyword : Keyword, keyword.spelling.toList.all Char.isLower = true := by
    intro keyword
    cases keyword <;> decide
  intro c hc
  have hmem : c.toLower ∈ keyword.spelling.toList := by
    rw [hspelled, lower, String.toList_ofList, String.toList_ofList]
    exact List.mem_map_of_mem hc
  have hlower := List.all_eq_true.1 (hletters keyword) _ hmem
  show (c.isUpper || c.isLower) = true
  rw [Bool.or_eq_true]
  cases hupper : c.isUpper with
  | true => exact .inl rfl
  | false =>
    -- a character that is no capital is its own small letter
    have hnone := of_decide_eq_false hupper
    have hself : c.toLower = c := dif_neg hnone
    rw [hself] at hlower
    exact .inr hlower

/-- ASCII letters have one byte each. -/
theorem bytes_of_isAlpha {word : List Char} (h : ∀ c ∈ word, c.isAlpha = true) :
    bytes word = word.length := by
  induction word with
  | nil => rfl
  | cons c word ih =>
    rw [List.forall_mem_cons] at h
    have hrange := toNat_of_isAlpha h.1
    have hsize : c.utf8Size = 1 := by
      rw [Char.utf8Size_eq_one_iff]
      show c.toNat ≤ 127
      omega
    rw [bytes_cons, ih h.2, hsize, List.length_cons]
    omega

/-- The same word in other capitals is the same reserved word. -/
theorem wordKind_of_lower {word word' : String} (h : lower word' = lower word) {keyword : Keyword}
    (hkind : wordKind word = .keyword keyword) : wordKind word' = .keyword keyword := by
  have hfound : Keyword.ofSpelling? word' = Keyword.ofSpelling? word := by
    unfold Keyword.ofSpelling?
    rw [h]
  unfold wordKind at hkind ⊢
  rw [hfound]
  cases hfound' : Keyword.ofSpelling? word with
  | some found =>
    rw [hfound'] at hkind
    exact hkind
  | none =>
    rw [hfound'] at hkind
    cases hkind

/-- A reserved word is read off a text as its word, and nothing goes on with it. -/
theorem read_keyword {c : Char} {cs : List Char} {keyword : Keyword}
    (h : (read c cs).kind = .keyword keyword) :
    wordKind (String.ofList (read c cs).lexeme) = .keyword keyword ∧
      (read c cs).rest.takeWhile isNameRest = [] := by
  rcases read_cases c cs with ⟨_, hk⟩ | ⟨_, hk | hk⟩ | ⟨_, hk⟩ | ⟨_, hk⟩ | ⟨_, hk⟩
  · rw [hk] at h; cases h
  · rw [hk] at h; cases h
  · rw [hk] at h; cases h
  · rw [hk] at h; cases h
  · rw [hk] at h
    rcases readNumber_cases (c :: cs) with hn | ⟨_, _, _, hn⟩
    · rw [hn] at h; cases h
    · rw [hn] at h; cases h
  · rw [hk, readWord] at h ⊢
    dsimp only at h ⊢
    refine ⟨h, ?_⟩
    have hhead := List.head?_dropWhile_not isNameRest (c :: cs)
    cases hrest : (c :: cs).dropWhile isNameRest with
    | nil => rfl
    | cons d rest =>
      rw [hrest] at hhead
      exact List.takeWhile_cons_of_neg (by simpa using hhead)

/-- A word of letters is read up to where nothing goes on with it. -/
theorem read_letters {c : Char} {cs after : List Char} (hletters : ∀ d ∈ c :: cs, d.isAlpha = true)
    (hafter : after.takeWhile isNameRest = []) :
    read c (cs ++ after) = ⟨wordKind (String.ofList (c :: cs)), c :: cs, after⟩ := by
  have hstart := isNameStart_of_isAlpha (hletters c List.mem_cons_self)
  have hall : ∀ d ∈ c :: cs, isNameRest d = true := by
    intro d hd
    exact isNameRest_of_isNameStart d (isNameStart_of_isAlpha (hletters d hd))
  have htake : (c :: cs ++ after).takeWhile isNameRest = c :: cs := by
    rw [List.takeWhile_append_of_pos hall, hafter, List.append_nil]
  have hdrop : (c :: cs ++ after).dropWhile isNameRest = after := by
    have happ := List.takeWhile_append_dropWhile (p := isNameRest) (l := c :: cs ++ after)
    rw [htake] at happ
    exact List.append_cancel_left happ
  rw [read_of_isNameStart hstart, readWord]
  rw [List.cons_append] at htake hdrop
  rw [htake, hdrop]

/-- **A reserved word in other capitals leaves all tokens as they are**, those in front of it as well,
since they cannot tell its first letter from another. -/
theorem tokensFrom_of_lower {before word word' after : List Char} {offset : Nat} {token : Token}
    {keyword : Keyword} (hmem : token ∈ tokensFrom offset (before ++ (word ++ after)))
    (hkind : token.kind = .keyword keyword)
    (hspan : token.span = ⟨offset + bytes before, offset + bytes before + bytes word⟩)
    (hlower : lower (String.ofList word') = lower (String.ofList word)) :
    Agree Kindred (word ++ after) (word' ++ after) ∧
      tokensFrom offset (before ++ (word' ++ after)) =
        tokensFrom offset (before ++ (word ++ after)) := by
  -- token by token up to the reserved word
  induction hlength : before.length using Nat.strongRecOn generalizing offset before with
  | ind length ih =>
    subst hlength
    cases htext : (before ++ (word ++ after)).dropWhile isBlank with
    | nil =>
      rw [tokensFrom_of_nil htext, List.mem_singleton] at hmem
      subst hmem
      cases hkind
    | cons c cs =>
      have hsplit := List.takeWhile_append_dropWhile (p := isBlank) (l := before ++ (word ++ after))
      have hblanks := (span_of_forall (forall_mem_takeWhile (p := isBlank)
        (before ++ (word ++ after)))).2
      have hc := isBlank_of_dropWhile htext
      rw [htext] at hsplit
      rw [tokensFrom_of_cons htext offset rfl] at hmem
      generalize (before ++ (word ++ after)).takeWhile isBlank = gap at hsplit hblanks hmem
      have happ := read_append c cs
      rcases List.mem_cons.1 hmem with rfl | hmem
      · -- the reserved word itself
        rw [Span.mk.injEq] at hspan
        obtain ⟨rfl, hword⟩ := append_inj_of_bytes hsplit (by omega)
        rw [hword] at happ
        obtain ⟨hlexeme, hrest⟩ := append_inj_of_bytes happ (by omega)
        obtain ⟨hreserved, hend⟩ := read_keyword hkind
        rw [hlexeme] at hreserved
        rw [hrest] at hend
        have hreserved' := wordKind_of_lower hlower hreserved
        have hletters := isAlpha_of_wordKind hreserved
        have hletters' := isAlpha_of_wordKind hreserved'
        have hsize : word'.length = word.length := by
          have hmap := congrArg String.toList hlower
          rw [lower, lower, String.toList_ofList, String.toList_ofList] at hmap
          simpa using congrArg List.length hmap
        obtain ⟨d, ds, rfl⟩ : ∃ d ds, word = d :: ds := by
          cases word with
          | nil => exact absurd hlexeme (read_ne_nil c cs)
          | cons d ds => exact ⟨d, ds, rfl⟩
        obtain ⟨d', ds', rfl⟩ : ∃ d' ds', word' = d' :: ds' := by
          cases word' with
          | nil => cases hsize
          | cons d' ds' => exact ⟨d', ds', rfl⟩
        have hd := hletters d List.mem_cons_self
        have hd' := hletters' d' List.mem_cons_self
        refine ⟨.differ (.letter hd hd') _ _, ?_⟩
        rw [tokensFrom_blanks offset hblanks, tokensFrom_blanks offset hblanks,
          tokensFrom_reading (isBlank_of_isNameStart (isNameStart_of_isAlpha hd))
            (read_letters hletters hend),
          tokensFrom_reading (isBlank_of_isNameStart (isNameStart_of_isAlpha hd'))
            (read_letters hletters' hend),
          hreserved, hreserved', bytes_of_isAlpha hletters, bytes_of_isAlpha hletters', hsize]
      · -- a token in front of it: the reserved word is behind all of it
        have hle := (tiles_tokensFrom _ _).le_start token hmem
        rw [hspan] at hle
        simp only at hle
        obtain ⟨between, rfl, hrest⟩ : ∃ between, before = gap ++ (read c cs).lexeme ++ between ∧
            (read c cs).rest = between ++ (word ++ after) := by
          rw [← happ, ← List.append_assoc] at hsplit
          rcases List.append_eq_append_iff.1 hsplit with h | ⟨beyond, hbeyond, hword⟩
          · exact h
          · have hbytes := congrArg bytes hbeyond
            simp only [bytes_append] at hbytes
            have hnil : beyond = [] := by
              by_contra hne
              have hpos := bytes_pos hne
              omega
            subst hnil
            exact ⟨[], by rw [hbeyond]; simp, by rw [hword]; simp⟩
        have hspan' : token.span = ⟨offset + bytes gap + bytes (read c cs).lexeme + bytes between,
            offset + bytes gap + bytes (read c cs).lexeme + bytes between + bytes word⟩ := by
          rw [hspan]
          simp only [bytes_append, Nat.add_assoc]
        rw [hrest] at hmem
        have hshorter : between.length < (gap ++ (read c cs).lexeme ++ between).length := by
          have hpos := List.length_pos_iff.2 (read_ne_nil c cs)
          simp only [List.length_append]
          omega
        obtain ⟨hagree, htokens⟩ := ih _ hshorter hmem hspan' rfl
        refine ⟨hagree, ?_⟩
        obtain ⟨lexeme, hread, -⟩ := read_eq c cs
        have hlexeme : (read c cs).lexeme = c :: lexeme := congrArg Reading.lexeme hread
        rw [hrest] at hread
        have happ' : lexeme ++ (between ++ (word ++ after)) = cs := by
          rw [hrest, hlexeme, List.cons_append] at happ
          exact (List.cons.inj happ).2
        rw [← happ'] at hread
        have hread' := read_agree hread (hagree.append between)
        rw [hlexeme] at htokens ⊢
        simp only [List.append_assoc]
        rw [tokensFrom_blanks offset hblanks, tokensFrom_blanks offset hblanks,
          tokensFrom_reading hc hread, tokensFrom_reading hc hread', htokens]

/-! ## Layouts -/

/-- One change of layout: other blanks in a gap outside quoted texts, or a reserved word in other
capitals. -/
inductive Restyled : List Char → List Char → Prop where
  | blanks {before gap gap' after : List Char} (outside : openQuote none before = none)
      (nonempty : gap ≠ []) (blank : ∀ c ∈ gap, isBlank c = true)
      (nonempty' : gap' ≠ []) (blank' : ∀ c ∈ gap', isBlank c = true) :
      Restyled (before ++ (gap ++ after)) (before ++ (gap' ++ after))
  | capitals {before word word' after : List Char} {token : Token} {keyword : Keyword}
      (mem : token ∈ tokensFrom 0 (before ++ (word ++ after))) (kind : token.kind = .keyword keyword)
      (place : token.span = ⟨bytes before, bytes before + bytes word⟩)
      (same : lower (String.ofList word') = lower (String.ofList word)) :
      Restyled (before ++ (word ++ after)) (before ++ (word' ++ after))

/-- A change of layout moves the tokens of a text. -/
theorem Restyled.relaid {text text' : List Char} (h : Restyled text text') :
    Relaid (tokensFrom 0 text) (tokensFrom 0 text') := by
  cases h with
  | blanks outside nonempty blank nonempty' blank' =>
    exact relaid_of_blanks outside nonempty blank nonempty' blank'
  | @capitals before word word' after token keyword mem kind place same =>
    have hspan : token.span = ⟨0 + bytes before, 0 + bytes before + bytes word⟩ := by
      rw [place, Nat.zero_add]
    rw [(tokensFrom_of_lower mem kind hspan same).2]
    exact .refl _

/-- **A source in another layout has the same tokens in other places.** -/
theorem relaid_of_restyled {source source' : String}
    (h : Relation.ReflTransGen Restyled source.toList source'.toList) :
    Relaid (lex source) (lex source') := by
  have hall : ∀ text, Relation.ReflTransGen Restyled source.toList text →
      Relaid (lexAll source) (tokensFrom 0 text) := by
    intro text htext
    induction htext with
    | refl => exact .refl _
    | tail _ hstep ih => exact ih.trans hstep.relaid
  exact (hall _ h).upToLast

end RelationSql.Source
