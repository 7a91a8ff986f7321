import RelationSql.Proofs.Source.Spelling

/-!
# Texts in front of others

The tokens of a text in front of a delimiter are those it has alone (`tokensFrom_append`), and further
on in a source they are the same with their places shifted (`tokensFrom_shift`). So the words of a text
(`Words`) stay what they are wherever it is written into a source.
-/

namespace RelationSql.Source

open RelationSql.Text

variable {text more : List Char} {words : List Token} {offset : Nat}

/-- The words of a text: its tokens in front of its end, all of which are right. -/
structure Words (offset : Nat) (text : List Char) (words : List Token) : Prop where
  tokens : ∃ last, last.kind = .finish ∧ tokensFrom offset text = words ++ [last]
  valid : ∀ word ∈ words, word.kind.isLast = false

/-! ## Reading on -/

/-- A text with a token in it has more tokens than its end. -/
theorem tokensFrom_ne_nil (offset : Nat) (text : List Char) : tokensFrom offset text ≠ [] := by
  unfold tokensFrom
  split <;> simp

/-- What is left behind the first token is shorter. -/
theorem length_rest_lt {c : Char} {cs : List Char} (htext : text.dropWhile isBlank = c :: cs) :
    (read c cs).rest.length < text.length := by
  have hread := length_rest_read_lt c cs
  have hdrop := (List.dropWhile_sublist isBlank (l := text)).length_le
  rw [htext] at hdrop
  omega

/-- Blanks have no words. -/
theorem Words.of_nil (h : Words offset text words) (hblank : text.dropWhile isBlank = []) :
    words = [] := by
  obtain ⟨last, -, htokens⟩ := h.tokens
  rw [tokensFrom_of_nil hblank] at htokens
  cases words with
  | nil => rfl
  | cons word words => simp at htokens

/-- The first word of a text and the words after it. -/
theorem Words.of_cons (h : Words offset text words) {c : Char} {cs : List Char}
    (htext : text.dropWhile isBlank = c :: cs) :
    ∃ more, (read c cs).kind.isLast = false ∧
      words = ⟨(read c cs).kind, ⟨offset + bytes (text.takeWhile isBlank),
        offset + bytes (text.takeWhile isBlank) + bytes (read c cs).lexeme⟩⟩ :: more ∧
      Words (offset + bytes (text.takeWhile isBlank) + bytes (read c cs).lexeme) (read c cs).rest
        more := by
  obtain ⟨last, hlast, htokens⟩ := h.tokens
  rw [tokensFrom_of_cons htext offset rfl] at htokens
  cases words with
  | nil => exact absurd (List.cons.inj htokens).2 (tokensFrom_ne_nil _ _)
  | cons word more =>
    obtain ⟨rfl, hmore⟩ := List.cons.inj htokens
    have hvalid := List.forall_mem_cons.1 h.valid
    exact ⟨more, hvalid.1, rfl, ⟨last, hlast, hmore⟩, hvalid.2⟩

/-- Blanks are passed over. -/
theorem tokensFrom_blanks (offset : Nat) {blanks : List Char} (h : blanks.dropWhile isBlank = [])
    (more : List Char) :
    tokensFrom offset (blanks ++ more) = tokensFrom (offset + bytes blanks) more := by
  induction blanks generalizing offset with
  | nil => rfl
  | cons c blanks ih =>
    have hc : isBlank c = true := by
      cases hc : isBlank c with
      | true => rfl
      | false =>
        rw [List.dropWhile_cons_of_neg (by simp [hc])] at h
        cases h
    rw [List.dropWhile_cons_of_pos hc] at h
    rw [List.cons_append, tokensFrom_blank hc, ih _ h, bytes_cons, Nat.add_assoc]

/-- The words of a text stand in front of what follows, if that leaves each of them as it is read alone. -/
theorem tokensFrom_append_of_read (h : Words offset text words)
    (hmore : ∀ c cs, (read c cs).kind.isLast = false → read c (cs ++ more) = (read c cs).before more) :
    tokensFrom offset (text ++ more) = words ++ tokensFrom (offset + bytes text) more := by
  induction hlength : text.length using Nat.strongRecOn generalizing offset text words with
  | ind length ih =>
    subst hlength
    cases htext : text.dropWhile isBlank with
    | nil => rw [h.of_nil htext, List.nil_append, tokensFrom_blanks offset htext]
    | cons c cs =>
      obtain ⟨rest, hkind, rfl, hrest⟩ := h.of_cons htext
      have hread := hmore c cs hkind
      have hsplit : text.takeWhile isBlank ++ c :: cs = text := by
        rw [← htext, List.takeWhile_append_dropWhile]
      have hdrop : (text ++ more).dropWhile isBlank = c :: (cs ++ more) := by
        rw [List.dropWhile_append, htext]
        rfl
      have htake : (text ++ more).takeWhile isBlank = text.takeWhile isBlank := by
        have happ := List.takeWhile_append_dropWhile (p := isBlank) (l := text ++ more)
        rw [hdrop, ← List.cons_append] at happ
        conv at happ => rhs; rw [← hsplit, List.append_assoc]
        exact List.append_cancel_right happ
      have hshorter := length_rest_lt htext
      have hbytes : offset + bytes text = offset + bytes (text.takeWhile isBlank) +
          bytes (read c cs).lexeme + bytes (read c cs).rest := by
        conv => lhs; rw [← hsplit, ← read_append c cs, bytes_append, bytes_append]
        omega
      rw [tokensFrom_of_cons hdrop offset rfl, htake, hread, Reading.before, ih _ hshorter hrest rfl,
        hbytes]
      rfl

/-- **The tokens of a text in front of a delimiter are its words, and then those of the rest.** -/
theorem tokensFrom_append (h : Words offset text words) (hmore : isDelimited more = true) :
    tokensFrom offset (text ++ more) = words ++ tokensFrom (offset + bytes text) more := by
  apply tokensFrom_append_of_read h
  intro c cs hkind
  exact read_append_of_delimited hkind hmore

/-! ## Places -/

/-- **Further on in a source, the tokens of a text are the same.** -/
theorem tokensFrom_shift (count offset : Nat) (text : List Char) :
    tokensFrom (count + offset) text = (tokensFrom offset text).map (Token.shift count) := by
  induction hlength : text.length using Nat.strongRecOn generalizing offset text with
  | ind length ih =>
    subst hlength
    cases htext : text.dropWhile isBlank with
    | nil =>
      rw [tokensFrom_of_nil htext, tokensFrom_of_nil htext, Nat.add_assoc]
      rfl
    | cons c cs =>
      have hshorter := length_rest_lt htext
      rw [tokensFrom_of_cons htext _ rfl, tokensFrom_of_cons htext _ rfl, List.map_cons,
        ← ih _ hshorter _ _ rfl, Nat.add_assoc, Nat.add_assoc]
      rfl

theorem Words.shift (h : Words offset text words) (count : Nat) :
    Words (count + offset) text (words.map (Token.shift count)) := by
  obtain ⟨last, hlast, htokens⟩ := h.tokens
  refine ⟨⟨last.shift count, hlast, ?_⟩, ?_⟩
  · rw [tokensFrom_shift, htokens, List.map_append]
    rfl
  · intro word hword
    obtain ⟨word, hmem, rfl⟩ := List.mem_map.1 hword
    exact h.valid word hmem

/-! ## Texts put together -/

/-- A text that is read as one word. -/
theorem Words.one {c : Char} {cs : List Char} {kind : TokenKind} (h : read c cs = ⟨kind, c :: cs, []⟩)
    (hkind : kind.isLast = false) : Words 0 (c :: cs) [⟨kind, ⟨0, bytes (c :: cs)⟩⟩] := by
  have htokens : tokensFrom 0 (c :: cs ++ []) =
      ⟨kind, ⟨0, 0 + bytes (c :: cs)⟩⟩ :: tokensFrom (0 + bytes (c :: cs)) [] :=
    tokensFrom_of_read (by rw [List.append_nil]; exact h) hkind 0
  have hnil := @tokensFrom_of_nil [] rfl (0 + bytes (c :: cs))
  rw [List.append_nil, hnil, Nat.zero_add] at htokens
  exact ⟨⟨_, rfl, htokens⟩, List.forall_mem_singleton.2 hkind⟩

/-- Two texts with a word between them. -/
theorem Words.beside {text' : List Char} {words' : List Token} (h : Words 0 text words)
    (h' : Words 0 text' words') {c : Char} {cs : List Char} {kind : TokenKind}
    (hread : read c cs = ⟨kind, c :: cs, []⟩) (hkind : kind.isLast = false) :
    ∃ (span : Span) (count : Nat), Words 0 (text ++ ' ' :: (c :: cs ++ ' ' :: text'))
      (words ++ ⟨kind, span⟩ :: words'.map (Token.shift count)) := by
  have hlater := h'.shift (0 + bytes text + 1 + bytes (c :: cs) + 1)
  obtain ⟨last, hlast, htokens⟩ := hlater.tokens
  have hread' : read c (cs ++ ' ' :: text') = ⟨kind, c :: cs, ' ' :: text'⟩ :=
    read_of_delimited hread hkind rfl
  have htokens' : tokensFrom 0 (text ++ ' ' :: (c :: cs ++ ' ' :: text')) = (words ++
      ⟨kind, ⟨0 + bytes text + 1, 0 + bytes text + 1 + bytes (c :: cs)⟩⟩ ::
        words'.map (Token.shift (0 + bytes text + 1 + bytes (c :: cs) + 1))) ++ [last] := by
    rw [tokensFrom_append h rfl, tokensFrom_space, tokensFrom_of_read hread' hkind, tokensFrom_space,
      List.append_assoc, List.cons_append, ← htokens, Nat.add_zero]
  refine ⟨_, _, ⟨last, hlast, htokens'⟩, ?_⟩
  rw [List.forall_mem_append, List.forall_mem_cons]
  exact ⟨h.valid, hkind, hlater.valid⟩

/-- A word in front of a text. -/
theorem Words.behind (h : Words 0 text words) {c : Char} {cs : List Char} {kind : TokenKind}
    (hread : read c cs = ⟨kind, c :: cs, []⟩) (hkind : kind.isLast = false) :
    ∃ (span : Span) (count : Nat), Words 0 (c :: cs ++ ' ' :: text)
      (⟨kind, span⟩ :: words.map (Token.shift count)) := by
  have hlater := h.shift (0 + bytes (c :: cs) + 1)
  obtain ⟨last, hlast, htokens⟩ := hlater.tokens
  have hread' : read c (cs ++ ' ' :: text) = ⟨kind, c :: cs, ' ' :: text⟩ :=
    read_of_delimited hread hkind rfl
  have htokens' : tokensFrom 0 (c :: cs ++ ' ' :: text) =
      (⟨kind, ⟨0, 0 + bytes (c :: cs)⟩⟩ :: words.map (Token.shift (0 + bytes (c :: cs) + 1))) ++ [last] := by
    rw [tokensFrom_of_read hread' hkind, tokensFrom_space, List.cons_append, ← htokens, Nat.add_zero]
  exact ⟨_, _, ⟨last, hlast, htokens'⟩, List.forall_mem_cons.2 ⟨hkind, hlater.valid⟩⟩

/-- A text in parentheses. -/
theorem Words.parenthesised (h : Words 0 text words) :
    ∃ (span span' : Span) (count : Nat), Words 0 ('(' :: (text ++ [')']))
      (⟨.symbol .leftParen, span⟩ :: (words.map (Token.shift count) ++ [⟨.symbol .rightParen, span'⟩])) := by
  have hlater := h.shift 1
  have hopen : read '(' (text ++ [')']) = ⟨.symbol .leftParen, ['('], text ++ [')']⟩ := rfl
  have hclose : read ')' [] = ⟨.symbol .rightParen, [')'], []⟩ := rfl
  have htokens : tokensFrom 0 (['('] ++ (text ++ [')'])) =
      ⟨.symbol .leftParen, ⟨0, 1⟩⟩ :: (words.map (Token.shift 1) ++
        [⟨.symbol .rightParen, ⟨1 + 0 + bytes text, 1 + 0 + bytes text + 1⟩⟩]) ++
          [⟨.finish, ⟨1 + 0 + bytes text + 1, 1 + 0 + bytes text + 1⟩⟩] := by
    have hbehind : tokensFrom (1 + 0 + bytes text) ([')'] ++ []) =
        ⟨.symbol .rightParen, ⟨1 + 0 + bytes text, 1 + 0 + bytes text + 1⟩⟩ ::
          tokensFrom (1 + 0 + bytes text + 1) [] := tokensFrom_of_read hclose rfl _
    have hfirst : tokensFrom 0 (['('] ++ (text ++ [')'])) =
        ⟨.symbol .leftParen, ⟨0, 1⟩⟩ :: tokensFrom (1 + 0) (text ++ [')']) :=
      tokensFrom_of_read hopen rfl 0
    rw [hfirst, tokensFrom_append hlater rfl]
    rw [List.append_nil] at hbehind
    rw [hbehind, tokensFrom_of_nil rfl, List.cons_append, List.append_assoc]
    rfl
  refine ⟨_, _, _, ⟨_, rfl, htokens⟩, ?_⟩
  rw [List.forall_mem_cons, List.forall_mem_append, List.forall_mem_singleton]
  exact ⟨rfl, hlater.valid, rfl⟩

/-! ## The tokens of a source -/

/-- The tokens of a source are the words of its text and its end. -/
theorem lex_of_words {source : String} (h : Words 0 source.toList words) :
    ∃ last, last.kind = .finish ∧ lex source = words ++ [last] := by
  obtain ⟨last, hlast, htokens⟩ := h.tokens
  refine ⟨last, hlast, ?_⟩
  rw [lex, lexAll, htokens, upToLast_append h.valid]
  simp [upToLast, hlast, TokenKind.isLast]

/-- No text is read as the end of the source. -/
theorem kind_read_ne_finish (c : Char) (cs : List Char) : (read c cs).kind ≠ .finish := by
  rcases read_cases c cs with ⟨_, h⟩ | ⟨_, h | h⟩ | ⟨_, h⟩ | ⟨_, h⟩ | ⟨_, h⟩
  · simp [h]
  · simp [h]
  · simp [h]
  · simp [h]
  · rcases readNumber_cases (c :: cs) with hn | ⟨_, _, _, hn⟩ <;> simp [h, hn]
  · rcases wordKind_cases (String.ofList ((c :: cs).takeWhile isNameRest)) with hw | ⟨_, hw⟩ <;>
      simp [h, readWord, hw]

/-- The end of the source is the last token, and no other. -/
theorem tokensFrom_eq_append (offset : Nat) (text : List Char) :
    ∃ words last, tokensFrom offset text = words ++ [last] ∧ last.kind = .finish ∧
      ∀ word ∈ words, word.kind ≠ .finish := by
  fun_induction tokensFrom offset text with
  | case1 => exact ⟨[], _, rfl, rfl, by simp⟩
  | case2 offset text start c cs htext reading stop ih =>
    obtain ⟨words, last, htokens, hlast, hwords⟩ := ih
    refine ⟨_ :: words, last, by rw [htokens]; rfl, hlast, ?_⟩
    rw [List.forall_mem_cons]
    exact ⟨kind_read_ne_finish c cs, hwords⟩

/-- Tokens are used up to their end, or to the first that is no token. -/
theorem upToLast_cases {last : Token} (hlast : last.kind = .finish)
    (hwords : ∀ word ∈ words, word.kind ≠ .finish) :
    ((∀ word ∈ words, word.kind.isLast = false) ∧ upToLast (words ++ [last]) = words ++ [last]) ∨
      ∃ before bad reason, bad.kind = .invalid reason ∧
        (∀ word ∈ before, word.kind.isLast = false) ∧
        upToLast (words ++ [last]) = before ++ [bad] := by
  induction words with
  | nil => simp [upToLast, hlast, TokenKind.isLast]
  | cons word words ih =>
    rw [List.forall_mem_cons] at hwords
    cases hword : word.kind.isLast with
    | true =>
      obtain ⟨reason, hreason⟩ : ∃ reason, word.kind = .invalid reason := by
        cases hkind : word.kind with
        | invalid reason => exact ⟨reason, rfl⟩
        | finish => exact absurd hkind hwords.1
        | _ => simp [hkind, TokenKind.isLast] at hword
      exact .inr ⟨[], word, reason, hreason, by simp, by simp [upToLast, hword]⟩
    | false =>
      rcases ih hwords.2 with ⟨hvalid, hup⟩ | ⟨before, bad, reason, hbad, hvalid, hup⟩
      · exact .inl ⟨List.forall_mem_cons.2 ⟨hword, hvalid⟩, by simp [upToLast, hword, hup]⟩
      · exact .inr ⟨word :: before, bad, reason, hbad, List.forall_mem_cons.2 ⟨hword, hvalid⟩,
          by simp [upToLast, hword, hup]⟩

end RelationSql.Source
