import RelationSql.Proofs.Source.Ahead
import RelationSql.Proofs.Source.Escaped

/-!
# Sources that differ in their quoted texts

Two sources are the same but for the contents of single-quoted texts (`Requoted`). They have the same
tokens, one by one, with the contents in the same places (`tokensAlike_of_requoted`): what a token is depends
on the characters after it only up to the next quote.
-/

namespace RelationSql.Source

open RelationSql.Text

/-! ## Sources -/

/-- The second text is the first one with other contents in some of its single-quoted texts. The pairs
are the old and the new contents, in the order of the text. -/
inductive Requoted : List (String × String) → List Char → List Char → Prop where
  | end_ : Requoted [] [] []
  | blank {swaps : List (String × String)} {c : Char} {cs ds : List Char}
      (hc : isBlank c = true) (rest : Requoted swaps cs ds) : Requoted swaps (c :: cs) (c :: ds)
  /-- A token, or a character that starts none, that stays as it is. -/
  | token {swaps : List (String × String)} {kind : TokenKind} {c : Char} {cs more more' : List Char}
      (hc : isBlank c = false) (hread : read c (cs ++ more) = ⟨kind, c :: cs, more⟩)
      (rest : Requoted swaps more more') : Requoted swaps (c :: cs ++ more) (c :: cs ++ more')
  /-- A single-quoted text, up to its closing quote, and what stands in its place. -/
  | text {swaps : List (String × String)} {content content' written written' more more' : List Char}
      (hread : readQuoted '\'' written = some ⟨content, written, []⟩)
      (hread' : readQuoted '\'' written' = some ⟨content', written', []⟩)
      (rest : Requoted swaps more more') :
      Requoted ((String.ofList content, String.ofList content') :: swaps)
        ('\'' :: written ++ more) ('\'' :: written' ++ more')

/-- Every text is itself with nothing replaced. -/
theorem requoted_self (cs : List Char) : Requoted [] cs cs := by
  induction hlength : cs.length using Nat.strongRecOn generalizing cs with
  | ind length ih =>
    subst hlength
    cases cs with
    | nil => exact .end_
    | cons c cs =>
      cases hc : isBlank c with
      | true => exact .blank hc (ih _ (by simp) cs rfl)
      | false =>
        have happ := read_append c cs
        have hshorter := length_rest_read_lt c cs
        rcases hread : read c cs with ⟨kind, lexeme, rest⟩
        rw [hread] at happ hshorter
        dsimp only at happ hshorter
        cases lexeme with
        | nil => exact absurd (congrArg Reading.lexeme hread) (read_ne_nil c cs)
        | cons d lexeme =>
          rw [List.cons_append, List.cons.injEq] at happ
          obtain ⟨rfl, rfl⟩ := happ
          exact .token hc hread (ih _ hshorter rest rfl)

/-- A content as it can be written up to its closing quote: with a backslash in front of quotes and
backslashes. -/
def spellText (content : List Char) : List Char :=
  content.flatMap (fun c => if c = '\'' ∨ c = '\\' then ['\\', c] else [c]) ++ ['\'']

/-- **Every content can be written**, and is read back. -/
theorem readQuoted_spellText (content : List Char) :
    readQuoted '\'' (spellText content) = some ⟨content, spellText content, []⟩ :=
  readQuoted_of_writes (by decide) (writes_escaped '\'' content) []

/-- A quoted text with another content in its place. -/
theorem Requoted.replace {swaps : List (String × String)} (content content' : List Char)
    {more more' : List Char} (rest : Requoted swaps more more') :
    Requoted ((String.ofList content, String.ofList content') :: swaps)
      ('\'' :: spellText content ++ more) ('\'' :: spellText content' ++ more') :=
  .text (readQuoted_spellText content) (readQuoted_spellText content') rest

/-- The texts agree up to the quote behind which they first differ. -/
theorem Requoted.agree {swaps : List (String × String)} {cs ds : List Char}
    (h : Requoted swaps cs ds) : Agree (fun c d => c = '\'' ∧ d = '\'') cs ds := by
  induction h with
  | end_ => exact .same []
  | blank _ _ ih => exact ih.cons _
  | token _ _ _ ih => exact ih.append _
  | text _ _ _ _ => exact .differ ⟨rfl, rfl⟩ _ _

/-! ## Tokens -/

/-- The names and numbers are made of the characters that the lexer allows in them. -/
def TokenKind.IsSpelled : TokenKind → Prop
  | .name word => ∀ c ∈ word.toList, isNameRest c = true
  | .integer digits => ∀ c ∈ digits.toList, c.isDigit = true ∨ c = '.'
  | .real digits => ∀ c ∈ digits.toList, c.isDigit = true ∨ c = '.'
  | _ => True

theorem isSpelled_read (c : Char) (cs : List Char) : (read c cs).kind.IsSpelled := by
  cases hkind : (read c cs).kind with
  | name name =>
    obtain ⟨d, ds, rfl, hall, -⟩ := read_name hkind
    simpa [TokenKind.IsSpelled] using hall
  | integer digits =>
    obtain ⟨d, ds, rfl, hall, -⟩ := read_number hkind (Or.inl rfl)
    simpa [TokenKind.IsSpelled] using hall
  | real digits =>
    obtain ⟨d, ds, rfl, hall, -⟩ := read_number hkind (Or.inr rfl)
    simpa [TokenKind.IsSpelled] using hall
  | _ => trivial

/-- Are the kinds the same, or quoted texts with contents that belong together? -/
inductive KindAlike (P : String → String → Prop) : TokenKind → TokenKind → Prop where
  | same {kind : TokenKind} (h : kind.IsSpelled) : KindAlike P kind kind
  | text {content content' : String} (h : P content content') :
      KindAlike P (.text content) (.text content')

/-- The same tokens, but for the contents of quoted texts. A minus touches what follows it in both
lists or in none. -/
inductive TokensAlike (P : String → String → Prop) : List Token → List Token → Prop where
  | nil : TokensAlike P [] []
  | cons {token token' : Token} {tokens tokens' : List Token}
      (kind : KindAlike P token.kind token'.kind)
      (touches : ∀ next ∈ tokens.head?, ∀ next' ∈ tokens'.head?,
        token'.span.touches next'.span = token.span.touches next.span)
      (rest : TokensAlike P tokens tokens') : TokensAlike P (token :: tokens) (token' :: tokens')

variable {P Q : String → String → Prop}

/-- The first token is the same in both lists, or a quoted text. -/
theorem TokensAlike.head {token token' : Token} {tokens tokens' : List Token}
    (h : TokensAlike P (token :: tokens) (token' :: tokens')) : KindAlike P token.kind token'.kind := by
  cases h with
  | cons kind _ _ => exact kind

theorem TokensAlike.tail {tokens tokens' : List Token} (h : TokensAlike P tokens tokens') :
    TokensAlike P tokens.tail tokens'.tail := by
  cases h with
  | nil => exact .nil
  | cons _ _ hrest => exact hrest

theorem KindAlike.isLast {kind kind' : TokenKind} (h : KindAlike P kind kind') :
    kind'.isLast = kind.isLast := by
  cases h <;> rfl

theorem KindAlike.imp (hPQ : ∀ l r, P l r → Q l r) {kind kind' : TokenKind}
    (h : KindAlike P kind kind') : KindAlike Q kind kind' := by
  cases h with
  | same h => exact .same h
  | text h => exact .text (hPQ _ _ h)

theorem TokensAlike.imp (hPQ : ∀ l r, P l r → Q l r) {tokens tokens' : List Token}
    (h : TokensAlike P tokens tokens') : TokensAlike Q tokens tokens' := by
  induction h with
  | nil => exact .nil
  | cons kind touches _ ih => exact .cons (kind.imp hPQ) touches ih

/-- Both lists end with the same token. -/
theorem TokensAlike.upToLast {tokens tokens' : List Token} (h : TokensAlike P tokens tokens') :
    TokensAlike P (upToLast tokens) (upToLast tokens') := by
  have hhead (tokens : List Token) : (Source.upToLast tokens).head? = tokens.head? := by
    cases tokens with
    | nil => rfl
    | cons token tokens =>
      rw [Source.upToLast]
      split <;> rfl
  induction h with
  | nil => exact .nil
  | @cons token token' tokens tokens' kind touches _ ih =>
    rw [Source.upToLast, Source.upToLast, kind.isLast]
    split
    · exact .cons kind (by simp) .nil
    · exact .cons kind (by rwa [hhead, hhead]) ih

/-- The first token behind a run of blanks starts where the run ends. -/
theorem start_of_head? {offset : Nat} {text : List Char} {token : Token}
    (h : token ∈ (tokensFrom offset text).head?) :
    token.span.start = offset + bytes (text.takeWhile isBlank) := by
  cases hdrop : text.dropWhile isBlank with
  | nil =>
    rw [tokensFrom_of_nil hdrop] at h
    cases h
    rfl
  | cons c cs =>
    rw [tokensFrom_of_cons hdrop offset rfl] at h
    cases h
    rfl

/-- A single-quoted text is read up to its closing quote. -/
theorem read_quote {content written : List Char}
    (h : readQuoted '\'' written = some ⟨content, written, []⟩) (more : List Char) :
    read '\'' (written ++ more) = ⟨.text (String.ofList content), '\'' :: written, more⟩ := by
  unfold read
  rw [readSymbol?_eq_none (Or.inr (Or.inr rfl))]
  simp [readText, readQuoted_of_closed h, quotedKind]

/-- Tokens that stand in front of texts that differ in quoted texts only. -/
theorem TokensAlike.cons_of_requoted {swaps : List (String × String)} {more more' : List Char}
    (h : Requoted swaps more more') {offset offset' size size' : Nat} {kind kind' : TokenKind}
    (hkind : KindAlike P kind kind')
    (hmore : TokensAlike P (tokensFrom (offset + size) more) (tokensFrom (offset' + size') more')) :
    TokensAlike P (⟨kind, ⟨offset, offset + size⟩⟩ :: tokensFrom (offset + size) more)
      (⟨kind', ⟨offset', offset' + size'⟩⟩ :: tokensFrom (offset' + size') more') := by
  refine .cons hkind ?_ hmore
  intro next hnext next' hnext'
  -- the tokens touch exactly if no blank stands between them
  rw [Span.touches, Span.touches, start_of_head? hnext, start_of_head? hnext',
    h.agree.takeWhile (by rintro c d ⟨rfl, rfl⟩; decide), Bool.eq_iff_iff, beq_iff_eq, beq_iff_eq]
  simp only
  omega

/-- **Sources that differ in quoted texts only have the same tokens but for these texts.** -/
theorem tokensAlike_of_requoted {swaps : List (String × String)} {cs ds : List Char}
    (h : Requoted swaps cs ds) (offset offset' : Nat) :
    TokensAlike (fun l r => (l, r) ∈ swaps) (tokensFrom offset cs) (tokensFrom offset' ds) := by
  induction h generalizing offset offset' with
  | end_ =>
    rw [tokensFrom_of_nil rfl, tokensFrom_of_nil rfl]
    exact .cons (.same trivial) (by simp) .nil
  | blank hc _ ih =>
    rw [tokensFrom_blank hc, tokensFrom_blank hc]
    exact ih _ _
  | token hc hread rest ih =>
    have hread' := read_agree hread (rest.agree.imp (by rintro c d ⟨rfl, rfl⟩; exact .quote))
    have hspelled := congrArg Reading.kind hread ▸ isSpelled_read _ _
    rw [tokensFrom_reading hc hread, tokensFrom_reading hc hread']
    exact .cons_of_requoted rest (.same hspelled) (ih _ _)
  | text hread hread' rest ih =>
    rw [tokensFrom_reading (by decide) (read_quote hread _),
      tokensFrom_reading (by decide) (read_quote hread' _)]
    refine .cons_of_requoted rest (.text List.mem_cons_self) ((ih _ _).imp ?_)
    exact fun l r hmem => List.mem_cons_of_mem _ hmem

end RelationSql.Source
