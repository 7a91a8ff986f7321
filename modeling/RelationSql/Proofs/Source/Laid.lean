import RelationSql.Proofs.Source.Spelling

/-!
# Texts with a delimiter behind them

A text is laid out if it is read into the same kind of tokens wherever a delimiter follows (`LaidOut`). Laid
out texts are put together with blanks, commas and parentheses between them, and with signs in front.
-/

namespace RelationSql.Source

/-- Wherever a delimiter follows, the text is read into tokens of this kind. -/
def LaidOut (P : List Token → Prop) (text : List Char) : Prop :=
  ∀ offset rest, isDelimited rest = true → ∃ tokens offset', P tokens ∧
    tokensFrom offset (text ++ rest) = tokens ++ tokensFrom offset' rest

/-- The tokens stand in some text. -/
def AreRead (tokens : List Token) : Prop :=
  ∀ token ∈ tokens, token.kind = .finish ∨ ∃ c cs, token.kind = (read c cs).kind

namespace LaidOut

variable {P Q R : List Token → Prop} {cs ds : List Char} {c : Char} {kind : TokenKind}

theorem mono (h : LaidOut P cs) (hPQ : ∀ tokens, P tokens → AreRead tokens → Q tokens) : LaidOut Q cs := by
  intro offset rest hrest
  obtain ⟨tokens, offset', hP, htokens⟩ := h offset rest hrest
  refine ⟨tokens, offset', hPQ tokens hP fun token htoken => ?_, htokens⟩
  apply exists_read_of_mem
  rw [htokens]
  exact List.mem_append_left _ htoken

/-- The lexeme of a single token. -/
theorem lexeme (hkind : kind.isLast = false) (hread : read c cs = ⟨kind, c :: cs, []⟩)
    (hP : ∀ token : Token, token.kind = kind → P [token]) : LaidOut P (c :: cs) := by
  intro offset rest hrest
  refine ⟨[⟨kind, ⟨offset, offset + bytes (c :: cs)⟩⟩], offset + bytes (c :: cs), hP _ rfl, ?_⟩
  exact tokensFrom_of_read (read_of_delimited hread hkind hrest) hkind offset

/-- A sign that is read alone in front of everything. -/
theorem sign (kind : TokenKind) (hkind : kind.isLast = false) (hread : ∀ cs, read c cs = ⟨kind, [c], cs⟩)
    (h : LaidOut P cs) (hQ : ∀ (token : Token) (tokens : List Token), token.kind = kind → P tokens →
      Q (token :: tokens)) : LaidOut Q (c :: cs) := by
  intro offset rest hrest
  obtain ⟨tokens, offset', hP, htokens⟩ := h (offset + bytes [c]) rest hrest
  refine ⟨⟨kind, ⟨offset, offset + bytes [c]⟩⟩ :: tokens, offset', hQ _ _ rfl hP, ?_⟩
  have hfirst : tokensFrom offset ([c] ++ (cs ++ rest)) =
      ⟨kind, ⟨offset, offset + bytes [c]⟩⟩ :: tokensFrom (offset + bytes [c]) (cs ++ rest) :=
    tokensFrom_of_read (hread (cs ++ rest)) hkind offset
  rw [htokens] at hfirst
  exact hfirst

/-- A blank stands between two parts. -/
theorem spaced (h : LaidOut P cs) (h' : LaidOut Q ds)
    (hR : ∀ tokens tokens', P tokens → Q tokens' → R (tokens ++ tokens')) : LaidOut R (cs ++ ' ' :: ds) := by
  intro offset rest hrest
  obtain ⟨tokens, middle, hP, htokens⟩ := h offset (' ' :: ds ++ rest) rfl
  obtain ⟨tokens', offset', hQ, htokens'⟩ := h' (middle + 1) rest hrest
  refine ⟨tokens ++ tokens', offset', hR _ _ hP hQ, ?_⟩
  rw [List.append_assoc, htokens, List.cons_append, tokensFrom_space, htokens', List.append_assoc]

/-- The second part starts with a delimiter. -/
theorem append (h : LaidOut P cs) (h' : LaidOut Q (c :: ds)) (hc : isDelimiter c = true)
    (hR : ∀ tokens tokens', P tokens → Q tokens' → R (tokens ++ tokens')) : LaidOut R (cs ++ c :: ds) := by
  intro offset rest hrest
  obtain ⟨tokens, middle, hP, htokens⟩ := h offset (c :: ds ++ rest) hc
  obtain ⟨tokens', offset', hQ, htokens'⟩ := h' middle rest hrest
  refine ⟨tokens ++ tokens', offset', hR _ _ hP hQ, ?_⟩
  rw [List.append_assoc, htokens, htokens', List.append_assoc]

/-- No tokens take no text. -/
theorem nil (h : P []) : LaidOut P [] := fun offset _ _ => ⟨[], offset, h, rfl⟩

/-- A comma stands between two parts. -/
theorem comma (h : LaidOut P cs) (h' : LaidOut Q ds)
    (hR : ∀ tokens (comma : Token) tokens', P tokens → comma.kind = .symbol .comma → Q tokens' →
      R (tokens ++ comma :: tokens')) : LaidOut R (cs ++ ',' :: ds) := by
  have hcomma : LaidOut (fun tokens => ∃ comma tokens', tokens = comma :: tokens' ∧
      comma.kind = .symbol .comma ∧ Q tokens') (',' :: ds) :=
    h'.sign (.symbol .comma) rfl (fun _ => rfl) fun comma tokens' hcomma hQ => ⟨comma, tokens', rfl, hcomma, hQ⟩
  refine h.append hcomma rfl ?_
  rintro tokens _ hP ⟨comma, tokens', rfl, hcomma, hQ⟩
  exact hR tokens comma tokens' hP hcomma hQ

/-- Parentheses stand around a part. -/
theorem par (h : LaidOut P cs) (hR : ∀ (opening : Token) tokens (closing : Token),
      opening.kind = .symbol .leftParen → P tokens → closing.kind = .symbol .rightParen →
      R (opening :: (tokens ++ [closing]))) : LaidOut R ('(' :: cs ++ [')']) := by
  have hclosing : LaidOut (fun tokens => ∃ closing, tokens = [closing] ∧ closing.kind = .symbol .rightParen) [')'] :=
    lexeme rfl (show read ')' [] = ⟨.symbol .rightParen, [')'], []⟩ from rfl) fun closing hclosing =>
      ⟨closing, rfl, hclosing⟩
  have hinner : LaidOut (fun tokens => ∃ inner closing, tokens = inner ++ [closing] ∧ P inner ∧
      closing.kind = .symbol .rightParen) (cs ++ [')']) := by
    refine h.append hclosing rfl ?_
    rintro tokens _ hP ⟨closing, rfl, hclosing⟩
    exact ⟨tokens, closing, rfl, hP, hclosing⟩
  refine hinner.sign (.symbol .leftParen) rfl (fun _ => rfl) ?_
  rintro opening _ hopening ⟨tokens, closing, rfl, hP, hclosing⟩
  exact hR opening tokens closing hopening hP hclosing

end LaidOut

end RelationSql.Source
