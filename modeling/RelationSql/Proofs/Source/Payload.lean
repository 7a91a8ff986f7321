import Mathlib.Data.List.Infix
import RelationSql.Proofs.Source.Assembled
import RelationSql.Proofs.Source.Escaped

/-!
# Quoted texts and their payloads

A text between quotes, with a backslash in front of every quote and every backslash, is read as that text,
whatever it holds and whatever follows; and every quoted text in a source is written like this, up to
backslashes that are not needed (`quoted_read_back`).
-/

namespace RelationSql.Source

open RelationSql.Text

variable {quote c : Char} {cs text content : List Char} {kind : TokenKind}

/-! ## Templates -/

/-- A text has a first occurrence of a mark exactly if it holds the mark. -/
theorem isSome_splitOnce? {mark text : List Char} :
    (splitOnce? mark text).isSome = true ↔ mark <:+: text := by
  induction text with
  | nil =>
    rw [splitOnce?, List.infix_nil]
    split
    · next h => simpa using h
    · next h => simpa using h
  | cons c text ih =>
    rw [List.infix_cons_iff, ← ih, splitOnce?]
    split
    · next rest h =>
      have hfront : mark <+: c :: text := ⟨rest, (after?_eq_some_iff.1 h).symm⟩
      simp [hfront]
    · next h =>
      have hfront : ¬ mark <+: c :: text := by
        rintro ⟨rest, hrest⟩
        rw [after?_eq_some_iff.2 hrest.symm] at h
        cases h
      simp [hfront]

/-- The token of a content between quotes: a template between double quotes, if it holds the start of an
interpolation, and a text otherwise. -/
def payloadKind (quote : Char) (content : String) : TokenKind :=
  if quote = '"' ∧ ['#', '{'] <:+: content.toList then .template content else .text content

theorem quotedKind_eq (quote : Char) (content : List Char) :
    quotedKind quote content = payloadKind quote (String.ofList content) := by
  rw [quotedKind, payloadKind, hasInterpolation, String.toList_ofList]
  simp only [Bool.and_eq_true, beq_iff_eq, isSome_splitOnce?]

/-! ## Reading -/

/-- What starts with a quote is read as a quoted text. -/
theorem read_of_quote (hquote : quote = '\'' ∨ quote = '"') (cs : List Char) :
    read quote cs = readText quote cs := by
  rcases hquote with rfl | rfl <;> rfl

/-- **A writing between quotes is read as its content**, whatever follows. -/
theorem read_of_writes (hquote : quote = '\'' ∨ quote = '"') (h : Writes quote text content)
    (rest : List Char) :
    read quote (text ++ quote :: rest) =
      ⟨payloadKind quote (String.ofList content), quote :: (text ++ [quote]), rest⟩ := by
  have hslash : quote ≠ '\\' := by
    rcases hquote with rfl | rfl <;> decide
  rw [read_of_quote hquote, readText, readQuoted_of_writes hslash h, ← quotedKind_eq]

/-- Neither a sign nor a number nor a word is a text. -/
theorem not_text_of_read (hquote : ¬ (c = '\'' ∨ c = '"')) (cs : List Char) (content : String) :
    ¬ ((read c cs).kind = .text content ∨ (read c cs).kind = .template content) := by
  have hno : ¬ (c == '\'' || c == '"') = true := by simpa using hquote
  unfold read
  split
  · next reading hfound =>
    obtain ⟨-, entry, -, -, hkind⟩ := readSymbol?_append hfound
    simp [hkind]
  · rw [if_neg hno]
    split
    · rcases readNumber_cases (c :: cs) with hkind | ⟨_, _, _, hkind⟩ <;> simp [hkind]
    · split
      · rcases wordKind_cases (String.ofList ((c :: cs).takeWhile isNameRest)) with hkind | ⟨_, hkind⟩ <;>
          simp [readWord, hkind]
      · simp

/-- **What is read as a text or a template is a writing of its content** between quotes. -/
theorem exists_writes_of_read {content : String}
    (h : (read c cs).kind = .text content ∨ (read c cs).kind = .template content) :
    (c = '\'' ∨ c = '"') ∧ (read c cs).kind = payloadKind c content ∧
      ∃ text, (read c cs).lexeme = c :: (text ++ [c]) ∧ Writes c text content.toList := by
  by_cases hquote : c = '\'' ∨ c = '"'
  · refine ⟨hquote, ?_⟩
    rw [read_of_quote hquote, readText] at h ⊢
    cases hread : readQuoted c cs with
    | none => simp [hread] at h
    | some quoted =>
      obtain ⟨text, hlexeme, htext⟩ := exists_writes hread
      rw [hread] at h
      dsimp only at h ⊢
      rw [quotedKind_eq] at h ⊢
      -- text or template, the token holds the content
      have hcontent : String.ofList quoted.content = content := by
        rw [payloadKind] at h
        split at h <;> simpa using h
      rw [← hcontent, String.toList_ofList]
      exact ⟨rfl, text, congrArg (c :: ·) hlexeme, htext⟩
  · exact absurd h (not_text_of_read hquote cs content)

/-- Every token in front of the end stands where it was read. -/
theorem exists_place_of_mem {offset : Nat} {text : List Char} {token : Token}
    (h : token ∈ tokensFrom offset text) (hkind : token.kind ≠ .finish) :
    ∃ before c cs, text = before ++ c :: cs ∧ token.kind = (read c cs).kind ∧
      token.span = ⟨offset + bytes before, offset + bytes before + bytes (read c cs).lexeme⟩ := by
  induction hlength : text.length using Nat.strongRecOn generalizing offset text with
  | ind length ih =>
    subst hlength
    have hsplit := List.takeWhile_append_dropWhile (p := isBlank) (l := text)
    cases htext : text.dropWhile isBlank with
    | nil =>
      rw [tokensFrom_of_nil htext, List.mem_singleton] at h
      subst h
      exact absurd rfl hkind
    | cons c cs =>
      rw [htext] at hsplit
      rw [tokensFrom_of_cons htext offset rfl] at h
      rcases List.mem_cons.1 h with rfl | h
      · exact ⟨_, c, cs, hsplit.symm, rfl, rfl⟩
      · -- behind the first token
        obtain ⟨before, d, ds, hrest, hd, hspan⟩ := ih _ (length_rest_lt htext) h rfl
        refine ⟨text.takeWhile isBlank ++ ((read c cs).lexeme ++ before), d, ds, ?_, hd, ?_⟩
        · rw [List.append_assoc, List.append_assoc, ← hrest, read_append, hsplit]
        · rw [hspan]
          simp only [bytes_append, Nat.add_assoc]

/-! ## Sources -/

/-- A content between quotes, with a backslash in front of every quote and every backslash. -/
def quoteContent (quote : Char) (content : String) : String :=
  String.ofList (quote :: (escaped quote content.toList ++ [quote]))

/-- **Quoted texts survive.** A content between quotes, with a backslash in front of every quote and every
backslash, is the first token of a source, whatever it holds and whatever follows, which has its own tokens
behind it. Every text and every template of a source is such a writing of its content, up to backslashes
in front of characters that need none. -/
theorem quoted_read_back :
    (∀ quote : Char, quote = '\'' ∨ quote = '"' → ∀ content following : String,
      lex (quoteContent quote content ++ following) =
        ⟨payloadKind quote content, ⟨0, (quoteContent quote content).utf8ByteSize⟩⟩ ::
          (lex following).map (Token.shift (quoteContent quote content).utf8ByteSize)) ∧
    ∀ source : String, ∀ token ∈ lexAll source, ∀ content : String,
      token.kind = .text content ∨ token.kind = .template content →
        ∃ quote text, (quote = '\'' ∨ quote = '"') ∧ token.kind = payloadKind quote content ∧
          Holds source.toList token.span (quote :: (text ++ [quote])) ∧
          Writes quote text content.toList := by
  constructor
  · intro quote hquote content following
    have hread := read_of_writes hquote (writes_escaped quote content.toList) following.toList
    rw [String.ofList_toList] at hread
    have htext : (quoteContent quote content ++ following).toList =
        quote :: (escaped quote content.toList ++ [quote]) ++ following.toList := by
      rw [String.toList_append, quoteContent, String.toList_ofList]
    have hsize : 0 + bytes (quote :: (escaped quote content.toList ++ [quote])) =
        (quoteContent quote content).utf8ByteSize := by
      rw [Nat.zero_add, bytes_eq_utf8ByteSize]
      rfl
    have hkind : (payloadKind quote content).isLast = false := by
      rw [payloadKind]
      split <;> rfl
    have hread' : read quote (escaped quote content.toList ++ [quote] ++ following.toList) =
        ⟨payloadKind quote content, quote :: (escaped quote content.toList ++ [quote]),
          following.toList⟩ := by
      rw [List.append_assoc]
      exact hread
    rw [lex, lexAll, htext, tokensFrom_of_read hread' hkind, upToLast, hkind, hsize,
      upToLast_tokensFrom]
    rfl
  · intro source token hmem content htoken
    have hend : token.kind ≠ .finish := by
      rcases htoken with hk | hk <;> simp [hk]
    obtain ⟨before, c, cs, htext, hkind, hspan⟩ := exists_place_of_mem hmem hend
    rw [hkind] at htoken
    obtain ⟨hquote, hpayload, text, hlexeme, hwrites⟩ := exists_writes_of_read htoken
    refine ⟨c, text, hquote, hkind.trans hpayload, ⟨before, (read c cs).rest, ?_, ?_⟩, hwrites⟩
    · rw [← hlexeme, read_append, htext]
    · rw [hspan, hlexeme, Nat.zero_add]

/-- Backslashes at both ends of the content and a quote behind one of them, in front of a text that is not
closed; and a text with a backslash that is not needed. -/
theorem quoted_read_back_slashes :
    lex (quoteContent '"' "\\\"#\x7bb\x7d\\" ++ "\" 'x") =
        [⟨.template "\\\"#\x7bb\x7d\\", ⟨0, 12⟩⟩, ⟨.invalid .unterminated, ⟨12, 16⟩⟩] ∧
      (⟨.text "it's a", ⟨4, 14⟩⟩ : Token) ∈ lexAll "x = 'it\\'s \\a'" ∧
      ∃ quote text, Holds "x = 'it\\'s \\a'".toList ⟨4, 14⟩ (quote :: (text ++ [quote])) ∧
        Writes quote text "it's a".toList := by
  have hlex : lex "\" 'x" = [⟨.invalid .unterminated, ⟨0, 4⟩⟩] := by
    decide +kernel
  have htokens : lexAll "x = 'it\\'s \\a'" = [⟨.name "x", ⟨0, 1⟩⟩, ⟨.symbol .equal, ⟨2, 3⟩⟩,
      ⟨.text "it's a", ⟨4, 14⟩⟩, ⟨.finish, ⟨14, 14⟩⟩] := by
    decide +kernel
  have hmem : (⟨.text "it's a", ⟨4, 14⟩⟩ : Token) ∈ lexAll "x = 'it\\'s \\a'" := by
    rw [htokens]
    simp
  obtain ⟨quote, text, -, -, hholds, hwrites⟩ := quoted_read_back.2 _ _ hmem "it's a" (.inl rfl)
  have hread := quoted_read_back.1 '"' (.inr rfl) "\\\"#\x7bb\x7d\\" "\" 'x"
  refine ⟨hread.trans ?_, hmem, quote, text, hholds, hwrites⟩
  rw [hlex]
  decide +kernel

end RelationSql.Source
