import RelationSql.Proofs.Source.Restyled

/-!
# Sources put together from parts

White space ends every token: in front of a blank a token is read as it is read alone, whatever the blank
is and whatever stands behind it (`read_append_of_blank`). So the tokens of a source without faults, of
white space and of any text behind it are the words of the source and then the tokens of the text, further
on by the size of what stands in front of them (`lex_assembled`). The order of a relation is put behind a
source in this way.
-/

namespace RelationSql.Source

open RelationSql.Text

variable {source gap more : String} {words : List Token}

/-! ## In front of a blank -/

/-- **A token is read in front of a blank as it is read alone.** -/
theorem read_append_of_blank {c d : Char} {cs : List Char} (hkind : (read c cs).kind.isLast = false)
    (hd : isBlank d = true) (rest : List Char) :
    read c (cs ++ d :: rest) = (read c cs).before (d :: rest) := by
  -- in front of a space first; then no token tells the space from another blank
  have hspace := @read_append_of_delimited c cs (' ' :: rest) hkind rfl
  obtain ⟨lexeme, hread, htext⟩ := read_eq c cs
  rw [hread] at hspace ⊢
  generalize (read c cs).rest = left at htext hspace ⊢
  subst htext
  have hagree : Agree Kindred (left ++ ' ' :: rest) (left ++ d :: rest) :=
    (Agree.differ (.blank (by decide) hd) rest rest).append left
  rw [List.append_assoc] at hspace ⊢
  exact read_agree hspace hagree

/-- **The words of a text in front of white space are those it has alone**, and behind the white space the
rest has its own tokens. -/
theorem tokensFrom_append_blanks {text blanks rest : List Char} {offset : Nat}
    (h : Words offset text words) (hne : blanks ≠ []) (hblank : ∀ c ∈ blanks, isBlank c = true) :
    tokensFrom offset (text ++ (blanks ++ rest)) =
      words ++ tokensFrom (offset + bytes text + bytes blanks) rest := by
  have hread : ∀ c cs, (read c cs).kind.isLast = false →
      read c (cs ++ (blanks ++ rest)) = (read c cs).before (blanks ++ rest) := by
    intro c cs hkind
    cases blanks with
    | nil => exact absurd rfl hne
    | cons d blanks => exact read_append_of_blank hkind (hblank d List.mem_cons_self) _
  rw [tokensFrom_append_of_read h hread, tokensFrom_blanks _ (span_of_forall hblank).2]

/-! ## The tokens that are used -/

/-- A shift does not change which tokens are used. -/
theorem upToLast_map_shift (count : Nat) (tokens : List Token) :
    upToLast (tokens.map (Token.shift count)) = (upToLast tokens).map (Token.shift count) := by
  induction tokens with
  | nil => rfl
  | cons token tokens ih =>
    have hkind : (token.shift count).kind = token.kind := rfl
    rw [List.map_cons, upToLast, upToLast, hkind, ih]
    split <;> rfl

/-- The used tokens of a text further on in a source are those of the text, shifted. -/
theorem upToLast_tokensFrom (count : Nat) (text : String) :
    upToLast (tokensFrom count text.toList) = (lex text).map (Token.shift count) := by
  have hshift := tokensFrom_shift count 0 text.toList
  rw [Nat.add_zero] at hshift
  rw [hshift, upToLast_map_shift]
  rfl

/-- A source without faults has words in front of its end. -/
theorem words_of_lex (h : ∀ token ∈ lex source, ∀ reason, token.kind ≠ .invalid reason) :
    ∃ words last, Words 0 source.toList words ∧ last.kind = .finish ∧ lex source = words ++ [last] := by
  obtain ⟨words, last, htokens, hlast, hwords⟩ := tokensFrom_eq_append 0 source.toList
  rcases upToLast_cases hlast hwords with ⟨hvalid, hup⟩ | ⟨before, bad, reason, hbad, -, hup⟩
  · refine ⟨words, last, ⟨⟨last, hlast, htokens⟩, hvalid⟩, hlast, ?_⟩
    rw [lex, lexAll, htokens, hup]
  · -- the piece that is no token would be the last one used
    have hmem : bad ∈ lex source := by
      rw [lex, lexAll, htokens, hup]
      simp
    exact absurd hbad (h bad hmem reason)

/-- The size of a text. -/
theorem bytes_toList (text : String) : bytes text.toList = text.utf8ByteSize := by
  rw [bytes_eq_utf8ByteSize, String.ofList_toList]

/-! ## Sources -/

/-- The tokens of a source with white space and a text behind it. -/
theorem lex_append_of_words {last : Token} (h : Words 0 source.toList words)
    (hlex : lex source = words ++ [last]) (hne : gap ≠ "") (hblank : ∀ c ∈ gap.toList, isBlank c = true)
    (more : String) :
    lex (source ++ gap ++ more) =
      (lex source).dropLast ++ (lex more).map (Token.shift (source ++ gap).utf8ByteSize) := by
  have hgap : gap.toList ≠ [] := by
    intro hnil
    exact hne (String.toList_injective (by simpa using hnil))
  have htext : (source ++ gap ++ more).toList = source.toList ++ (gap.toList ++ more.toList) := by
    rw [String.toList_append, String.toList_append, List.append_assoc]
  have hsize : 0 + bytes source.toList + bytes gap.toList = (source ++ gap).utf8ByteSize := by
    rw [Nat.zero_add, bytes_toList, bytes_toList, String.utf8ByteSize_append]
  rw [lex, lexAll, htext, tokensFrom_append_blanks h hgap hblank, upToLast_append h.valid, hsize,
    upToLast_tokensFrom, hlex, List.dropLast_concat]

/-- **Sources can be put together at white space.** The tokens of a source without faults, of white space
and of any text are those of the source without its end, and then those of the text, further on by the
size of the source and the white space. An order in particular has its own tokens behind the words in
front of it. -/
theorem lex_assembled :
    (∀ source gap more : String, (∀ token ∈ lex source, ∀ reason, token.kind ≠ .invalid reason) →
      gap ≠ "" → (∀ c ∈ gap.toList, isBlank c = true) →
      lex (source ++ gap ++ more) =
        (lex source).dropLast ++ (lex more).map (Token.shift (source ++ gap).utf8ByteSize) ∧
      ∃ last, (lex source).getLast? = some last ∧ last.kind = .finish) ∧
    ∀ order : String, lex ("foo order by " ++ order) =
      [⟨.name "foo", ⟨0, 3⟩⟩, ⟨.keyword .order, ⟨4, 9⟩⟩, ⟨.keyword .by_, ⟨10, 12⟩⟩] ++
        (lex order).map (Token.shift 13) := by
  constructor
  · intro source gap more hsource hne hblank
    obtain ⟨words, last, hwords, hlast, hlex⟩ := words_of_lex hsource
    refine ⟨lex_append_of_words hwords hlex hne hblank more, last, ?_, hlast⟩
    rw [hlex, List.getLast?_concat]
  · intro order
    have hlex : lex "foo order by" = [⟨.name "foo", ⟨0, 3⟩⟩, ⟨.keyword .order, ⟨4, 9⟩⟩,
        ⟨.keyword .by_, ⟨10, 12⟩⟩] ++ [⟨.finish, ⟨12, 12⟩⟩] := by
      decide +kernel
    have hfaultless : ∀ token ∈ lex "foo order by", ∀ reason, token.kind ≠ .invalid reason := by
      rw [hlex]
      simp
    obtain ⟨words, last, hwords, -, hsplit⟩ := words_of_lex hfaultless
    have hjoined := @lex_append_of_words _ " " _ _ hwords hsplit (by decide)
      (List.all_eq_true.1 (by decide)) order
    rw [hlex, List.dropLast_concat] at hjoined
    exact hjoined

/-- Between the two sources stand a blank of two bytes and a line break. Without them the first would go on
as a decimal number. -/
theorem lex_assembled_number :
    (∀ token ∈ lex "n <= 7.", ∀ reason, token.kind ≠ .invalid reason) ∧
      lex ("n <= 7." ++ "\u00a0\n" ++ "5 'x") =
        [⟨.name "n", ⟨0, 1⟩⟩, ⟨.symbol .lessOrEqual, ⟨2, 4⟩⟩, ⟨.integer "7", ⟨5, 6⟩⟩,
          ⟨.symbol .dot, ⟨6, 7⟩⟩, ⟨.integer "5", ⟨10, 11⟩⟩, ⟨.invalid .unterminated, ⟨12, 14⟩⟩] := by
  have hlex : lex "n <= 7." = [⟨.name "n", ⟨0, 1⟩⟩, ⟨.symbol .lessOrEqual, ⟨2, 4⟩⟩,
      ⟨.integer "7", ⟨5, 6⟩⟩, ⟨.symbol .dot, ⟨6, 7⟩⟩, ⟨.finish, ⟨7, 7⟩⟩] := by
    decide +kernel
  have hmore : lex "5 'x" = [⟨.integer "5", ⟨0, 1⟩⟩, ⟨.invalid .unterminated, ⟨2, 4⟩⟩] := by
    decide +kernel
  have hfaultless : ∀ token ∈ lex "n <= 7.", ∀ reason, token.kind ≠ .invalid reason := by
    rw [hlex]
    simp
  have hjoined :=
    (lex_assembled.1 "n <= 7." "\u00a0\n" "5 'x" hfaultless (by decide)
      (List.all_eq_true.1 (by decide))).1
  refine ⟨hfaultless, hjoined.trans ?_⟩
  rw [hlex, hmore]
  decide +kernel

end RelationSql.Source
