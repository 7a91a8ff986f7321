import Mathlib.Data.List.Nodup
import Mathlib.Data.List.TakeWhile
import Mathlib.Data.String.Basic
import Mathlib.Tactic.Common
import RelationSql.Proofs.Source.Followed

/-!
# Tokens tile their source

The tokens of a source, with the blanks between them, take it apart from its first character to its
last (`Tiles`): whatever stands between one token and the next is blank, every token but the end has a
character of its own, and the end is empty and stands behind everything.

A lexer is also looked at one call at a time. A `Cursor` is where it stands, `Cursor.next` is one call,
and `Cursor.tokens` are the tokens of so many calls in a row. They are the tokens of the whole source,
and from then on its end over and over (`tokens_eq_of_tokensFrom`).
-/

namespace RelationSql.Source

open RelationSql.Text

/-! ## A text and its tokens -/

/-- The tokens of a text that starts at a byte offset take it apart: gaps of blanks, each in front of
a token with characters of its own, and a last gap in front of the end. -/
inductive Tiles : Nat → List Char → List Token → Prop
  | finish {offset : Nat} {gap : List Char} (blank : ∀ c ∈ gap, isBlank c = true) :
      Tiles offset gap [⟨.finish, ⟨offset + bytes gap, offset + bytes gap⟩⟩]
  | token {offset : Nat} {gap lexeme rest : List Char} {kind : TokenKind} {tokens : List Token}
      (blank : ∀ c ∈ gap, isBlank c = true) (nonempty : lexeme ≠ []) (notEnd : kind ≠ .finish)
      (more : Tiles (offset + bytes gap + bytes lexeme) rest tokens) :
      Tiles offset (gap ++ (lexeme ++ rest))
        (⟨kind, ⟨offset + bytes gap, offset + bytes gap + bytes lexeme⟩⟩ :: tokens)

/-- Blanks in front of a text are blank. -/
theorem isBlank_of_mem_takeWhile {text : List Char} :
    ∀ c ∈ text.takeWhile isBlank, isBlank c = true := by
  intro c hc
  exact List.mem_takeWhile_imp hc

/-- **The tokens that are read tile the text.** -/
theorem tiles_tokensFrom (offset : Nat) (text : List Char) :
    Tiles offset text (tokensFrom offset text) := by
  -- one token at a time: what it leaves is the text of the induction hypothesis
  induction hlength : text.length using Nat.strongRecOn generalizing offset text with
  | ind length ih =>
    subst hlength
    have hsplit := List.takeWhile_append_dropWhile (p := isBlank) (l := text)
    cases htext : text.dropWhile isBlank with
    | nil =>
      rw [tokensFrom_of_nil htext]
      rw [htext, List.append_nil] at hsplit
      have hfinish := @Tiles.finish offset _ (@isBlank_of_mem_takeWhile text)
      rw [hsplit] at hfinish ⊢
      exact hfinish
    | cons c cs =>
      have hmore := ih _ (length_rest_lt htext)
        (offset + bytes (text.takeWhile isBlank) + bytes (read c cs).lexeme) (read c cs).rest rfl
      have htoken := Tiles.token isBlank_of_mem_takeWhile (read_ne_nil c cs)
        (kind_read_ne_finish c cs) hmore
      rw [read_append, ← htext, hsplit] at htoken
      rw [tokensFrom_of_cons htext offset rfl]
      exact htoken

/-! ## What stands at a byte range -/

/-- A byte range of a text holds these characters: it starts and stops between two characters, and they
are the ones from there to there. -/
def Holds (text : List Char) (span : Span) (piece : List Char) : Prop :=
  ∃ before after, text = before ++ (piece ++ after) ∧
    span = ⟨bytes before, bytes before + bytes piece⟩

/-- Two beginnings of one text with the same size are the same. -/
theorem append_inj_of_bytes {before before' after after' : List Char}
    (happ : before ++ after = before' ++ after') (hbytes : bytes before = bytes before') :
    before = before' ∧ after = after' := by
  induction before generalizing before' with
  | nil =>
    cases before' with
    | nil => exact ⟨rfl, happ⟩
    | cons c before' =>
      have hpos := bytes_pos (List.cons_ne_nil c before')
      rw [bytes_nil] at hbytes
      omega
  | cons c before ih =>
    cases before' with
    | nil =>
      have hpos := bytes_pos (List.cons_ne_nil c before)
      rw [bytes_nil] at hbytes
      omega
    | cons c' before' =>
      rw [List.cons_append, List.cons_append] at happ
      obtain ⟨rfl, htail⟩ := List.cons.inj happ
      rw [bytes_cons, bytes_cons] at hbytes
      obtain ⟨rfl, rfl⟩ := ih htail (by omega)
      exact ⟨rfl, rfl⟩

/-- The bytes of a string are those of its characters. -/
theorem bytes_eq_utf8ByteSize (text : List Char) : bytes text = (String.ofList text).utf8ByteSize := by
  induction text with
  | nil => simp
  | cons c text ih => simp [ih, String.utf8ByteSize_ofList]

/-- Where a beginning of a string ends is a character boundary of it. -/
theorem isValid_of_append {source : String} {before after : List Char}
    (h : source.toList = before ++ after) : (⟨bytes before⟩ : String.Pos.Raw).IsValid source := by
  rw [String.Pos.Raw.isValid_iff_exists_append]
  refine ⟨String.ofList before, String.ofList after, ?_, ?_⟩
  · apply String.toList_injective
    rw [h, String.toList_append, String.toList_ofList, String.toList_ofList]
  · rw [bytes_eq_utf8ByteSize]
    rfl

/-- **A byte range that holds characters lies between two character boundaries.** -/
theorem Holds.isValid {source : String} {span : Span} {piece : List Char}
    (h : Holds source.toList span piece) : (⟨span.start⟩ : String.Pos.Raw).IsValid source ∧
      (⟨span.stop⟩ : String.Pos.Raw).IsValid source := by
  obtain ⟨before, after, htext, rfl⟩ := h
  constructor
  · exact isValid_of_append htext
  · rw [← List.append_assoc] at htext
    rw [← bytes_append]
    exact isValid_of_append htext

/-! ## What tiling says about the byte ranges -/

/-- The gaps in front of byte ranges, the first of which follows an offset. -/
def gapsFrom (offset : Nat) : List Span → List Span
  | [] => []
  | span :: spans => ⟨offset, span.start⟩ :: gapsFrom span.stop spans

namespace Tiles

variable {offset : Nat} {text : List Char} {tokens : List Token}

/-- No token starts before the text. -/
theorem le_start (h : Tiles offset text tokens) : ∀ token ∈ tokens, offset ≤ token.span.start := by
  induction h with
  | finish => simp
  | token _ _ _ _ ih =>
    intro token hmem
    rcases List.mem_cons.1 hmem with rfl | hmem
    · exact Nat.le_add_right _ _
    · have hle := ih token hmem
      omega

/-- **Each token stops before the later ones start.** -/
theorem ordered (h : Tiles offset text tokens) :
    tokens.Pairwise fun earlier later => earlier.span.stop ≤ later.span.start := by
  induction h with
  | finish => exact List.pairwise_singleton _ _
  | token _ _ _ more ih => exact List.pairwise_cons.2 ⟨more.le_start, ih⟩

/-- **Every token but the end holds a character of the text**, and the end holds none. -/
theorem holds (h : Tiles offset text tokens) (before : List Char) (hoffset : offset = bytes before) :
    ∀ token ∈ tokens, ∃ piece, Holds (before ++ text) token.span piece ∧
      (piece = [] ↔ token.kind = .finish) := by
  induction h generalizing before with
  | @finish offset gap _ =>
    intro token hmem
    obtain rfl := List.mem_singleton.1 hmem
    refine ⟨[], ⟨before ++ gap, [], by simp, ?_⟩, by simp⟩
    simp [hoffset]
  | @token offset gap lexeme rest kind tokens _ nonempty notEnd _ ih =>
    intro token hmem
    rcases List.mem_cons.1 hmem with rfl | hmem
    · refine ⟨lexeme, ⟨before ++ gap, rest, by simp, ?_⟩, by simp [nonempty, notEnd]⟩
      simp [hoffset]
    · have hnext := ih (before ++ (gap ++ lexeme)) (by simp [hoffset]; omega) token hmem
      simpa using hnext

/-- **Every gap is blank.** -/
theorem blank (h : Tiles offset text tokens) (before : List Char) (hoffset : offset = bytes before) :
    ∀ gap ∈ gapsFrom offset (tokens.map Token.span),
      ∃ piece, Holds (before ++ text) gap piece ∧ ∀ c ∈ piece, isBlank c = true := by
  induction h generalizing before with
  | @finish offset blanks hblank =>
    intro gap hmem
    obtain rfl := List.mem_singleton.1 hmem
    exact ⟨blanks, ⟨before, [], by simp, by simp [hoffset]⟩, hblank⟩
  | @token offset blanks lexeme rest kind tokens hblank _ _ _ ih =>
    intro gap hmem
    rcases List.mem_cons.1 hmem with rfl | hmem
    · exact ⟨blanks, ⟨before, lexeme ++ rest, rfl, by simp [hoffset]⟩, hblank⟩
    · have hnext := ih (before ++ (blanks ++ lexeme)) (by simp [hoffset]; omega) gap hmem
      simpa using hnext

/-- **The last token is the end**, and it is the only one. -/
theorem exists_last (h : Tiles offset text tokens) :
    ∃ words, (∀ word ∈ words, word.kind ≠ .finish) ∧
      tokens = words ++ [⟨.finish, ⟨offset + bytes text, offset + bytes text⟩⟩] := by
  induction h with
  | finish => exact ⟨[], by simp, rfl⟩
  | @token offset gap lexeme rest kind tokens _ _ notEnd _ ih =>
    obtain ⟨words, hwords, htokens⟩ := ih
    refine ⟨⟨kind, ⟨offset + bytes gap, offset + bytes gap + bytes lexeme⟩⟩ :: words,
      List.forall_mem_cons.2 ⟨notEnd, hwords⟩, ?_⟩
    rw [htokens]
    simp only [bytes_append, Nat.add_assoc, List.cons_append]

/-- **No two tokens have the same place.** -/
theorem nodup_span (h : Tiles offset text tokens) : (tokens.map Token.span).Nodup := by
  induction h with
  | finish => exact List.nodup_singleton _
  | @token offset gap lexeme rest kind tokens _ nonempty _ more ih =>
    rw [List.map_cons, List.nodup_cons]
    refine ⟨?_, ih⟩
    intro hmem
    obtain ⟨later, hlater, hspan⟩ := List.mem_map.1 hmem
    -- the later token starts where this one has stopped, behind a character
    have hle := more.le_start later hlater
    have hpos := bytes_pos nonempty
    rw [hspan] at hle
    simp only at hle
    omega

end Tiles

/-! ## One call at a time -/

/-- Where a lexer stands: the size of what it has read, and what is ahead of it. -/
structure Cursor where
  offset : Nat
  ahead : List Char

namespace Cursor

/-- In front of a whole source. -/
def start (source : String) : Cursor :=
  ⟨0, source.toList⟩

/-- The next token, and where the lexer stands behind it. -/
def next (cursor : Cursor) : Token × Cursor :=
  let start := cursor.offset + bytes (cursor.ahead.takeWhile isBlank)
  match cursor.ahead.dropWhile isBlank with
  | [] => (⟨.finish, ⟨start, start⟩⟩, ⟨start, []⟩)
  | c :: cs =>
    let reading := read c cs
    let stop := start + bytes reading.lexeme
    (⟨reading.kind, ⟨start, stop⟩⟩, ⟨stop, reading.rest⟩)

/-- The tokens of so many calls. -/
def tokens (cursor : Cursor) : Nat → List Token
  | 0 => []
  | count + 1 => cursor.next.1 :: cursor.next.2.tokens count

/-- **Behind the end of the source there is its end again.** -/
theorem tokens_nil (offset count : Nat) :
    (Cursor.mk offset []).tokens count = List.replicate count ⟨.finish, ⟨offset, offset⟩⟩ := by
  induction count with
  | zero => rfl
  | succ count ih =>
    rw [tokens, List.replicate_succ, ← ih]
    rfl

/-- **The tokens of a text are those of as many calls**, and every further call gives the end. -/
theorem tokens_eq_of_tokensFrom {words : List Token} {last : Token} {offset : Nat} {text : List Char}
    (h : tokensFrom offset text = words ++ [last]) (hwords : ∀ word ∈ words, word.kind ≠ .finish)
    (count : Nat) :
    (Cursor.mk offset text).tokens (words.length + count) = words ++ List.replicate count last := by
  induction words generalizing offset text with
  | nil =>
    cases htext : text.dropWhile isBlank with
    | nil =>
      rw [tokensFrom_of_nil htext, List.nil_append] at h
      obtain ⟨rfl, -⟩ := List.cons.inj h
      rw [List.length_nil, Nat.zero_add, List.nil_append]
      cases count with
      | zero => rfl
      | succ count =>
        rw [tokens, next]
        simp only [htext, tokens_nil, List.replicate_succ]
    | cons c cs =>
      -- a text with a token in it has another one behind that
      rw [tokensFrom_of_cons htext offset rfl] at h
      exact absurd (List.cons.inj h).2 (tokensFrom_ne_nil _ _)
  | cons word words ih =>
    rw [List.forall_mem_cons] at hwords
    cases htext : text.dropWhile isBlank with
    | nil =>
      rw [tokensFrom_of_nil htext] at h
      obtain ⟨rfl, -⟩ := List.cons.inj h
      exact absurd rfl hwords.1
    | cons c cs =>
      rw [tokensFrom_of_cons htext offset rfl] at h
      obtain ⟨rfl, hmore⟩ := List.cons.inj h
      have hnext := ih hmore hwords.2
      rw [List.length_cons, Nat.succ_add, tokens, next]
      simp only [htext, hnext, List.cons_append]

end Cursor

/-! ## A source and its tokens -/

/-- The tokens of a source, in front of its end: ordered, disjoint byte ranges on character
boundaries, with nothing but blanks between them. -/
structure Tiling (source : String) (words : List Token) (last : Token) : Prop where
  /-- Every token in front of the end has a character of the source. -/
  nonempty : ∀ word ∈ words, word.kind ≠ .finish ∧ word.span.start < word.span.stop ∧
    ∃ piece, piece ≠ [] ∧ Holds source.toList word.span piece
  /-- The end is empty, and stands behind the last byte. -/
  atEnd : last = ⟨.finish, ⟨source.utf8ByteSize, source.utf8ByteSize⟩⟩
  /-- Each token stops before the later ones start. -/
  ordered : (words ++ [last]).Pairwise fun earlier later => earlier.span.stop ≤ later.span.start
  /-- No token starts or stops inside a character. -/
  boundary : ∀ token ∈ words ++ [last], (⟨token.span.start⟩ : String.Pos.Raw).IsValid source ∧
    (⟨token.span.stop⟩ : String.Pos.Raw).IsValid source
  /-- What stands in front of the first token, and between one and the next, is blank. -/
  blank : ∀ gap ∈ gapsFrom 0 ((words ++ [last]).map Token.span),
    ∃ piece, Holds source.toList gap piece ∧ ∀ c ∈ piece, isBlank c = true

/-- A byte range that holds a character is not empty. -/
theorem Holds.start_lt_stop {text : List Char} {span : Span} {piece : List Char}
    (h : Holds text span piece) (hne : piece ≠ []) : span.start < span.stop := by
  obtain ⟨before, after, -, rfl⟩ := h
  have hpos := bytes_pos hne
  show bytes before < bytes before + bytes piece
  omega

/-- **The tokens of every source tile it.** -/
theorem exists_tiling (source : String) :
    ∃ words last, lexAll source = words ++ [last] ∧ Tiling source words last := by
  have htiles := tiles_tokensFrom 0 source.toList
  obtain ⟨words, hwords, htokens⟩ := htiles.exists_last
  have hsize : bytes source.toList = source.utf8ByteSize := by
    rw [bytes_eq_utf8ByteSize, String.ofList_toList]
  rw [Nat.zero_add, hsize] at htokens
  have hholds := htiles.holds [] rfl
  have hblank := htiles.blank [] rfl
  have hordered := htiles.ordered
  rw [htokens] at hholds hblank hordered
  refine ⟨words, _, htokens, ?_, rfl, hordered, ?_, hblank⟩
  · intro word hmem
    obtain ⟨piece, hpiece, hempty⟩ := hholds word (List.mem_append_left _ hmem)
    have hne : piece ≠ [] := by
      intro hnil
      exact hwords word hmem (hempty.1 hnil)
    exact ⟨hwords word hmem, hpiece.start_lt_stop hne, piece, hne, hpiece⟩
  · intro token hmem
    obtain ⟨piece, hpiece, -⟩ := hholds token hmem
    exact hpiece.isValid

/-- **The tokens that are used are those up to the end, or to the first piece that is no token.** -/
theorem exists_upToLast {words : List Token} {last : Token} (hlast : last.kind.isLast = true) :
    ∃ before token after, words ++ [last] = before ++ token :: after ∧
      upToLast (words ++ [last]) = before ++ [token] ∧ token.kind.isLast = true ∧
      ∀ earlier ∈ before, earlier.kind.isLast = false := by
  induction words with
  | nil => exact ⟨[], last, [], rfl, by simp [upToLast, hlast], hlast, by simp⟩
  | cons word words ih =>
    cases hword : word.kind.isLast with
    | true => exact ⟨[], word, words ++ [last], rfl, by simp [upToLast, hword], hword, by simp⟩
    | false =>
      obtain ⟨before, token, after, happ, hup, htoken, hbefore⟩ := ih
      refine ⟨word :: before, token, after, by rw [List.cons_append, happ, List.cons_append],
        by simp [upToLast, hword, hup], htoken, List.forall_mem_cons.2 ⟨hword, hbefore⟩⟩

/-- The tokens of a source that are used: the last is the end or a piece that is no token, and no two
have the same place. -/
theorem exists_lex (source : String) :
    ∃ words last, lex source = words ++ [last] ∧ last.kind.isLast = true ∧
      ((lex source).map Token.span).Nodup := by
  have htiles := tiles_tokensFrom 0 source.toList
  obtain ⟨words, -, htokens⟩ := htiles.exists_last
  have hnodup := htiles.nodup_span
  rw [htokens] at hnodup
  obtain ⟨before, token, after, happ, hup, htoken, -⟩ := @exists_upToLast words
    ⟨.finish, ⟨0 + bytes source.toList, 0 + bytes source.toList⟩⟩ rfl
  have hlex : lex source = before ++ [token] := by
    rw [lex, lexAll, htokens, hup]
  refine ⟨before, token, hlex, htoken, ?_⟩
  have hsplit : before ++ token :: after = (before ++ [token]) ++ after := by simp
  rw [happ, hsplit, List.map_append] at hnodup
  rw [hlex]
  exact (List.nodup_append.1 hnodup).1

/-- **Reading a source call after call ends, and takes the source apart.** So many calls give the words
of the source, which are byte ranges in their order with nothing but blanks between them; all further
calls give its end. The tokens that are used are the beginning of these, up to the first piece that is
no token or the end. -/
theorem calls_tile_source (source : String) :
    ∃ words last, Tiling source words last ∧
      (∀ count, (Cursor.start source).tokens (words.length + count) =
        words ++ List.replicate count last) ∧
      ∃ before token after, words ++ [last] = before ++ token :: after ∧
        lex source = before ++ [token] ∧ token.kind.isLast = true ∧
        ∀ earlier ∈ before, earlier.kind.isLast = false := by
  obtain ⟨words, last, htokens, htiling⟩ := exists_tiling source
  have hwords := fun word hmem => (htiling.nonempty word hmem).1
  have hlast : last.kind.isLast = true := by
    rw [htiling.atEnd]
    rfl
  refine ⟨words, last, htiling, ?_, ?_⟩
  · exact Cursor.tokens_eq_of_tokensFrom htokens hwords
  · rw [lex, htokens]
    exact exists_upToLast hlast

/-- A colon is no token, and neither is a quote that is not closed; reading goes on past both. -/
example : ((Cursor.start "a : 'b").tokens 4).map Token.span = [⟨0, 1⟩, ⟨2, 3⟩, ⟨4, 6⟩, ⟨6, 6⟩] := by
  decide +kernel

end RelationSql.Source
