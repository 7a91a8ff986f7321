import RelationSql.Source.Token
import RelationSql.Text.Blank
import RelationSql.Text.Word

/-!
# Reading tokens

`read` takes one token off the front of a text that does not start with white space. Its result
carries the characters it used up and the characters it left, which together are the text
(`read_append`), and it always uses up at least one (`read_ne_nil`). `lexAll` repeats it to the end
of the source, past the pieces that are no tokens; `lex` stops at the first of those.
-/

namespace RelationSql.Source

open RelationSql.Text

/-- One token read off the front of a text. -/
structure Reading where
  kind : TokenKind
  /-- The characters of the token. -/
  lexeme : List Char
  /-- The characters after it. -/
  rest : List Char

/-! ## Symbols -/

/-- The first symbol of a table that the text starts with. -/
def readSymbol? (text : List Char) : List (String × Symbol) → Option Reading
  | [] => none
  | (spelling, symbol) :: table =>
    match after? spelling.toList text with
    | some rest => some ⟨.symbol symbol, spelling.toList, rest⟩
    | none => readSymbol? text table

/-! ## Quoted texts -/

/-- A quoted text read up to its closing quote. -/
structure QuotedText where
  /-- What stands between the quotes, escapes resolved. -/
  content : List Char
  /-- The characters read, the closing quote included. -/
  lexeme : List Char
  rest : List Char

/-- Puts one character of content, written as `written`, in front. -/
def QuotedText.cons (c : Char) (written : List Char) (quoted : QuotedText) : QuotedText :=
  ⟨c :: quoted.content, written ++ quoted.lexeme, quoted.rest⟩

/-- Reads up to the closing quote. A backslash stands for the character after it. -/
def readQuoted (quote : Char) : List Char → Option QuotedText
  | [] => none
  | '\\' :: [] => none
  | '\\' :: c :: cs => (readQuoted quote cs).map (QuotedText.cons c ['\\', c])
  | c :: cs =>
    if c = quote then some ⟨[], [c], cs⟩
    else (readQuoted quote cs).map (QuotedText.cons c [c])

/-- Does the content hold the start of an interpolation? -/
def hasInterpolation (content : List Char) : Bool :=
  (splitOnce? ['#', '{'] content).isSome

/-- The token of a quoted text: only a double-quoted one can be a template. -/
def quotedKind (quote : Char) (content : List Char) : TokenKind :=
  if quote == '"' && hasInterpolation content then .template (String.ofList content)
  else .text (String.ofList content)

/-- Reads the quoted text after an opening quote. One that is not closed takes the whole rest. -/
def readText (quote : Char) (cs : List Char) : Reading :=
  match readQuoted quote cs with
  | some quoted => ⟨quotedKind quote quoted.content, quote :: quoted.lexeme, quoted.rest⟩
  | none => ⟨.invalid .unterminated, quote :: cs, []⟩

/-! ## Numbers and names -/

/-- Reads a number off a text that starts with a digit. A point belongs to it only if a digit
follows. -/
def readNumber (text : List Char) : Reading :=
  let whole := text.takeWhile Char.isDigit
  let rest := text.dropWhile Char.isDigit
  match rest with
  | '.' :: c :: cs =>
    if c.isDigit then
      let lexeme := whole ++ '.' :: (c :: cs).takeWhile Char.isDigit
      ⟨.real (String.ofList lexeme), lexeme, (c :: cs).dropWhile Char.isDigit⟩
    else ⟨.integer (String.ofList whole), whole, rest⟩
  | _ => ⟨.integer (String.ofList whole), whole, rest⟩

/-- The token of a word: a reserved word or a name. -/
def wordKind (word : String) : TokenKind :=
  match Keyword.ofSpelling? word with
  | some keyword => .keyword keyword
  | none => .name word

/-- Reads a word off a text that starts with a name character. -/
def readWord (text : List Char) : Reading :=
  let word := text.takeWhile isNameRest
  ⟨wordKind (String.ofList word), word, text.dropWhile isNameRest⟩

/-! ## One token -/

/-- Reads the token that starts with `c`. -/
def read (c : Char) (cs : List Char) : Reading :=
  match readSymbol? (c :: cs) Symbol.spellings with
  | some reading => reading
  | none =>
    if c == '\'' || c == '"' then readText c cs
    else if c.isDigit then readNumber (c :: cs)
    else if isNameStart c then readWord (c :: cs)
    else ⟨.invalid (.unexpected c), [c], cs⟩

/-- A symbol reading is a spelling of the table and what follows it. -/
theorem readSymbol?_append {text : List Char} {table : List (String × Symbol)} {reading : Reading}
    (h : readSymbol? text table = some reading) :
    reading.lexeme ++ reading.rest = text ∧
      ∃ entry ∈ table, reading.lexeme = entry.1.toList ∧ reading.kind = .symbol entry.2 := by
  induction table with
  | nil => cases h
  | cons entry table ih =>
    obtain ⟨spelling, symbol⟩ := entry
    rw [readSymbol?] at h
    split at h
    · next rest hr =>
      cases h
      exact ⟨(after?_eq_some_iff.1 hr).symm, _, List.mem_cons_self, rfl, rfl⟩
    · obtain ⟨happ, found, hmem, hfound⟩ := ih h
      exact ⟨happ, found, List.mem_cons_of_mem _ hmem, hfound⟩

/-- A closed quoted text and what follows it are the text read. -/
theorem readQuoted_append {quote : Char} {cs : List Char} {quoted : QuotedText}
    (h : readQuoted quote cs = some quoted) : quoted.lexeme ++ quoted.rest = cs := by
  fun_induction readQuoted quote cs generalizing quoted with
  | case1 => cases h
  | case2 => cases h
  | case3 c cs ih =>
    obtain ⟨tail, ht, rfl⟩ := Option.map_eq_some_iff.1 h
    simpa [QuotedText.cons] using ih ht
  | case4 cs => cases h; simp
  | case5 c cs _ _ _ ih =>
    obtain ⟨tail, ht, rfl⟩ := Option.map_eq_some_iff.1 h
    simpa [QuotedText.cons] using ih ht

/-- A reading of a quoted text takes the text apart. -/
theorem readText_append (quote : Char) (cs : List Char) :
    (readText quote cs).lexeme ++ (readText quote cs).rest = quote :: cs := by
  unfold readText
  split
  · next quoted h => simpa using readQuoted_append h
  · simp

/-- A reading of a number takes the text apart. -/
theorem readNumber_append (text : List Char) :
    (readNumber text).lexeme ++ (readNumber text).rest = text := by
  have happ := List.takeWhile_append_dropWhile (p := Char.isDigit) (l := text)
  unfold readNumber
  dsimp only
  split
  · next c cs hrest =>
    split
    · have := List.takeWhile_append_dropWhile (p := Char.isDigit) (l := c :: cs)
      rw [List.append_assoc, List.cons_append, this, ← hrest, happ]
    · exact happ
  · exact happ

/-- **A reading takes the text apart: nothing is lost or read twice.** -/
theorem read_append (c : Char) (cs : List Char) :
    (read c cs).lexeme ++ (read c cs).rest = c :: cs := by
  unfold read
  split
  · next reading h => exact (readSymbol?_append h).1
  · split
    · exact readText_append c cs
    · split
      · exact readNumber_append (c :: cs)
      · split
        · exact List.takeWhile_append_dropWhile
        · rfl

/-- **A reading uses up at least one character.** -/
theorem read_ne_nil (c : Char) (cs : List Char) : (read c cs).lexeme ≠ [] := by
  unfold read
  split
  · next reading h =>
    obtain ⟨_, entry, hmem, hlex, _⟩ := readSymbol?_append h
    rw [hlex]
    revert hmem
    generalize entry = e
    revert e
    decide
  · split
    · unfold readText
      split <;> simp
    · split
      · next hd =>
        unfold readNumber
        dsimp only
        split
        · split <;> simp [hd]
        · simp [hd]
      · split
        · next hn => simp [readWord, isNameRest_of_isNameStart c hn]
        · simp

/-- What a reading leaves is shorter than the text. -/
theorem length_rest_read_lt (c : Char) (cs : List Char) :
    (read c cs).rest.length < (c :: cs).length := by
  have happ := congrArg List.length (read_append c cs)
  have hpos := List.length_pos_iff.2 (read_ne_nil c cs)
  rw [List.length_append] at happ
  omega

/-! ## The whole source -/

/-- The tokens of a text that starts at a byte offset, past the pieces that are no tokens. -/
def tokensFrom (offset : Nat) (text : List Char) : List Token :=
  let start := offset + bytes (text.takeWhile isBlank)
  match _h : text.dropWhile isBlank with
  | [] => [⟨.finish, ⟨start, start⟩⟩]
  | c :: cs =>
    let reading := read c cs
    let stop := start + bytes reading.lexeme
    ⟨reading.kind, ⟨start, stop⟩⟩ :: tokensFrom stop reading.rest
termination_by text.length
decreasing_by
  have hread := length_rest_read_lt c cs
  have hdrop := (List.dropWhile_sublist isBlank (l := text)).length_le
  rw [_h] at hdrop
  omega

/-- All tokens of a source up to its end. -/
def lexAll (source : String) : List Token :=
  tokensFrom 0 source.toList

/-- The tokens up to and including the first that is the last one to be used. -/
def upToLast : List Token → List Token
  | [] => []
  | token :: tokens => if token.kind.isLast then [token] else token :: upToLast tokens

/-- The tokens of a source up to its end or its first piece that is no token. -/
def lex (source : String) : List Token :=
  upToLast (lexAll source)

end RelationSql.Source
