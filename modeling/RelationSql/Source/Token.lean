import RelationSql.Source.Keyword
import RelationSql.Source.Span

/-!
# Tokens

A token is a kind with its payload and the byte range it was read from. Numbers keep the digits
they were written with; quoted texts carry their content with the escapes resolved.
-/

namespace RelationSql.Source

/-- An operator sign or a piece of punctuation. -/
inductive Symbol where
  | plus | minus | star | slash | percent | caret
  | equal | notEqual | nullSafeEqual | less | lessOrEqual | greater | greaterOrEqual
  | ampersand | pipe | tilde | doubleAmpersand | doublePipe | bang
  | leftShift | rightShift | assign
  | leftParen | rightParen | comma | dot
  deriving DecidableEq, Repr, Inhabited

namespace Symbol

/-- The spellings of the symbols. No spelling comes after one of its own prefixes, so the first
entry that fits is the longest that fits. -/
def spellings : List (String × Symbol) :=
  [("<=>", nullSafeEqual), ("<=", lessOrEqual), ("<>", notEqual), ("<<", leftShift), ("<", less),
   (">=", greaterOrEqual), (">>", rightShift), (">", greater),
   ("==", equal), ("=", equal), ("!=", notEqual), ("!", bang),
   ("||", doublePipe), ("|", pipe), ("&&", doubleAmpersand), ("&", ampersand), (":=", assign),
   ("(", leftParen), (")", rightParen), (",", comma), (".", dot),
   ("+", plus), ("-", minus), ("*", star), ("/", slash), ("%", percent), ("^", caret),
   ("~", tilde)]

end Symbol

/-- Why a piece of text is no token. -/
inductive LexicalError where
  /-- No token starts with this character. -/
  | unexpected (found : Char)
  /-- A quoted text is not closed. -/
  | unterminated
  deriving DecidableEq, Repr, Inhabited

/-- The reason as it is told to the user. -/
def LexicalError.message : LexicalError → String
  | unexpected found => "Unexpected character: " ++ String.singleton found
  | unterminated => "Unterminated string literal"

/-- What a token is. -/
inductive TokenKind where
  /-- A whole number, as written. -/
  | integer (digits : String)
  /-- A number with a decimal point, as written. -/
  | real (digits : String)
  /-- The content of a quoted text. -/
  | text (content : String)
  /-- The content of a double-quoted text with an interpolation in it. -/
  | template (content : String)
  /-- The name of a relation, a scope, a field, a method or a parameter. -/
  | name (name : String)
  | keyword (keyword : Keyword)
  | symbol (symbol : Symbol)
  /-- A piece of text that is no token. -/
  | invalid (reason : LexicalError)
  /-- The end of the source. -/
  | finish
  deriving DecidableEq, Repr, Inhabited

/-- Is this the end of the source or a piece that is no token? -/
def TokenKind.isLast : TokenKind → Bool
  | invalid _ => true
  | finish => true
  | _ => false

/-- A token and where it was read. -/
structure Token where
  kind : TokenKind
  span : Span
  deriving DecidableEq, Repr, Inhabited

/-- The same token in a text that has `count` more bytes in front. -/
def Token.shift (count : Nat) (token : Token) : Token :=
  { token with span := token.span.shift count }

end RelationSql.Source
