/-!
# Quoted atoms

The written form of an atom in the tree notation. Quotes, backslashes and the four named control
characters are escaped by a backslash; a character that is not shown as it is stands as its code
point in hexadecimal digits between braces. Which characters are shown as they are is a parameter.
-/

namespace RelationSql.Text

/-- The digits of a number in base sixteen. -/
def hexDigits (n : Nat) : List Char :=
  Nat.toDigits 16 n

/-- How one character is written inside quotes, where `visible` characters are shown as they are. -/
def escapeChar (visible : Char → Bool) (c : Char) : List Char :=
  if c = '"' then ['\\', '"']
  else if c = '\\' then ['\\', '\\']
  else if c = '\t' then ['\\', 't']
  else if c = '\r' then ['\\', 'r']
  else if c = '\n' then ['\\', 'n']
  else if c = '\x00' then ['\\', '0']
  else if visible c then [c]
  else ['\\', 'u', '\x7b'] ++ hexDigits c.toNat ++ ['\x7d']

/-- The written form of an atom, where `visible` characters are shown as they are. -/
def quoteAtom (visible : Char → Bool) (text : List Char) : List Char :=
  '"' :: text.flatMap (escapeChar visible) ++ ['"']

end RelationSql.Text
