import RelationSql.Text.Blank
import RelationSql.Text.Digit
import RelationSql.Text.Scan

/-!
# Words between blanks

Several fragments are recognised by a word that stands between runs of blanks: the `AS` of an alias,
the `BY` of a group, the direction of an order. A word is a list of character tests, one for each of
its letters, so that the same search serves words that are matched exactly and words that are
matched in any case.
-/

namespace RelationSql.Fragment

open RelationSql.Text

/-- A word by the tests of its letters. -/
abbrev Letters := List (Char → Bool)

/-- The word written exactly so. -/
def exactly (word : List Char) : Letters :=
  word.map fun letter c => c == letter

/-- Is `c` a form of the capital letter? Beside the small letter, the long s is a form of `S`. -/
def isFormOf (letter c : Char) : Bool :=
  c == letter || c == letter.toLower || (letter == 'S' && c == 'ſ')

/-- The word of capital letters in any case. -/
def anyCase (word : List Char) : Letters :=
  word.map isFormOf

/-- What follows a word at the front of a text. -/
def afterWord? : Letters → List Char → Option (List Char)
  | [], text => some text
  | _ :: _, [] => none
  | test :: word, c :: cs => if test c then afterWord? word cs else none

/-- What follows the longest run of blanks, at least one, after which the rest is `fit`. -/
def afterBlanks? (fit : List Char → Bool) : List Char → Option (List Char)
  | [] => none
  | c :: cs =>
    if isBlank c then
      match afterBlanks? fit cs with
      | some rest => some rest
      | none => if fit cs then some cs else none
    else none

/-- What follows a word that stands between runs of blanks at the front of a text. -/
def afterBlankWord? (word : Letters) (fit : List Char → Bool) (text : List Char) :
    Option (List Char) :=
  match text with
  | [] => none
  | c :: _ =>
    if isBlank c then
      (afterWord? word (text.dropWhile isBlank)).bind (afterBlanks? fit)
    else none

/-- Is the text one line with a character in it? -/
def isLine (text : List Char) : Bool :=
  !text.isEmpty && !text.contains '\n'

/-- Does the text start with a character other than a line feed? -/
def startsLine : List Char → Bool
  | [] => false
  | c :: _ => c != '\n'

/-- Cuts a text at the last word between blanks that leaves a whole line on its right and one line
on its left. -/
def cutAtWord? (word : Letters) : List Char → Option (List Char × List Char)
  | [] => none
  | c :: cs =>
    let here := (afterBlankWord? word isLine (c :: cs)).map fun rest => ([], rest)
    -- the left side would hold the line feed, so no later word is looked for
    if c = '\n' then here
    else
      match cutAtWord? word cs with
      | some (before, rest) => some (c :: before, rest)
      | none => here

end RelationSql.Fragment
