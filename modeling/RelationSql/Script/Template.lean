import RelationSql.Text.Scan

/-!
# Templates

A template is a text with names in braces. A name that is known is replaced by its text; an opening
brace that starts no known name stays as it is. Inserted texts are not looked at again.
-/

namespace RelationSql.Script

open RelationSql.Text

/-- The opening brace of a name. -/
def openBrace : Char := '\x7b'

/-- The closing brace of a name. -/
def closeBrace : Char := '\x7d'

/-- The name at the front of a text after its opening brace, and what follows the closing one. -/
def readName? (text : List Char) : Option (List Char × List Char) :=
  splitOnce? [closeBrace] text

/-- What follows a name is shorter than the text. -/
theorem length_readName?_lt {text name rest : List Char}
    (h : readName? text = some (name, rest)) : rest.length < text.length := by
  have happ := congrArg List.length (splitOnce?_append h)
  simp only [List.length_append, List.length_cons, List.length_nil] at happ
  omega

/-- Replaces the names that are known. -/
def expandChars (known : String → Option String) : List Char → List Char
  | [] => []
  | c :: cs =>
    if c = openBrace then
      match _h : readName? cs with
      | none => c :: expandChars known cs
      | some (name, rest) =>
        match known (String.ofList name) with
        | some text => text.toList ++ expandChars known rest
        | none => c :: expandChars known cs
    else c :: expandChars known cs
termination_by text => text.length
decreasing_by
  all_goals simp only [List.length_cons]
  · omega
  · have := length_readName?_lt _h
    omega
  · omega
  · omega

/-- Replaces the names that are known. -/
def expand (known : String → Option String) (template : String) : String :=
  String.ofList (expandChars known template.toList)

/-- A name in braces. -/
def slot (name : String) : String :=
  String.singleton openBrace ++ name ++ String.singleton closeBrace

end RelationSql.Script
