/-!
# Cutting and replacing on lists of characters

The operations on plain text that the modules share. Each is a structural recursion, so what it
does to a text can be proved by following the text.
-/

namespace RelationSql.Text

/-- What follows `front` in a text that starts with it. -/
def after? : (front text : List Char) → Option (List Char)
  | [], text => some text
  | _ :: _, [] => none
  | a :: front, b :: text => if a = b then after? front text else none

/-- **A text starts with `front` exactly if it is `front` and what `after?` yields.** -/
theorem after?_eq_some_iff {front text rest : List Char} :
    after? front text = some rest ↔ text = front ++ rest := by
  induction front generalizing text with
  | nil => simp [after?]
  | cons a front ih =>
    cases text with
    | nil => simp [after?]
    | cons b text =>
      by_cases h : a = b
      · simp [after?, h, ih]
      · simp [after?, h, Ne.symm h]

/-- What precedes and what follows the first occurrence of `mark`. -/
def splitOnce? (mark : List Char) : List Char → Option (List Char × List Char)
  | [] => if mark.isEmpty then some ([], []) else none
  | c :: cs =>
    match after? mark (c :: cs) with
    | some rest => some ([], rest)
    | none => (splitOnce? mark cs).map fun parts => (c :: parts.1, parts.2)

/-- **The two parts and the mark between them are the text.** -/
theorem splitOnce?_append {mark text : List Char} {parts : List Char × List Char}
    (h : splitOnce? mark text = some parts) : text = parts.1 ++ mark ++ parts.2 := by
  induction text generalizing parts with
  | nil =>
    rw [splitOnce?] at h
    split at h
    · next hm =>
      cases h
      simp [List.isEmpty_iff.1 hm]
    · cases h
  | cons c cs ih =>
    rw [splitOnce?] at h
    split at h
    · next rest hr =>
      cases h
      simpa using after?_eq_some_iff.1 hr
    · obtain ⟨tail, ht, rfl⟩ := Option.map_eq_some_iff.1 h
      simpa using ih ht

/-- The pieces of a text between the occurrences of one character. -/
def splitAt (mark : Char) : List Char → List (List Char)
  | [] => [[]]
  | c :: cs =>
    if c = mark then [] :: splitAt mark cs
    else
      match splitAt mark cs with
      | [] => [[c]]
      | piece :: pieces => (c :: piece) :: pieces

/-- What precedes and what follows the last occurrence of one character. -/
def splitLast? (mark : Char) : List Char → Option (List Char × List Char)
  | [] => none
  | c :: cs =>
    match splitLast? mark cs with
    | some parts => some (c :: parts.1, parts.2)
    | none => if c = mark then some ([], cs) else none

/-- Replaces the occurrences of `mark` from left to right; `skip` characters of the current one
are still to be passed over. -/
def replaceFrom (mark new : List Char) : (skip : Nat) → List Char → List Char
  | _, [] => []
  | skip + 1, _ :: cs => replaceFrom mark new skip cs
  | 0, c :: cs =>
    match after? mark (c :: cs) with
    | some _ => new ++ replaceFrom mark new (mark.length - 1) cs
    | none => c :: replaceFrom mark new 0 cs

/-- Replaces every occurrence of `mark`, which is not empty, by `new`. -/
def replaceAll (mark new text : String) : String :=
  String.ofList (replaceFrom mark.toList new.toList 0 text.toList)

/-- Drops the characters of a class at both ends. -/
def trimBy (blank : Char → Bool) (text : List Char) : List Char :=
  ((text.dropWhile blank).reverse.dropWhile blank).reverse

/-- The texts with a separator between neighbours. -/
def joinWith (separator : String) : List String → String
  | [] => ""
  | [text] => text
  | text :: more => text ++ separator ++ joinWith separator more

/-- The text with the ASCII capitals in lower case. -/
def lower (text : String) : String :=
  String.ofList (text.toList.map Char.toLower)

/-- The text with the small ASCII letters in upper case. -/
def upper (text : String) : String :=
  String.ofList (text.toList.map Char.toUpper)

end RelationSql.Text
