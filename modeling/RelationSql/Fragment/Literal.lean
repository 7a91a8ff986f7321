/-!
# Protected literals

A quoted literal inside a fragment may hold brackets that must not be read as a bind marker. Its
opening brackets are hidden behind an escape character while the query is built (`protect`) and
brought back when the statement is rendered (`restore`). The escape character itself is escaped, so
`restore` undoes `protect` (`restore_protect`).
-/

namespace RelationSql.Fragment

/-- The character that starts an escape. -/
def escape : Char := '\x01'

/-- Hides the opening brackets of a literal. -/
def protect : List Char → List Char
  | [] => []
  | c :: cs =>
    if c = escape then escape :: '0' :: protect cs
    else if c = '[' then escape :: '1' :: protect cs
    else c :: protect cs

/-- Brings back what was hidden. An escape character that starts no escape stays as it is. -/
def restore : List Char → List Char
  | [] => []
  | [c] => [c]
  | c :: d :: cs =>
    if c = escape then
      if d = '0' then escape :: restore cs
      else if d = '1' then '[' :: restore cs
      else c :: restore (d :: cs)
    else c :: restore (d :: cs)

/-- A character that starts no escape is kept. -/
theorem restore_cons {c : Char} (h : c ≠ escape) (cs : List Char) :
    restore (c :: cs) = c :: restore cs := by
  cases cs with
  | nil => rfl
  | cons d cs => simp [restore, h]

/-- **What was hidden comes back, whatever follows it.** -/
theorem restore_protect_append (cs rest : List Char) :
    restore (protect cs ++ rest) = cs ++ restore rest := by
  induction cs with
  | nil => rfl
  | cons c cs ih =>
    by_cases hc : c = escape
    · simp [protect, restore, hc, ih]
    · by_cases hb : c = '['
      · subst hb
        simp [protect, restore, hc, ih]
      · simp [protect, hc, hb, restore_cons hc, ih]

/-- **A protected literal comes back unchanged.** -/
theorem restore_protect (cs : List Char) : restore (protect cs) = cs := by
  simpa [restore] using restore_protect_append cs []

/-- **No opening bracket is left in a protected literal.** -/
theorem bracket_not_mem_protect (cs : List Char) : '[' ∉ protect cs := by
  induction cs with
  | nil => simp [protect]
  | cons c cs ih =>
    have hesc : '[' ≠ escape := by decide
    by_cases hc : c = escape
    · simp [protect, hc, ih, hesc]
    · by_cases hb : c = '['
      · subst hb
        simp [protect, hc, ih]
      · simp [protect, hc, hb, ih, Ne.symm hb]

/-- A fragment's literal, hidden. -/
def protectText (text : String) : String :=
  String.ofList (protect text.toList)

/-- A rendered text with the literals brought back. -/
def restoreText (text : String) : String :=
  String.ofList (restore text.toList)

end RelationSql.Fragment
