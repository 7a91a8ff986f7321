/-!
# Texts in ascending order

`ascending` puts a list of texts into the order of their characters. It lists each text as often as
it occurs (`perm_ascending`), and what it lists does not depend on the order it was given
(`ascending_eq_of_perm`).
-/

namespace RelationSql.Text

/-- Puts a text in front of the first one that is not less. -/
def insertAscending (text : String) : List String → List String
  | [] => [text]
  | first :: more =>
    if first < text then first :: insertAscending text more else text :: first :: more

/-- The texts in ascending order. -/
def ascending : List String → List String
  | [] => []
  | text :: texts => insertAscending text (ascending texts)

/-- An inserted text is added to the others. -/
theorem perm_insertAscending (text : String) (texts : List String) :
    (insertAscending text texts).Perm (text :: texts) := by
  induction texts with
  | nil => exact List.Perm.refl _
  | cons first more ih =>
    rw [insertAscending]
    split
    · exact (ih.cons first).trans (List.Perm.swap text first more)
    · exact List.Perm.refl _

/-- **No text is lost, added or repeated.** -/
theorem perm_ascending (texts : List String) : (ascending texts).Perm texts := by
  induction texts with
  | nil => exact List.Perm.refl _
  | cons text texts ih => exact (perm_insertAscending text _).trans (ih.cons text)

/-- What is less than a text is not above it. -/
theorem not_lt_of_lt {x y : String} (h : x < y) : ¬ y < x := fun k =>
  String.lt_irrefl x (String.lt_trans h k)

/-- What is not above a text is below everything above that text. -/
theorem lt_of_not_lt_of_lt {x y z : String} (h : ¬ y < x) (k : y < z) : x < z := by
  by_cases hxy : x < y
  · exact String.lt_trans hxy k
  · exact String.le_antisymm hxy h ▸ k

/-- Two insertions may change places. -/
theorem insertAscending_comm (a b : String) (texts : List String) :
    insertAscending a (insertAscending b texts) = insertAscending b (insertAscending a texts) := by
  induction texts with
  | nil =>
    by_cases hab : a < b
    · simp [insertAscending, hab, not_lt_of_lt hab]
    · by_cases hba : b < a
      · simp [insertAscending, hba, not_lt_of_lt hba]
      · rw [String.le_antisymm hba hab]
  | cons first more ih =>
    by_cases ha : first < a
    · by_cases hb : first < b
      · simp [insertAscending, ha, hb, ih]
      · simp [insertAscending, ha, hb, lt_of_not_lt_of_lt hb ha]
    · by_cases hb : first < b
      · simp [insertAscending, ha, hb, lt_of_not_lt_of_lt ha hb]
      · by_cases hab : a < b
        · simp [insertAscending, ha, hb, hab, not_lt_of_lt hab]
        · by_cases hba : b < a
          · simp [insertAscending, ha, hb, hba, not_lt_of_lt hba]
          · rw [String.le_antisymm hba hab]

/-- **The order of the given texts does not matter.** -/
theorem ascending_eq_of_perm {texts others : List String} (h : texts.Perm others) :
    ascending texts = ascending others := by
  induction h with
  | nil => rfl
  | cons text _ ih => rw [ascending, ascending, ih]
  | swap a b texts => exact insertAscending_comm b a (ascending texts)
  | trans _ _ ih₁ ih₂ => exact ih₁.trans ih₂

end RelationSql.Text
