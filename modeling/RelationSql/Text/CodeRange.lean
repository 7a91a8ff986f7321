/-!
# Sets of characters given by code point ranges

A character class of the Unicode standard is stored as a list of closed code point ranges in
ascending order. Membership is a linear search; most classes answer for ASCII before they look at
a table, so the search is only paid for the other characters. The classes are those of version 17.0
of the standard.
-/

namespace RelationSql.Text

/-- A class of characters: closed ranges of code points. -/
abbrev CodeRanges := List (Nat × Nat)

/-- Does one of the ranges hold the character? -/
def CodeRanges.contains (ranges : CodeRanges) (c : Char) : Bool :=
  ranges.any fun range => decide (range.1 ≤ c.toNat) && decide (c.toNat ≤ range.2)

/-- **Membership in a class of ranges, said with a member range.** -/
theorem CodeRanges.contains_iff (ranges : CodeRanges) (c : Char) :
    ranges.contains c = true ↔ ∃ range ∈ ranges, range.1 ≤ c.toNat ∧ c.toNat ≤ range.2 := by
  simp [CodeRanges.contains]

end RelationSql.Text
