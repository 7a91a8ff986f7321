import Mathlib.Tactic.Common
import RelationSql.Fragment.Literal

/-!
# What restoring changes

`restore` shortens a text by one character for each escape in it, so it keeps a text exactly if no
escape stands in it (`restore_eq_self_iff`). A text without the escape character is kept, whatever
follows it.
-/

namespace RelationSql.Fragment

/-- Does an escape stand in the text, the escape character with a `0` or a `1` behind it? -/
def HoldsEscape (text : List Char) : Prop :=
  ['\x01', '0'] <:+: text ∨ ['\x01', '1'] <:+: text

instance (text : List Char) : Decidable (HoldsEscape text) :=
  inferInstanceAs (Decidable (_ ∨ _))

/-- Restoring never lengthens a text. -/
theorem length_restore_le (text : List Char) : (restore text).length ≤ text.length := by
  fun_induction restore text <;> simp only [List.length_cons, List.length_nil] at * <;> omega

/-- An escape in front is shortened, so such a text is not kept. -/
theorem restore_escape_ne {c d : Char} {cs : List Char} :
    c :: restore cs ≠ escape :: d :: cs := by
  intro h
  have hlength := congrArg List.length h
  have hle := length_restore_le cs
  simp only [List.length_cons] at hlength
  omega

/-- An escape stands behind a character only if it stands in the text behind it or starts with it. -/
theorem holdsEscape_cons (c : Char) (cs : List Char) :
    HoldsEscape (c :: cs) ↔
      (c = escape ∧ (cs.head? = some '0' ∨ cs.head? = some '1')) ∨ HoldsEscape cs := by
  have hfront (d : Char) : ['\x01', d] <+: c :: cs ↔ c = escape ∧ cs.head? = some d := by
    cases cs with
    | nil => simp [List.cons_prefix_cons, escape]
    | cons e es =>
      simp only [List.cons_prefix_cons, List.nil_prefix, and_true, List.head?_cons,
        Option.some.injEq, escape]
      constructor
      · rintro ⟨rfl, rfl⟩
        exact ⟨rfl, rfl⟩
      · rintro ⟨rfl, rfl⟩
        exact ⟨rfl, rfl⟩
  unfold HoldsEscape
  rw [List.infix_cons_iff, List.infix_cons_iff, hfront, hfront]
  tauto

/-- **A text is kept exactly if no escape stands in it.** -/
theorem restore_eq_self_iff (text : List Char) : restore text = text ↔ ¬ HoldsEscape text := by
  fun_induction restore text with
  | case1 => exact iff_of_true rfl (by decide)
  | case2 c =>
    refine iff_of_true rfl ?_
    rw [holdsEscape_cons]
    rintro (⟨-, h | h⟩ | h)
    · cases h
    · cases h
    · exact absurd h (by decide)
  | case3 cs ih =>
    refine iff_of_false restore_escape_ne (not_not.2 ?_)
    exact (holdsEscape_cons _ _).2 (.inl ⟨rfl, .inl rfl⟩)
  | case4 cs _ ih =>
    refine iff_of_false restore_escape_ne (not_not.2 ?_)
    exact (holdsEscape_cons _ _).2 (.inl ⟨rfl, .inr rfl⟩)
  | case5 d cs hzero hone ih =>
    rw [holdsEscape_cons, List.cons.injEq, ih]
    simp [hzero, hone]
  | case6 c d cs hc ih =>
    rw [holdsEscape_cons, List.cons.injEq, ih]
    simp [hc]

/-- An escape shortens the text. -/
theorem length_restore_eq_iff (text : List Char) :
    (restore text).length = text.length ↔ ¬ HoldsEscape text := by
  rw [← restore_eq_self_iff]
  refine ⟨?_, congrArg List.length⟩
  fun_induction restore text with
  | case1 => exact fun _ => rfl
  | case2 c => exact fun _ => rfl
  | case3 cs ih =>
    intro h
    have hle := length_restore_le cs
    simp only [List.length_cons] at h
    omega
  | case4 cs _ ih =>
    intro h
    have hle := length_restore_le cs
    simp only [List.length_cons] at h
    omega
  | case5 d cs hzero hone ih =>
    intro h
    rw [ih (by simpa using h)]
  | case6 c d cs hc ih =>
    intro h
    rw [ih (by simpa using h)]

/-- A text without the escape character is kept, whatever follows it. -/
theorem restore_append_of_not_mem {text : List Char} (h : escape ∉ text) (rest : List Char) :
    restore (text ++ rest) = text ++ restore rest := by
  induction text with
  | nil => rfl
  | cons c cs ih =>
    rw [List.mem_cons, not_or] at h
    rw [List.cons_append, restore_cons (Ne.symm h.1), ih h.2, List.cons_append]

/-- A character in front of one that ends no escape is kept. -/
theorem restore_cons_cons {d : Char} (hzero : d ≠ '0') (hone : d ≠ '1') (c : Char)
    (cs : List Char) : restore (c :: d :: cs) = c :: restore (d :: cs) := by
  by_cases hc : c = escape
  · rw [restore, if_pos hc, if_neg hzero, if_neg hone]
  · exact restore_cons hc (d :: cs)

/-- Nothing is brought back across a character that ends no escape. -/
theorem restore_append_cons {c : Char} (hzero : c ≠ '0') (hone : c ≠ '1') (text rest : List Char) :
    restore (text ++ c :: rest) = restore text ++ restore (c :: rest) := by
  fun_induction restore text with
  | case1 => rfl
  | case2 d => exact restore_cons_cons hzero hone d rest
  | case3 cs ih => simp [restore, ih]
  | case4 cs _ ih => simp [restore, ih]
  | case5 d cs hd0 hd1 ih =>
    rw [List.cons_append, List.cons_append, restore_cons_cons hd0 hd1, List.cons_append, ← ih]
    rfl
  | case6 d e cs hd ih =>
    rw [List.cons_append, restore_cons hd, ih, List.cons_append]

/-- **A text without the escape character is kept.** -/
theorem restore_of_not_mem {text : List Char} (h : escape ∉ text) : restore text = text := by
  simpa [restore] using restore_append_of_not_mem h []

end RelationSql.Fragment
