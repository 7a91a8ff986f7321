import Mathlib.Tactic.Linarith
import RelationSql.Proofs.Fragment.Taken

/-!
# Items of a list

A list is cut at its commas and its items are trimmed. The number of items tells how many commas there
are (`length_splitAt`), and the length of an item whether anything was trimmed (`trimBy_eq_self`). What adds
up over items adds up over the joined list (`measure_joinWith`).
-/

namespace RelationSql.Text

open RelationSql.Fragment

/-! ## Cutting a joined text -/

variable {mark c : Char} {text piece : List Char}

theorem splitAt_ne_nil (mark : Char) (text : List Char) : splitAt mark text ≠ [] := by
  cases text with
  | nil => exact List.cons_ne_nil _ _
  | cons c cs =>
    rw [splitAt]
    split
    · exact List.cons_ne_nil _ _
    · split <;> exact List.cons_ne_nil _ _

theorem splitAt_cons (hc : c ≠ mark) (text : List Char) :
    splitAt mark (c :: text) = (splitAt mark text).modifyHead (c :: ·) := by
  rw [splitAt, if_neg hc]
  split
  · next hnil => exact absurd hnil (splitAt_ne_nil mark text)
  · next hpieces =>
    rw [hpieces]
    rfl

/-- What does not hold the mark stays in one piece. -/
theorem splitAt_append (h : mark ∉ piece) (text : List Char) :
    splitAt mark (piece ++ text) = (splitAt mark text).modifyHead (piece ++ ·) := by
  induction piece with
  | nil =>
    change _ = (splitAt mark text).modifyHead id
    rw [List.modifyHead_id, List.nil_append]
    rfl
  | cons c piece ih =>
    rw [List.mem_cons, not_or] at h
    rw [List.cons_append, splitAt_cons (Ne.symm h.1), ih h.2, List.modifyHead_modifyHead]
    rfl

/-- Each mark makes one more piece. -/
theorem length_splitAt (mark : Char) (text : List Char) :
    (splitAt mark text).length = text.count mark + 1 := by
  induction text with
  | nil => rfl
  | cons c text ih =>
    by_cases hc : c = mark
    · rw [splitAt, if_pos hc, List.length_cons, ih, hc, List.count_cons_self]
    · rw [splitAt_cons hc, List.length_modifyHead, ih, List.count_cons_of_ne hc]

theorem notMem_of_mem_splitAt (h : piece ∈ splitAt mark text) : mark ∉ piece := by
  induction text generalizing piece with
  | nil =>
    rw [splitAt, List.mem_singleton] at h
    rw [h]
    exact List.not_mem_nil
  | cons c text ih =>
    by_cases hc : c = mark
    · rw [splitAt, if_pos hc, List.mem_cons] at h
      rcases h with rfl | h
      · exact List.not_mem_nil
      · exact ih h
    · obtain ⟨first, pieces, hpieces⟩ := List.exists_cons_of_ne_nil (splitAt_ne_nil mark text)
      rw [splitAt_cons hc, hpieces, List.modifyHead_cons, List.mem_cons] at h
      rw [hpieces] at ih
      rcases h with rfl | h
      · rw [List.mem_cons, not_or]
        exact ⟨Ne.symm hc, ih List.mem_cons_self⟩
      · exact ih (List.mem_cons_of_mem _ h)

/-! ## Adding up over a joined text -/

/-- What adds up over texts adds up over joined texts. -/
theorem measure_joinWith {μ : String → Nat} (hμ : ∀ a b, μ (a ++ b) = μ a + μ b) (separator : String)
    {texts : List String} (h : texts ≠ []) :
    μ (joinWith separator texts) + μ separator = (texts.map μ).sum + texts.length * μ separator := by
  induction texts with
  | nil => exact absurd rfl h
  | cons text texts ih =>
    cases texts with
    | nil => simp [joinWith]
    | cons next more =>
      have hmore := ih (List.cons_ne_nil next more)
      rw [List.map_cons, List.sum_cons, List.length_cons]
      show μ (text ++ separator ++ joinWith separator (next :: more)) + μ separator = _
      rw [hμ, hμ]
      linarith

/-! ## Trimming -/

variable {blank : Char → Bool} {front : List Char}

/-- Blanks in front of a text are trimmed. -/
theorem trimBy_append (h : ∀ c ∈ front, blank c = true) (text : List Char) :
    trimBy blank (front ++ text) = trimBy blank text := by
  rw [trimBy, trimBy, List.dropWhile_append_of_pos h]

theorem map_trimBy_modifyHead (h : ∀ c ∈ front, blank c = true) (pieces : List (List Char)) :
    (pieces.modifyHead (front ++ ·)).map (trimBy blank) = pieces.map (trimBy blank) := by
  cases pieces with
  | nil => rfl
  | cons piece pieces => rw [List.modifyHead_cons, List.map_cons, List.map_cons, trimBy_append h]

theorem length_trimBy_le (blank : Char → Bool) (text : List Char) :
    (trimBy blank text).length ≤ text.length := by
  have hback := (List.dropWhile_sublist blank (l := (text.dropWhile blank).reverse)).length_le
  have hfront := (List.dropWhile_sublist blank (l := text)).length_le
  rw [trimBy, List.length_reverse]
  rw [List.length_reverse] at hback
  omega

/-- Nothing is trimmed if no character is. -/
theorem trimBy_eq_self (h : (trimBy blank text).length = text.length) : trimBy blank text = text := by
  have hback := List.dropWhile_sublist blank (l := (text.dropWhile blank).reverse)
  have hfront := List.dropWhile_sublist blank (l := text)
  have hle := hback.length_le
  have hle' := hfront.length_le
  rw [trimBy, List.length_reverse] at h
  rw [List.length_reverse] at hle
  rw [trimBy, hback.eq_of_length (by rw [List.length_reverse]; omega), List.reverse_reverse,
    hfront.eq_of_length (by omega)]

end RelationSql.Text
