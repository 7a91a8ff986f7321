import Mathlib.Tactic.Common
import RelationSql.Fragment.Clause

/-!
# What is read back out of a clause

The keys of an order and the fields of a group are read back from the text of their clauses. All that
is read back stands in that text, so a text without some characters yields parts without them.
-/

namespace RelationSql.Fragment

open RelationSql.Text

/-! ## Pieces of a list -/

theorem subset_of_mem_splitAt {mark : Char} {text piece : List Char}
    (h : piece ∈ splitAt mark text) : piece ⊆ text := by
  induction text generalizing piece with
  | nil =>
    rw [splitAt, List.mem_singleton] at h
    rw [h]
    exact List.Subset.refl _
  | cons c cs ih =>
    rw [splitAt] at h
    split at h
    · rcases List.mem_cons.1 h with rfl | h
      · exact List.nil_subset _
      · exact List.subset_cons_of_subset c (ih h)
    · split at h
      · rw [List.mem_singleton] at h
        simp [h]
      · next first pieces hpieces =>
        rw [hpieces] at ih
        rcases List.mem_cons.1 h with rfl | h
        · exact List.cons_subset_cons c (ih List.mem_cons_self)
        · exact List.subset_cons_of_subset c (ih (List.mem_cons_of_mem _ h))

theorem trimBy_subset (blank : Char → Bool) (text : List Char) : trimBy blank text ⊆ text := by
  intro c hc
  rw [trimBy, List.mem_reverse] at hc
  have hback := (List.dropWhile_sublist blank).subset hc
  rw [List.mem_reverse] at hback
  exact (List.dropWhile_sublist blank).subset hback

/-! ## Orders -/

theorem withoutDirection_subset (item : List Char) : withoutDirection item ⊆ item := by
  induction item with
  | nil => exact List.Subset.refl _
  | cons c cs ih =>
    rw [withoutDirection]
    split
    · exact List.nil_subset _
    · exact List.cons_subset_cons c ih

/-- **The keys of an order stand in its clause.** -/
theorem subset_of_mem_orderKeys {clause key : List Char} (h : key ∈ orderKeys clause) :
    key ⊆ clause := by
  rw [orderKeys] at h
  split at h
  · cases h
  · next before body hsplit =>
    obtain ⟨item, hitem, rfl⟩ := List.mem_map.1 h
    have hbody : body ⊆ clause := by
      rw [splitOnce?_append hsplit]
      exact List.subset_append_right _ _
    calc withoutDirection (trimBy isBlank item)
        ⊆ trimBy isBlank item := withoutDirection_subset _
      _ ⊆ item := trimBy_subset _ _
      _ ⊆ body := subset_of_mem_splitAt hitem
      _ ⊆ clause := hbody

/-! ## Groups -/

theorem afterWord?_suffix {word : Letters} {text rest : List Char}
    (h : afterWord? word text = some rest) : rest <:+ text := by
  induction word generalizing text with
  | nil =>
    cases h
    exact List.suffix_refl _
  | cons test word ih =>
    cases text with
    | nil => cases h
    | cons c cs =>
      rw [afterWord?] at h
      split at h
      · exact (ih h).trans (List.suffix_cons c cs)
      · cases h

theorem afterBlanks?_suffix {fit : List Char → Bool} {text rest : List Char}
    (h : afterBlanks? fit text = some rest) : rest <:+ text := by
  induction text generalizing rest with
  | nil => cases h
  | cons c cs ih =>
    rw [afterBlanks?] at h
    split at h
    · split at h
      · next found hfound =>
        cases h
        exact (ih hfound).trans (List.suffix_cons c cs)
      · split at h
        · cases h
          exact List.suffix_cons c _
        · cases h
    · cases h

theorem afterBlankWord?_suffix {word : Letters} {fit : List Char → Bool} {text rest : List Char}
    (h : afterBlankWord? word fit text = some rest) : rest <:+ text := by
  unfold afterBlankWord? at h
  split at h
  · cases h
  · split at h
    · obtain ⟨behind, hword, hblanks⟩ := Option.bind_eq_some_iff.1 h
      exact ((afterBlanks?_suffix hblanks).trans (afterWord?_suffix hword)).trans
        (List.dropWhile_suffix _)
    · cases h

/-- Both sides of a word stand in the text around it. -/
theorem subset_of_cutAtWord? {word : Letters} {text before rest : List Char}
    (h : cutAtWord? word text = some (before, rest)) : before ⊆ text ∧ rest ⊆ text := by
  induction text generalizing before with
  | nil => cases h
  | cons c cs ih =>
    have hhere (h : (afterBlankWord? word isLine (c :: cs)).map (fun rest => ([], rest)) =
        some (before, rest)) : before ⊆ c :: cs ∧ rest ⊆ c :: cs := by
      obtain ⟨found, hfound, heq⟩ := Option.map_eq_some_iff.1 h
      cases heq
      exact ⟨List.nil_subset _, (afterBlankWord?_suffix hfound).subset⟩
    rw [cutAtWord?] at h
    split at h
    · exact hhere h
    · split at h
      · next front behind hcut =>
        cases h
        obtain ⟨hfront, hbehind⟩ := ih hcut
        exact ⟨List.cons_subset_cons c hfront, List.subset_cons_of_subset c hbehind⟩
      · exact hhere h

/-- **The body of a group stands in its clause.** -/
theorem subset_of_groupBody? {text body : List Char} (h : groupBody? text = some body) :
    body ⊆ text := by
  induction text with
  | nil => cases h
  | cons c cs ih =>
    rw [groupBody?] at h
    split at h
    · next found hfound =>
      cases h
      obtain ⟨behind, hgroup, hby⟩ := Option.bind_eq_some_iff.1 hfound
      have hbehind : behind ⊆ c :: cs := by
        rw [after?_eq_some_iff.1 hgroup]
        exact List.subset_append_right _ _
      calc found.takeWhile (fun c => c != '\n')
          ⊆ found := (List.takeWhile_sublist _).subset
        _ ⊆ behind := (afterBlankWord?_suffix hby).subset
        _ ⊆ c :: cs := hbehind
    · exact List.subset_cons_of_subset c (ih h)

end RelationSql.Fragment
