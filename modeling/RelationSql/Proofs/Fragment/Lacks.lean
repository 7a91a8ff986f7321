import Mathlib.Tactic.Common
import RelationSql.Fragment.Literal
import RelationSql.Query.Alias
import RelationSql.Text.Word

/-!
# Texts without some characters

A class of texts is given by the characters that its texts hold none of (`Lacks`). Such a class is closed
under all that is done to names: they are cut, joined, numbered and written in upper case. None of the
words and signs that the walk itself writes holds a reserved character, so they are in every class that
excludes nothing else.
-/

namespace RelationSql.Fragment

/-- The characters that a class of texts may exclude: those with a meaning in fragments, in literals or
in comments. -/
def reserved : List Char := ['[', ']', escape, '\n', '\'', '-', '/']

/-- A condition on the characters of a list is checked on the list, and not on all characters. -/
instance decidableForallChar (cs : List Char) (p : Char → Prop) [DecidablePred p] :
    Decidable (∀ c ∈ cs, p c) :=
  List.decidableBAll p cs

/-- The text holds none of the characters. -/
def Lacks (excluded : List Char) (text : String) : Prop :=
  ∀ c ∈ excluded, c ∉ text.toList

instance (excluded : List Char) (text : String) : Decidable (Lacks excluded text) :=
  inferInstanceAs (Decidable (∀ c ∈ excluded, c ∉ text.toList))

variable {excluded more : List Char} {text text' rest : String}

theorem Lacks.mono (h : Lacks excluded text) (hsub : more ⊆ excluded) : Lacks more text :=
  fun c hc => h c (hsub hc)

theorem Lacks.of_subset (h : Lacks excluded text) (hsub : text'.toList ⊆ text.toList) :
    Lacks excluded text' :=
  fun c hc hmem => h c hc (hsub hmem)

@[simp]
theorem lacks_append : Lacks excluded (text ++ rest) ↔ Lacks excluded text ∧ Lacks excluded rest := by
  simp only [Lacks, String.toList_append, List.mem_append, not_or]
  exact forall₂_and

theorem Lacks.append (h : Lacks excluded text) (hrest : Lacks excluded rest) :
    Lacks excluded (text ++ rest) :=
  lacks_append.2 ⟨h, hrest⟩

/-- A text of characters of a class without excluded ones. -/
theorem lacks_of_forall {p : Char → Prop} (hp : ∀ c ∈ excluded, ¬ p c) (h : ∀ c ∈ text.toList, p c) :
    Lacks excluded text :=
  fun c hc hmem => hp c hc (h c hmem)

/-- The characters of names are not reserved. -/
theorem lacks_of_nameRest (h : ∀ c ∈ text.toList, Text.isNameRest c = true) : Lacks reserved text :=
  lacks_of_forall (by decide) h

/-- The characters of numbers are not reserved. -/
theorem lacks_of_digits (h : ∀ c ∈ text.toList, c.isDigit = true ∨ c = '.') : Lacks reserved text :=
  lacks_of_forall (by decide) h

theorem lacks_joinWith {separator : String} (hseparator : Lacks excluded separator) {texts : List String}
    (h : ∀ text ∈ texts, Lacks excluded text) : Lacks excluded (Text.joinWith separator texts) := by
  fun_induction Text.joinWith separator texts with
  | case1 => exact fun c _ hmem => nomatch hmem
  | case2 text => exact h text List.mem_cons_self
  | case3 text texts _ ih =>
    rw [List.forall_mem_cons] at h
    exact (h.1.append hseparator).append (ih h.2)

theorem lacks_toString (hdigit : ∀ c ∈ excluded, c.isDigit = false) (n : Nat) :
    Lacks excluded (toString n) := by
  have hdigits : (toString n).toList = Nat.toDigits 10 n := by simp [toString, Nat.repr]
  apply lacks_of_forall (p := fun c => c.isDigit = true)
  · intro c hc
    rw [hdigit c hc]
    exact Bool.false_ne_true
  · rw [hdigits]
    exact fun c hc => Nat.isDigit_of_mem_toDigits (by decide) (by decide) hc

/-- What is changed by writing it in upper case becomes a capital. -/
theorem isUpper_toUpper {c : Char} (h : c.toUpper ≠ c) : c.toUpper.isUpper = true := by
  unfold Char.toUpper at h ⊢
  split at h
  · next hsmall =>
    rw [dif_pos hsmall]
    obtain ⟨hlow, hhigh⟩ := hsmall
    rw [UInt32.le_iff_toNat_le] at hlow hhigh
    have hlow : 97 ≤ c.val.toNat := hlow
    have hhigh : c.val.toNat ≤ 122 := hhigh
    refine decide_eq_true ⟨UInt32.le_iff_toNat_le.2 ?_, UInt32.le_iff_toNat_le.2 ?_⟩
    · show 65 ≤ (c.val + ('A'.val - 'a'.val)).toNat
      rw [UInt32.toNat_add]
      show 65 ≤ (c.val.toNat + 4294967264) % 4294967296
      omega
    · show (c.val + ('A'.val - 'a'.val)).toNat ≤ 90
      rw [UInt32.toNat_add]
      show (c.val.toNat + 4294967264) % 4294967296 ≤ 90
      omega
  · exact absurd rfl h

theorem lacks_upper (hcapital : ∀ c ∈ excluded, c.isUpper = false) (h : Lacks excluded text) :
    Lacks excluded (Text.upper text) := by
  intro c hc hmem
  rw [Text.upper, String.toList_ofList, List.mem_map] at hmem
  obtain ⟨d, hd, rfl⟩ := hmem
  by_cases hsame : d.toUpper = d
  · rw [hsame] at hc
    exact h d hc hd
  · have hupper := isUpper_toUpper hsame
    rw [hcapital _ hc] at hupper
    cases hupper

/-! ## Classes of texts -/

/-- The class excludes reserved characters only. -/
def IsClass (excluded : List Char) : Prop :=
  excluded ⊆ reserved

instance (excluded : List Char) : Decidable (IsClass excluded) :=
  inferInstanceAs (Decidable (excluded ⊆ reserved))

section Classes

variable (hclass : IsClass excluded)
include hclass

/-- A text without reserved characters is in every class. -/
theorem IsClass.word (h : Lacks reserved text) : Lacks excluded text :=
  h.mono hclass

theorem IsClass.number (n : Nat) : Lacks excluded (toString n) :=
  hclass.word (lacks_toString (by decide) n)

theorem IsClass.upper (h : Lacks excluded text) : Lacks excluded (Text.upper text) := by
  have hcapital : ∀ c ∈ reserved, c.isUpper = false := by decide
  exact lacks_upper (fun c hc => hcapital c (hclass hc)) h

/-! ### Names of tables -/

theorem lacks_numbered (h : Lacks excluded text) (n : Nat) : Lacks excluded (Query.numbered text n) := by
  refine Lacks.append (h.of_subset ?_) (hclass.number n)
  rw [String.toList_ofList]
  exact (List.take_sublist 2 _).subset

theorem lacks_newAlias (h : Lacks excluded text) (q : Query) (table : String) (avoidAlias : Bool) :
    Lacks excluded (q.newAlias text table avoidAlias) := by
  unfold Query.newAlias
  dsimp only
  split
  · exact h
  · split <;> exact lacks_numbered hclass h _

theorem lacks_write {table name : String} (htable : Lacks excluded table) (hname : Lacks excluded name) :
    Lacks excluded (TableReference.write ⟨table, name⟩) := by
  unfold TableReference.write
  dsimp only
  split
  · exact htable
  · exact (htable.append (hclass.word (by decide))).append hname

end Classes

/-- The parts of a reference are in the class of the reference. -/
theorem lacks_split (h : Lacks excluded text) :
    Lacks excluded (TableReference.split text).name ∧ Lacks excluded (TableReference.split text).table := by
  unfold TableReference.split
  split
  · next table name hsplit =>
    have happ := Text.splitOnce?_append hsplit
    have htable : table ⊆ text.toList := by
      rw [happ, List.append_assoc]
      exact List.subset_append_left _ _
    have hname : name ⊆ text.toList := by
      rw [happ]
      exact List.subset_append_right _ _
    exact ⟨h.of_subset (by simpa using hname), h.of_subset (by simpa using htable)⟩
  · exact ⟨h, h⟩

end RelationSql.Fragment
