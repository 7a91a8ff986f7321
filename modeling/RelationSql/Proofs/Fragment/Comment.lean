import Mathlib.Algebra.Group.Nat.Defs
import RelationSql.Proofs.Fragment.Template

/-!
# Comments in SQL

A comment of SQL starts at two minus signs, or at a slash and a star, outside of quotes (`opensComment`).
Texts that close their quotes and do not end in one of these characters can be put together: a comment
starts in the whole just if one starts in a piece (`opensComment_append`).
-/

namespace RelationSql.Fragment

/-! ## Scanning -/

/-- Do the first two characters start a comment? -/
def startsComment (cs : List Char) : Bool :=
  cs.take 2 == ['-', '-'] || cs.take 2 == ['/', '*']

/-- Does a comment start outside of quotes? The text itself may start within quotes. -/
def opensComment : (quoted : Bool) → List Char → Bool
  | _, [] => false
  | quoted, c :: cs => (!quoted && startsComment (c :: cs)) || opensComment (quoted != (c == '\'')) cs

/-- Does the text end within quotes? A doubled quote in a literal closes and opens it. -/
def quotedAfter (quoted : Bool) (cs : List Char) : Bool :=
  cs.foldl (fun inside c => inside != (c == '\'')) quoted

/-- No comment can start with the last character of the text and the one behind it. -/
def EndsApart (cs : List Char) : Prop :=
  ∀ c ∈ cs.getLast?, c ≠ '-' ∧ c ≠ '/'

theorem endsApart_iff {cs : List Char} :
    EndsApart cs ↔ cs.getLast? ≠ some '-' ∧ cs.getLast? ≠ some '/' := by
  unfold EndsApart
  cases cs.getLast? <;> simp

instance (cs : List Char) : Decidable (EndsApart cs) :=
  decidable_of_iff _ endsApart_iff.symm

variable {c : Char} {cs ds : List Char} {quoted : Bool}

theorem startsComment_of_ne (h : c ≠ '-' ∧ c ≠ '/') (cs : List Char) : startsComment (c :: cs) = false := by
  simp [startsComment, h]

/-- A comment starts at a minus just if another one stands behind it. -/
theorem startsComment_minus (cs : List Char) : startsComment ('-' :: cs) = (cs.head? == some '-') := by
  cases cs with
  | nil => rfl
  | cons c cs =>
    simp [startsComment]

theorem EndsApart.tail (h : EndsApart (c :: cs)) : EndsApart cs := by
  intro d hd
  refine h d ?_
  rw [List.getLast?_cons, Option.mem_some_iff, Option.mem_def.1 hd]
  rfl

theorem EndsApart.append (h : EndsApart cs) (h' : EndsApart ds) : EndsApart (cs ++ ds) := by
  intro c hc
  rw [List.getLast?_append, Option.mem_def, Option.or_eq_some_iff] at hc
  exact hc.elim (h' c) fun hfirst => h c hfirst.2

/-- The first two characters of a text with something behind it are those of the text. -/
theorem startsComment_append (h : EndsApart (c :: cs)) (ds : List Char) :
    startsComment (c :: (cs ++ ds)) = startsComment (c :: cs) := by
  cases cs with
  | nil =>
    have hc : c ≠ '-' ∧ c ≠ '/' := h c (by simp)
    rw [startsComment_of_ne hc, startsComment_of_ne hc]
  | cons d cs => simp [startsComment]

theorem quotedAfter_append (quoted : Bool) (cs ds : List Char) :
    quotedAfter quoted (cs ++ ds) = quotedAfter (quotedAfter quoted cs) ds :=
  List.foldl_append

/-- **A comment starts in a text just if it starts in one of its pieces.** -/
theorem opensComment_append (h : EndsApart cs) (quoted : Bool) (ds : List Char) :
    opensComment quoted (cs ++ ds) = (opensComment quoted cs || opensComment (quotedAfter quoted cs) ds) := by
  induction cs generalizing quoted with
  | nil => rfl
  | cons c cs ih =>
    rw [List.cons_append, opensComment, opensComment, startsComment_append h, ih h.tail, Bool.or_assoc]
    rfl

/-- A text without quotes, minus signs and slashes. -/
theorem opensComment_of_lacks (h : ∀ c ∈ cs, c ≠ '-' ∧ c ≠ '/') (quoted : Bool) :
    opensComment quoted cs = false := by
  induction cs generalizing quoted with
  | nil => rfl
  | cons c cs ih =>
    rw [List.forall_mem_cons] at h
    rw [opensComment, startsComment_of_ne h.1, ih h.2, Bool.and_false, Bool.or_false]

theorem quotedAfter_of_lacks (h : '\'' ∉ cs) (quoted : Bool) : quotedAfter quoted cs = quoted := by
  induction cs generalizing quoted with
  | nil => rfl
  | cons c cs ih =>
    rw [List.mem_cons, not_or] at h
    have hquote : (c == '\'') = false := by simpa using Ne.symm h.1
    show quotedAfter (quoted != (c == '\'')) cs = quoted
    rw [hquote, Bool.bne_false]
    exact ih h.2 quoted

/-- Within quotes, a text with every quote doubled ends where its closing quote stands. -/
theorem doubled_quoted (cs rest : List Char) :
    opensComment true (cs.flatMap (fun c => if c = '\'' then ['\'', '\''] else [c]) ++ '\'' :: rest) =
        opensComment false rest ∧
      quotedAfter true (cs.flatMap (fun c => if c = '\'' then ['\'', '\''] else [c]) ++ '\'' :: rest) =
        quotedAfter false rest := by
  induction cs with
  | nil => exact ⟨rfl, rfl⟩
  | cons c cs ih =>
    rw [List.flatMap_cons, List.append_assoc]
    by_cases hc : c = '\''
    · subst hc
      exact ih
    · have hquote : (c == '\'') = false := by simpa using hc
      simpa [hc, opensComment, quotedAfter, hquote] using ih

/-- **A literal opens no comment**, whatever its content is. -/
theorem quoted_quoteText (content : String) :
    opensComment false (Value.quoteText content).toList = false ∧
      quotedAfter false (Value.quoteText content).toList = false := by
  rw [Value.quoteText, String.toList_ofList]
  exact doubled_quoted content.toList []

end RelationSql.Fragment
