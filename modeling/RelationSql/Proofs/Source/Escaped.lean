import RelationSql.Proofs.Source.Spelling

/-!
# Contents of quoted texts as they are written

Between quotes a character may be written behind a backslash; the quote and the backslash have to be. A
writing is read up to the quote behind it and gives its content (`readQuoted_of_writes`), and whatever is
read up to a quote is a writing (`exists_writes`). The shortest writing of a content has a backslash
only where it needs one (`escaped`).
-/

namespace RelationSql.Source

variable {quote : Char} {text content : List Char}

/-- Between these quotes the character can be written only behind a backslash. -/
def NeedsEscape (quote c : Char) : Prop :=
  c = quote ∨ c = '\\'

instance (quote c : Char) : Decidable (NeedsEscape quote c) :=
  inferInstanceAs (Decidable (c = quote ∨ c = '\\'))

/-- A content as it is written between quotes: a backslash stands in front of every quote and of every
backslash. -/
def escaped (quote : Char) (content : List Char) : List Char :=
  content.flatMap fun c => if NeedsEscape quote c then ['\\', c] else [c]

/-- The text is a writing of the content: backslashes stand in front of its quotes and backslashes, and
perhaps in front of other characters. -/
inductive Writes (quote : Char) : List Char → List Char → Prop where
  | nil : Writes quote [] []
  | plain {c : Char} {text content : List Char} (h : ¬ NeedsEscape quote c)
      (more : Writes quote text content) : Writes quote (c :: text) (c :: content)
  | needed {c : Char} {text content : List Char} (h : NeedsEscape quote c)
      (more : Writes quote text content) : Writes quote ('\\' :: c :: text) (c :: content)
  /-- A backslash in front of a character that could do without. -/
  | needless {c : Char} {text content : List Char} (h : ¬ NeedsEscape quote c)
      (more : Writes quote text content) : Writes quote ('\\' :: c :: text) (c :: content)

/-- Any character may stand behind a backslash. -/
theorem Writes.behind (c : Char) (h : Writes quote text content) :
    Writes quote ('\\' :: c :: text) (c :: content) := by
  by_cases hc : NeedsEscape quote c
  · exact .needed hc h
  · exact .needless hc h

/-- **Every content can be written.** -/
theorem writes_escaped (quote : Char) (content : List Char) :
    Writes quote (escaped quote content) content := by
  induction content with
  | nil => exact .nil
  | cons c content ih =>
    rw [escaped, List.flatMap_cons]
    by_cases hc : NeedsEscape quote c
    · rw [if_pos hc]
      exact .needed hc ih
    · rw [if_neg hc]
      exact .plain hc ih

/-- **A writing is read as its content**, up to the quote behind it and no further. -/
theorem readQuoted_of_writes (hquote : quote ≠ '\\') (h : Writes quote text content) (rest : List Char) :
    readQuoted quote (text ++ quote :: rest) = some ⟨content, text ++ [quote], rest⟩ := by
  induction h with
  | nil => rw [List.nil_append, readQuoted_cons hquote, if_pos rfl, List.nil_append]
  | plain h _ ih =>
    obtain ⟨hc, hslash⟩ := not_or.1 h
    rw [List.cons_append, readQuoted_cons hslash, if_neg hc, ih]
    rfl
  | needed _ _ ih =>
    rw [List.cons_append, List.cons_append, readQuoted, ih]
    rfl
  | needless _ _ ih =>
    rw [List.cons_append, List.cons_append, readQuoted, ih]
    rfl

/-- **What is read up to a quote is a writing** of what it is read as. -/
theorem exists_writes {cs : List Char} {quoted : QuotedText} (h : readQuoted quote cs = some quoted) :
    ∃ text, quoted.lexeme = text ++ [quote] ∧ Writes quote text quoted.content := by
  fun_induction readQuoted quote cs generalizing quoted with
  | case1 => cases h
  | case2 => cases h
  | case3 c cs ih =>
    obtain ⟨tail, ht, rfl⟩ := Option.map_eq_some_iff.1 h
    obtain ⟨text, hlexeme, htext⟩ := ih ht
    exact ⟨'\\' :: c :: text, congrArg (['\\', c] ++ ·) hlexeme, htext.behind c⟩
  | case4 cs => cases h; exact ⟨[], rfl, .nil⟩
  | case5 c cs hnil hcons hc ih =>
    obtain ⟨tail, ht, rfl⟩ := Option.map_eq_some_iff.1 h
    obtain ⟨text, hlexeme, htext⟩ := ih ht
    have hslash : c ≠ '\\' := by
      rintro rfl
      cases cs with
      | nil => exact hnil rfl rfl
      | cons d ds => exact hcons d ds rfl rfl
    exact ⟨c :: text, congrArg ([c] ++ ·) hlexeme, htext.plain (not_or.2 ⟨hc, hslash⟩)⟩

end RelationSql.Source
