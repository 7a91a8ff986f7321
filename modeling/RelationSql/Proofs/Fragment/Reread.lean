import Mathlib.Data.List.TakeWhile
import RelationSql.Fragment.SelectItem
import RelationSql.Fragment.TableReference
import RelationSql.Proofs.Fragment.Taken
import RelationSql.Sql.Value

/-!
# Reading what was written

A table reference and an item of a select list are written with an ` AS ` between their two parts, and both
are read back. The first part may be any text on one line, with an `AS` of its own too: the reader takes the
last `AS` between blanks, and behind the one that was written there is no blank (`cutAtWord?_written`). So an
item gives back its field and its key (`selectedKey?_written`), and a reference between words is understood
alike by its three readers (`understood_write`).

The third reader takes the last word of a reference for its name. This is right exactly if the name is one
word, or blank and all of the reference (`declaredName_write_iff`).
-/

namespace RelationSql.Fragment

open RelationSql.Text

/-! ## Texts without blanks -/

/-- No character of the text is a blank. -/
def Unbroken (text : List Char) : Prop :=
  ∀ c ∈ text, isBlank c = false

/-- A text that is one word. -/
structure OneWord (name : String) : Prop where
  nonempty : name ≠ ""
  unbroken : Unbroken name.toList

/-- A text without a word in it. -/
def Blank (name : String) : Prop :=
  ∀ c ∈ name.toList, isBlank c = true

instance (text : List Char) : Decidable (Unbroken text) :=
  decidable_of_iff (text.all (fun c => !isBlank c) = true) (by simp [Unbroken])

instance (name : String) : Decidable (OneWord name) :=
  decidable_of_iff (name ≠ "" ∧ Unbroken name.toList)
    ⟨fun h => ⟨h.1, h.2⟩, fun h => ⟨h.nonempty, h.unbroken⟩⟩

variable {text front rest : List Char} {c : Char} {table name : String}

theorem unbroken_cons : Unbroken (c :: text) ↔ isBlank c = false ∧ Unbroken text :=
  List.forall_mem_cons

/-- A text without blanks is on one line. -/
theorem Unbroken.line (h : Unbroken text) : '\n' ∉ text :=
  fun hmem => absurd (h '\n' hmem) (by decide)

theorem Unbroken.not_mem (h : Unbroken text) : ' ' ∉ text :=
  fun hmem => absurd (h ' ' hmem) (by decide)

theorem OneWord.toList_ne_nil (h : OneWord name) : name.toList ≠ [] :=
  fun hnil => h.nonempty (String.toList_eq_nil_iff.1 hnil)

/-! ## The last `AS` between blanks -/

section LastWord

variable {word : Letters} {fit : List Char → Bool}

theorem afterBlanks?_of_unbroken (h : Unbroken text) : afterBlanks? fit text = none := by
  cases text with
  | nil => rfl
  | cons c cs => rw [afterBlanks?, (unbroken_cons.1 h).1, if_neg Bool.false_ne_true]

/-- Where no blank follows, no word stands between blanks. -/
theorem afterBlankWord?_eq_none (h : Unbroken rest) : afterBlankWord? word fit (c :: rest) = none := by
  unfold afterBlankWord?
  dsimp only
  split
  · next hblank =>
    have hdrop : (c :: rest).dropWhile isBlank = rest := by
      rw [List.dropWhile_cons_of_pos hblank]
      exact List.dropWhile_eq_self_iff.2 fun hpos => by simp [h _ (List.getElem_mem hpos)]
    rw [hdrop, Option.bind_eq_none_iff]
    intro behind hbehind
    exact afterBlanks?_of_unbroken fun d hd => h d ((afterWord?_suffix hbehind).subset hd)
  · rfl

/-- Letters in front bring in no word between blanks. -/
theorem cutAtWord?_unbroken_append (h : Unbroken front) (hrest : cutAtWord? word rest = none) :
    cutAtWord? word (front ++ rest) = none := by
  induction front with
  | nil => exact hrest
  | cons c front ih =>
    obtain ⟨hc, hfront⟩ := unbroken_cons.1 h
    have hnone : afterBlankWord? word isLine (c :: (front ++ rest)) = none := by
      simp [afterBlankWord?, hc]
    rw [List.cons_append, cutAtWord?, hnone, ih hfront]
    simp

theorem cutAtWord?_of_unbroken (h : Unbroken text) : cutAtWord? word text = none := by
  rw [← List.append_nil text]
  exact cutAtWord?_unbroken_append h rfl

/-- A single blank holds no word. -/
theorem cutAtWord?_blank (h : Unbroken rest) : cutAtWord? word (' ' :: rest) = none := by
  rw [cutAtWord?, afterBlankWord?_eq_none h, cutAtWord?_of_unbroken h]
  simp

/-- A line in front goes to the left side of the cut. -/
theorem cutAtWord?_append (hline : '\n' ∉ front) {before : List Char}
    (h : cutAtWord? word text = some (before, rest)) :
    cutAtWord? word (front ++ text) = some (front ++ before, rest) := by
  induction front with
  | nil => exact h
  | cons c front ih =>
    rw [List.mem_cons, not_or] at hline
    rw [List.cons_append, cutAtWord?, if_neg (Ne.symm hline.1), ih hline.2]
    rfl

/-- **A text is cut at the `AS` that was written**, whatever stands on the line in front of it, if there is no
blank behind. -/
theorem cutAtWord?_written (hword : ∀ text, afterWord? word ('A' :: 'S' :: text) = some text)
    (hfront : '\n' ∉ front) (hrest : Unbroken rest) (hne : rest ≠ []) :
    cutAtWord? word (front ++ [' ', 'A', 'S', ' '] ++ rest) = some (front, rest) := by
  have hline : isLine rest = true := by
    have hnone := hrest.line
    simp [isLine, hne, hnone]
  have hhere : afterBlankWord? word isLine (' ' :: 'A' :: 'S' :: ' ' :: rest) = some rest := by
    have hdrop : (' ' :: 'A' :: 'S' :: ' ' :: rest).dropWhile isBlank = 'A' :: 'S' :: ' ' :: rest := rfl
    have hblanks : afterBlanks? isLine (' ' :: rest) = some rest := by
      rw [afterBlanks?, if_pos (by decide), afterBlanks?_of_unbroken hrest]
      exact if_pos hline
    unfold afterBlankWord?
    dsimp only
    rw [if_pos (by decide), hdrop, hword]
    exact hblanks
  have hlater : cutAtWord? word ('A' :: 'S' :: ' ' :: rest) = none :=
    cutAtWord?_unbroken_append (by decide : Unbroken ['A', 'S']) (cutAtWord?_blank hrest)
  have hcut : cutAtWord? word (' ' :: 'A' :: 'S' :: ' ' :: rest) = some ([], rest) := by
    rw [cutAtWord?, hhere, if_neg (by decide), hlater]
    rfl
  have happend := cutAtWord?_append hfront hcut
  rw [List.append_nil] at happend
  rw [List.append_assoc]
  exact happend

end LastWord

/-! ## Items of a select list -/

/-- The characters that may stand around a key. -/
def quoteMarks : List Char := ['\'', '"', '\x60']

theorem between?_quoted (quote : Char) (key : List Char) :
    between? quote (quote :: key ++ [quote]) = some key := by
  simp [between?]

theorem between?_of_ne {quote other : Char} (h : other ≠ quote) (text : List Char) :
    between? quote (other :: text) = none :=
  if_neg h

/-- The quotes around a key are taken off. -/
theorem unquote_quoted {quote : Char} (h : quote ∈ quoteMarks) (key : List Char) :
    unquote (quote :: key ++ [quote]) = key := by
  simp only [quoteMarks, List.mem_cons, List.not_mem_nil, or_false] at h
  unfold unquote
  rcases h with rfl | rfl | rfl
  · rw [between?_quoted]
  · rw [between?_quoted, List.cons_append, between?_of_ne (by decide)]
  · rw [between?_quoted, List.cons_append, between?_of_ne (by decide), between?_of_ne (by decide)]
    rfl

/-- A key without quote characters is written between two of them as it is. -/
theorem wrapDoubled_of_not_mem {quote : Char} {key : List Char} (h : quote ∉ key) :
    Value.wrapDoubled quote key = quote :: key ++ [quote] := by
  have hsame : key.flatMap (fun c => if c = quote then [quote, quote] else [c]) = key := by
    induction key with
    | nil => rfl
    | cons c key ih =>
      rw [List.mem_cons, not_or] at h
      rw [List.flatMap_cons, if_neg (Ne.symm h.1), ih h.2]
      rfl
  rw [Value.wrapDoubled, hsame]

/-- **A written item gives back its key and its field.** The field may be any line, with an `AS` in it,
blanks around it or nothing at all. -/
theorem selectedKey?_written {quote : Char} {field key : String} (hquote : quote ∈ quoteMarks)
    (hfield : '\n' ∉ field.toList) (hkey : Unbroken key.toList) (hplain : quote ∉ key.toList) :
    selectedKey? (field ++ " AS " ++ String.ofList (Value.wrapDoubled quote key.toList)) =
      some (key, field) := by
  have hmark : isBlank quote = false :=
    (by decide : Unbroken quoteMarks) quote hquote
  have hrest : Unbroken (quote :: key.toList ++ [quote]) :=
    List.forall_mem_append.2 ⟨unbroken_cons.2 ⟨hmark, hkey⟩, by simpa [Unbroken] using hmark⟩
  have htext : (field ++ " AS " ++ String.ofList (Value.wrapDoubled quote key.toList)).toList =
      field.toList ++ [' ', 'A', 'S', ' '] ++ (quote :: key.toList ++ [quote]) := by
    rw [wrapDoubled_of_not_mem hplain, String.toList_append, String.toList_append]
    simp only [String.toList_ofList]
    rfl
  have hcut : cutAtWord? (anyCase ['A', 'S'])
      (field.toList ++ [' ', 'A', 'S', ' '] ++ (quote :: key.toList ++ [quote])) =
        some (field.toList, quote :: key.toList ++ [quote]) :=
    cutAtWord?_written (fun _ => rfl) hfield hrest (List.cons_ne_nil _ _)
  rw [selectedKey?, htext, hcut]
  dsimp only
  rw [unquote_quoted hquote, String.ofList_toList, String.ofList_toList]

/-- A star is no part of a column's name. -/
theorem columnName?_of_star (h : '*' ∈ text) : columnName? text = none := by
  have hcolumn {cs : List Char} (hmem : '*' ∈ cs) : isColumn cs = false := by
    simp [isColumn, hmem]
  have hrest : '*' ∈ text.dropWhile isWord := by
    rw [← List.takeWhile_append_dropWhile (p := isWord) (l := text), List.mem_append] at h
    exact h.resolve_left fun hfront => absurd (List.mem_takeWhile_imp hfront) (by decide)
  unfold columnName?
  dsimp only
  split
  · next column hqualified =>
    split at hqualified
    · next behind _ hdrop =>
      rw [hdrop] at hrest
      rw [hcolumn ((List.mem_cons.1 hrest).resolve_left (by decide))] at hqualified
      cases hqualified
    · cases hqualified
  · rw [hcolumn h]
    rfl

/-- All columns of a table bring in no key. -/
theorem selectedKey?_all (h : Unbroken table.toList) : selectedKey? (table ++ ".*") = none := by
  have hcut : cutAtWord? (anyCase ['A', 'S']) (table ++ ".*").toList = none := by
    rw [String.toList_append]
    exact cutAtWord?_of_unbroken (List.forall_mem_append.2 ⟨h, (by decide : Unbroken ".*".toList)⟩)
  have hstar : '*' ∈ (table ++ ".*").toList := by simp
  rw [selectedKey?, hcut, columnName?_of_star hstar]
  rfl

/-! ## The first `AS` -/

/-- A text is split at the mark that was written, if its first character does not stand before. -/
theorem splitOnce?_written {mark : List Char} (h : c ∉ front) :
    splitOnce? (c :: mark) (front ++ c :: mark ++ rest) = some (front, rest) := by
  induction front with
  | nil =>
    have hfound : after? (c :: mark) (c :: mark ++ rest) = some rest := after?_eq_some_iff.2 rfl
    rw [List.nil_append, List.cons_append, splitOnce?, ← List.cons_append, hfound]
  | cons d front ih =>
    rw [List.mem_cons, not_or] at h
    have hnone : after? (c :: mark) (d :: (front ++ c :: mark ++ rest)) = none := if_neg h.1
    rw [List.cons_append, List.cons_append, splitOnce?, hnone, ih h.2]
    rfl

theorem splitOnce?_of_not_mem {mark : List Char} (h : c ∉ text) : splitOnce? (c :: mark) text = none := by
  cases hsplit : splitOnce? (c :: mark) text with
  | none => rfl
  | some parts =>
    rw [splitOnce?_append hsplit] at h
    simp at h

/-! ## The last colon -/

theorem splitLast?_eq_none_iff {mark : Char} {text : List Char} :
    splitLast? mark text = none ↔ mark ∉ text := by
  induction text with
  | nil => simp [splitLast?]
  | cons c cs ih =>
    rw [splitLast?, List.mem_cons, not_or, ← ih]
    cases splitLast? mark cs <;> simp [eq_comm]

theorem splitLast?_append {mark : Char} {back : List Char} (h : mark ∉ back) (front : List Char) :
    splitLast? mark (front ++ mark :: back) = some (front, back) := by
  induction front with
  | nil => rw [List.nil_append, splitLast?, splitLast?_eq_none_iff.2 h, if_pos rfl]
  | cons c front ih => rw [List.cons_append, splitLast?, ih]

/-- What a text is split into are its parts in front of and behind the last occurrence. -/
theorem splitLast?_eq_some {mark : Char} {text : List Char} {parts : List Char × List Char}
    (h : splitLast? mark text = some parts) : text = parts.1 ++ mark :: parts.2 ∧ mark ∉ parts.2 := by
  induction text generalizing parts with
  | nil => cases h
  | cons c cs ih =>
    rw [splitLast?] at h
    split at h
    · next found hfound =>
      cases h
      obtain ⟨rfl, hnone⟩ := ih hfound
      exact ⟨rfl, hnone⟩
    · next hlater =>
      split at h
      · next hc =>
        cases h
        exact ⟨congrArg (· :: cs) hc, splitLast?_eq_none_iff.1 hlater⟩
      · cases h

/-! ## The last word -/

/-- The last word of a text: behind it stand only blanks, and in front of it a blank or nothing. -/
structure LastWord (word text : List Char) : Prop where
  nonempty : word ≠ []
  unbroken : Unbroken word
  place : ∃ front blanks, text = front ++ word ++ blanks ∧ (∀ c ∈ front.getLast?, isBlank c = true) ∧
    ∀ c ∈ blanks, isBlank c = true

section LastWord

variable {word : List Char}

/-- What starts with a blank, if with anything, has no letters in front. -/
theorem takeWhile_letters_eq_nil (h : ∀ c ∈ text.head?, isBlank c = true) :
    text.takeWhile (fun c => !isBlank c) = [] := by
  cases text with
  | nil => rfl
  | cons c cs => exact List.takeWhile_cons_of_neg (by simp [h c rfl])

/-- **The name that a text declares is its last word.** -/
theorem declaredName_of_lastWord (h : LastWord word name.toList) :
    declaredName name = String.ofList word := by
  obtain ⟨front, blanks, htext, hfront, hblanks⟩ := h.place
  have hword : word.reverse.dropWhile isBlank = word.reverse := by
    refine List.dropWhile_eq_self_iff.2 fun hpos => ?_
    rw [Bool.not_eq_true]
    exact h.unbroken _ (List.mem_reverse.1 (List.getElem_mem hpos))
  have hfromLast : name.toList.reverse.dropWhile isBlank = word.reverse ++ front.reverse := by
    rw [htext, List.reverse_append, List.reverse_append,
      List.dropWhile_append_of_pos fun c hc => hblanks c (List.mem_reverse.1 hc), List.dropWhile_append,
      hword, if_neg (by simpa using h.nonempty)]
  have hletters : (word.reverse ++ front.reverse).takeWhile (fun c => !isBlank c) = word.reverse := by
    rw [List.takeWhile_append_of_pos fun c hc => by simp [h.unbroken c (List.mem_reverse.1 hc)],
      takeWhile_letters_eq_nil (by simpa using hfront), List.append_nil]
  unfold declaredName
  dsimp only
  rw [hfromLast, hletters]
  split
  · next hnil => exact absurd (List.reverse_eq_nil_iff.1 hnil) h.nonempty
  · rw [List.reverse_reverse]

/-- A text that is not blank has a last word. -/
theorem exists_lastWord (h : ¬ Blank name) : ∃ word, LastWord word name.toList := by
  have hblanks := List.takeWhile_append_dropWhile (p := isBlank) (l := name.toList.reverse)
  cases hfromLast : name.toList.reverse.dropWhile isBlank with
  | nil =>
    rw [List.dropWhile_eq_nil_iff] at hfromLast
    exact absurd (fun c hc => hfromLast c (List.mem_reverse.2 hc)) h
  | cons c cs =>
    have hc : isBlank c = false := by
      have hhead := List.head?_dropWhile_not isBlank name.toList.reverse
      rw [hfromLast] at hhead
      exact hhead
    have hsplit := List.takeWhile_append_dropWhile (p := fun c => !isBlank c) (l := c :: cs)
    rw [hfromLast, ← hsplit] at hblanks
    refine ⟨((c :: cs).takeWhile fun c => !isBlank c).reverse, ?_, ?_, ?_⟩
    · simp [hc]
    · intro d hd
      simpa using List.mem_takeWhile_imp (List.mem_reverse.1 hd)
    · refine ⟨((c :: cs).dropWhile fun c => !isBlank c).reverse,
        (name.toList.reverse.takeWhile isBlank).reverse, ?_, ?_, ?_⟩
      · rw [← List.reverse_append, ← List.reverse_append, hblanks, List.reverse_reverse]
      · intro d hd
        have hhead := List.head?_dropWhile_not (fun c => !isBlank c) (c :: cs)
        rw [List.getLast?_reverse, Option.mem_def] at hd
        rw [hd] at hhead
        simpa using hhead
      · intro d hd
        exact List.mem_takeWhile_imp (List.mem_reverse.1 hd)

/-- **The name that a text declares is one word**, if there is a word in the text. -/
theorem oneWord_declaredName (h : ¬ Blank name) : OneWord (declaredName name) := by
  obtain ⟨word, hword⟩ := exists_lastWord h
  rw [declaredName_of_lastWord hword]
  constructor
  · simpa using hword.nonempty
  · rw [String.toList_ofList]
    exact hword.unbroken

theorem OneWord.lastWord (h : OneWord name) : LastWord name.toList name.toList :=
  ⟨h.toList_ne_nil, h.unbroken, [], [], by simp, by simp, by simp⟩

/-- A text with a blank at its end does not change the last word of what is put behind it. -/
theorem LastWord.append_blank (h : LastWord word text) (front : List Char) :
    LastWord word (front ++ ' ' :: text) := by
  obtain ⟨before, blanks, rfl, hbefore, hblanks⟩ := h.place
  refine ⟨h.nonempty, h.unbroken, front ++ ' ' :: before, blanks, by simp, ?_, hblanks⟩
  intro c hc
  cases before with
  | nil =>
    obtain rfl : ' ' = c := by simpa using hc
    decide
  | cons d before =>
    refine hbefore c ?_
    simpa [List.getLast?_append, List.getLast?_cons] using hc

/-- A text without a word is taken whole. -/
theorem declaredName_of_blank (h : Blank name) : declaredName name = name := by
  have hnone : name.toList.reverse.dropWhile isBlank = [] :=
    List.dropWhile_eq_nil_iff.2 fun c hc => h c (List.mem_reverse.1 hc)
  unfold declaredName
  dsimp only
  rw [hnone]
  rfl

/-- A text is the name that it declares exactly if it is one word, or has none. -/
theorem declaredName_eq_self_iff : declaredName name = name ↔ OneWord name ∨ Blank name := by
  constructor
  · intro heq
    by_cases hblank : Blank name
    · exact .inr hblank
    · exact .inl (heq ▸ oneWord_declaredName hblank)
  · rintro (hone | hblank)
    · rw [declaredName_of_lastWord hone.lastWord, String.ofList_toList]
    · exact declaredName_of_blank hblank

end LastWord

/-! ## Written references -/

/-- All three readers understand an entry as the reference; the last of them only looks for the name. -/
structure Understood (entry : String) (reference : TableReference) : Prop where
  read : TableReference.read entry = reference
  split : TableReference.split entry = reference
  declared : declaredName entry = reference.name

theorem write_self (table : String) : TableReference.write ⟨table, table⟩ = table :=
  if_pos rfl

theorem toList_write (h : name ≠ table) :
    (TableReference.write ⟨table, name⟩).toList =
      table.toList ++ [' ', 'A', 'S', ' '] ++ name.toList := by
  rw [TableReference.write, if_neg h, String.toList_append, String.toList_append]
  rfl

/-- **A reference declares the last word of its name.** -/
theorem declaredName_write {word : List Char} (h : LastWord word name.toList) (table : String) :
    declaredName (TableReference.write ⟨table, name⟩) = String.ofList word := by
  by_cases hne : name = table
  · rw [hne, write_self]
    exact declaredName_of_lastWord (hne ▸ h)
  · have hlast := h.append_blank (table.toList ++ [' ', 'A', 'S'])
    refine declaredName_of_lastWord ?_
    rw [toList_write hne]
    simpa using hlast

theorem declaredName_write_of_oneWord (h : OneWord name) (table : String) :
    declaredName (TableReference.write ⟨table, name⟩) = name := by
  rw [declaredName_write h.lastWord, String.ofList_toList]

/-- A single word is a bare table to all readers. -/
theorem understood_bare (h : OneWord table) : Understood table ⟨table, table⟩ where
  read := by
    rw [TableReference.read, cutAtWord?_of_unbroken h.unbroken]
    rfl
  split := by
    rw [TableReference.split, splitOnce?_of_not_mem h.unbroken.not_mem]
    rfl
  declared := declaredName_eq_self_iff.2 (.inl h)

/-- **A reference between two words is understood alike by all readers**: they find the table and the name
that were written, whatever the words are. -/
theorem understood_write (htable : OneWord table) (hname : OneWord name) :
    Understood (TableReference.write ⟨table, name⟩) ⟨table, name⟩ := by
  by_cases hne : name = table
  · subst hne
    rw [write_self]
    exact understood_bare htable
  · have htext := toList_write hne
    constructor
    · have hcut : cutAtWord? (exactly ['A', 'S']) (table.toList ++ [' ', 'A', 'S', ' '] ++ name.toList) =
          some (table.toList, name.toList) :=
        cutAtWord?_written (fun _ => rfl) htable.unbroken.line hname.unbroken hname.toList_ne_nil
      obtain ⟨c, cs, hcons⟩ := List.exists_cons_of_ne_nil htable.toList_ne_nil
      rw [TableReference.read, htext, hcut, hcons]
      dsimp only
      rw [← hcons, String.ofList_toList, String.ofList_toList]
    · have hsplit : splitOnce? [' ', 'A', 'S', ' '] (table.toList ++ [' ', 'A', 'S', ' '] ++ name.toList) =
          some (table.toList, name.toList) :=
        splitOnce?_written htable.unbroken.not_mem
      rw [TableReference.split, htext, hsplit]
      dsimp only
      rw [String.ofList_toList, String.ofList_toList]
    · exact declaredName_write_of_oneWord hname table

/-- A reference that is written with an `AS` has a word in it. -/
theorem name_eq_of_blank_write (h : Blank (TableReference.write ⟨table, name⟩)) : name = table := by
  by_contra hne
  exact absurd (h 'A' (by simp [toList_write hne])) (by decide)

/-- A reference without a word declares its own name. -/
theorem declaredName_write_of_blank {reference : TableReference} (h : Blank reference.write) :
    declaredName reference.write = reference.name := by
  obtain ⟨table, name⟩ := reference
  rw [declaredName_of_blank h]
  obtain rfl := name_eq_of_blank_write h
  exact write_self name

/-- A reference declares a word, or else its own name. -/
theorem oneWord_or_declaredName_eq (reference : TableReference) :
    OneWord (declaredName reference.write) ∨ declaredName reference.write = reference.name := by
  by_cases hblank : Blank reference.write
  · exact .inr (declaredName_write_of_blank hblank)
  · exact .inl (oneWord_declaredName hblank)

/-- **A reference declares its name exactly if that is one word**, or blank and all of the reference. -/
theorem declaredName_write_iff {reference : TableReference} :
    declaredName reference.write = reference.name ↔
      OneWord reference.name ∨ (reference.name = reference.table ∧ Blank reference.name) := by
  obtain ⟨table, name⟩ := reference
  constructor
  · intro heq
    by_cases hblank : Blank (TableReference.write ⟨table, name⟩)
    · rw [declaredName_of_blank hblank] at heq
      exact .inr ⟨name_eq_of_blank_write hblank, heq ▸ hblank⟩
    · exact .inl (heq ▸ oneWord_declaredName hblank)
  · rintro (hone | ⟨heq, hblank⟩)
    · exact declaredName_write_of_oneWord hone table
    · obtain rfl : name = table := heq
      rw [write_self]
      exact declaredName_of_blank hblank

end RelationSql.Fragment
