import Mathlib.Algebra.Order.BigOperators.Group.List
import Mathlib.Algebra.Order.Group.Nat
import Mathlib.Data.List.TakeWhile
import Mathlib.Tactic.Ring
import RelationSql.Proofs.Fragment.Items
import RelationSql.Proofs.Walk.Columns
import RelationSql.Proofs.Walk.InForce

/-!
# Counting groups

A grouped query is counted by the tuples of its group. The fields of the group are kept as one text, and
the count reads them back out of it: it looks for the `GROUP BY`, goes to the end of the line and cuts at
the commas. What it counts is the fields exactly if none of them holds a comma or the end of a line, or
starts or ends with a blank (`counted_iff`). A field that calls a function of two arguments is cut in two.

The number of items that are read back gives the commas away, since each item brings one comma of its own;
with the same number of items, the lengths tell whether anything was trimmed.
-/

namespace RelationSql

open RelationSql.Text RelationSql.Fragment

/-! ## The body of a group -/

/-- Blanks are passed over up to a place that is fit. -/
theorem afterBlanks?_eq_some {fit : List Char → Bool} {text rest : List Char}
    (h : afterBlanks? fit text = some rest) :
    fit rest = true ∧ ∃ b blanks, text = b :: blanks ++ rest ∧ ∀ c ∈ blanks, isBlank c = true := by
  induction text with
  | nil => cases h
  | cons c cs ih =>
    rw [afterBlanks?] at h
    split at h
    · next hc =>
      cases hcs : afterBlanks? fit cs with
      | some further =>
        rw [hcs] at h
        cases h
        obtain ⟨hfit, b, blanks, rfl, hblanks⟩ := ih hcs
        rw [List.cons_append, afterBlanks?] at hcs
        split at hcs
        · next hb => exact ⟨hfit, c, b :: blanks, rfl, List.forall_mem_cons.2 ⟨hb, hblanks⟩⟩
        · cases hcs
      | none =>
        rw [hcs] at h
        dsimp only at h
        split at h
        · next hfit =>
          cases h
          exact ⟨hfit, c, [], rfl, by simp⟩
        · cases h
    · cases h

/-- In front of a character that is no blank there is a place where a line starts. -/
theorem afterBlanks?_isSome {b : Char} (hb : isBlank b = true) {text : List Char}
    (h : ∃ c ∈ text, isBlank c = false) : (afterBlanks? startsLine (b :: text)).isSome = true := by
  induction text generalizing b with
  | nil => simp at h
  | cons c cs ih =>
    rw [afterBlanks?, if_pos hb]
    by_cases hc : isBlank c = true
    · have hmore : ∃ c ∈ cs, isBlank c = false := by simpa [hc] using h
      obtain ⟨rest, hrest⟩ := Option.isSome_iff_exists.1 (ih hc hmore)
      rw [hrest]
      rfl
    · have hline : startsLine (c :: cs) = true := by
        have hne : c ≠ '\n' := fun heq => hc (heq ▸ by decide)
        simp [startsLine, hne]
      rw [afterBlanks?, if_neg hc]
      simp [hline]

/-- A text without the letter that the word starts with holds no group. -/
theorem groupBody?_eq_none {text : List Char} (h : 'G' ∉ text) : groupBody? text = none := by
  induction text with
  | nil => rfl
  | cons c cs ih =>
    rw [List.mem_cons, not_or] at h
    have hword : after? "GROUP".toList (c :: cs) = none := by
      rw [show "GROUP".toList = ['G', 'R', 'O', 'U', 'P'] from rfl, after?, if_neg h.1]
    rw [groupBody?, hword]
    exact ih h.2

/-- What is read of a group is the rest of its line, from the blanks behind the words on. -/
theorem groupBody?_group (joined : List Char) :
    groupBody? (" GROUP BY ".toList ++ joined) =
      match afterBlanks? startsLine (' ' :: joined) with
      | some body => some (body.takeWhile fun c => c != '\n')
      | none => groupBody? ("ROUP BY ".toList ++ joined) := by
  rfl

/-- The body of a group is the text of its fields without blanks in front, up to the end of the line. -/
theorem groupBody?_eq_some {joined body : List Char}
    (h : groupBody? (" GROUP BY ".toList ++ joined) = some body) :
    ∃ blanks rest, joined = blanks ++ rest ∧ (∀ c ∈ blanks, isBlank c = true) ∧ rest ≠ [] ∧
      body = rest.takeWhile fun c => c != '\n' := by
  rw [groupBody?_group] at h
  split at h
  · next rest hrest =>
    cases h
    obtain ⟨hline, b, blanks, hjoined, hblanks⟩ := afterBlanks?_eq_some hrest
    rw [List.cons_append, List.cons.injEq] at hjoined
    refine ⟨blanks, rest, hjoined.2, hblanks, ?_, rfl⟩
    rintro rfl
    cases hline
  · next hnone =>
    -- all that stands there is blank, and no further group
    have hall : ∀ c ∈ joined, isBlank c = true := by
      by_contra hsome
      simp only [not_forall, Bool.not_eq_true] at hsome
      obtain ⟨c, hc, hblank⟩ := hsome
      have := afterBlanks?_isSome (b := ' ') (by decide) ⟨c, hc, hblank⟩
      rw [hnone] at this
      cases this
    rw [groupBody?_eq_none] at h
    · cases h
    · rw [List.mem_append, not_or]
      exact ⟨by decide, fun hmem => absurd (hall 'G' hmem) (by decide)⟩

/-! ## Fields read back -/

/-- The text of a field in a count. -/
def coalesced (text : String) : String :=
  "COALESCE(" ++ text ++ ",0)"

/-- What a count by these fields counts. -/
def countOf (texts : List String) : String :=
  "COUNT(DISTINCT " ++ joinWith "," (texts.map coalesced) ++ ")"

theorem countOf_eq (texts : List String) :
    countOf texts = "COUNT(DISTINCT " ++ joinWith "," (texts.map coalesced) ++ ")" := rfl

/-- The fields in the body of a group. -/
def fieldsOf (body : List Char) : List String :=
  (listItems body).map fun field => String.ofList (trimBy isBlank field)

theorem countedFields_eq (body : List Char) :
    "COUNT(DISTINCT " ++ Query.countedFields body ++ ")" = countOf (fieldsOf body) := by
  rw [Query.countedFields, countOf_eq, fieldsOf, List.map_map]
  rfl

/-- Fields that come back out of the text of their group: there is something to read, no field holds what
ends a field or a line, and none has blanks to be trimmed. -/
structure ReadsBack (texts : List String) : Prop where
  nonempty : joinWith ", " texts ≠ ""
  whole : ∀ text ∈ texts, ',' ∉ text.toList ∧ '\n' ∉ text.toList
  trimmed : ∀ text ∈ texts, trimBy isBlank text.toList = text.toList

/-- Fields without commas are the items of their group. -/
theorem map_trimBy_splitAt_joinWith {texts : List String} (hne : texts ≠ [])
    (h : ∀ text ∈ texts, ',' ∉ text.toList) :
    (splitAt ',' (joinWith ", " texts).toList).map (trimBy isBlank) =
      texts.map fun text => trimBy isBlank text.toList := by
  fun_induction joinWith ", " texts with
  | case1 => exact absurd rfl hne
  | case2 text =>
    have hone := splitAt_append (h text List.mem_cons_self) []
    rw [List.append_nil] at hone
    rw [hone]
    simp [splitAt]
  | case3 text texts hmore ih =>
    rw [List.forall_mem_cons] at h
    have hcut (rest : List Char) : splitAt ',' (", ".toList ++ rest) = [] :: splitAt ',' (' ' :: rest) := rfl
    have hblank (rest : List Char) : splitAt ',' (' ' :: rest) = (splitAt ',' rest).modifyHead ([' '] ++ ·) :=
      splitAt_append (show ',' ∉ [' '] by decide) rest
    rw [String.toList_append, String.toList_append, List.append_assoc, splitAt_append h.1, hcut, hblank,
      List.modifyHead_cons, List.map_cons, List.append_nil, map_trimBy_modifyHead (by decide), ih hmore h.2,
      List.map_cons]

/-- Fields are read back with what they have around them trimmed. -/
theorem fieldsOf_of_joinWith {texts : List String} {blanks rest : List Char} (hne : texts ≠ [])
    (h : ∀ text ∈ texts, ',' ∉ text.toList) (hjoined : (joinWith ", " texts).toList = blanks ++ rest)
    (hblanks : ∀ c ∈ blanks, isBlank c = true) :
    fieldsOf rest = texts.map fun text => String.ofList (trimBy isBlank text.toList) := by
  have hcomma : ',' ∉ blanks := fun hmem => absurd (hblanks ',' hmem) (by decide)
  have hitems := map_trimBy_splitAt_joinWith hne h
  rw [hjoined, splitAt_append hcomma, map_trimBy_modifyHead hblanks] at hitems
  have hfields := congrArg (List.map String.ofList) hitems
  rw [List.map_map, List.map_map] at hfields
  exact hfields

/-- One line is read to its end. -/
theorem takeWhile_line {text : List Char} (h : '\n' ∉ text) : (text.takeWhile fun c => c != '\n') = text := by
  rw [List.takeWhile_eq_self_iff]
  intro c hc
  rw [bne_iff_ne]
  rintro rfl
  exact h hc

/-- Fields of one line are joined in one line. -/
theorem line_notMem_rest {texts : List String} {blanks rest : List Char}
    (h : ∀ text ∈ texts, '\n' ∉ text.toList) (hjoined : (joinWith ", " texts).toList = blanks ++ rest) :
    '\n' ∉ rest := by
  have hlacks : Lacks ['\n'] (joinWith ", " texts) :=
    lacks_joinWith (by decide) fun text htext => by simpa [Lacks] using h text htext
  intro hmem
  refine hlacks '\n' (List.mem_singleton_self _) ?_
  rw [hjoined]
  exact List.mem_append_right _ hmem

/-- Fields of a count that are read back. -/
theorem fieldsOf_of_readsBack {texts : List String} (h : ReadsBack texts) :
    ∃ body, groupBody? (groupText texts).toList = some body ∧ fieldsOf body = texts := by
  have hne : texts ≠ [] := by
    rintro rfl
    exact h.nonempty rfl
  have hcomma : ∀ text ∈ texts, ',' ∉ text.toList := fun text htext => (h.whole text htext).1
  have htrimmed : (texts.map fun text => String.ofList (trimBy isBlank text.toList)) = texts := by
    refine (List.map_congr_left fun text htext => ?_).trans (List.map_id texts)
    rw [h.trimmed text htext, String.ofList_toList]
    rfl
  have hblank : ∃ c ∈ (joinWith ", " texts).toList, isBlank c = false := by
    by_contra hnone
    have hall : ∀ c ∈ (joinWith ", " texts).toList, isBlank c = true := by simpa using hnone
    -- without a comma there is one field, and it would be trimmed away
    have hfields := fieldsOf_of_joinWith hne hcomma (List.append_nil _).symm hall
    rw [htrimmed] at hfields
    exact h.nonempty (by rw [← hfields]; rfl)
  obtain ⟨body, hbody⟩ := Option.isSome_iff_exists.1 (afterBlanks?_isSome (b := ' ') (by decide) hblank)
  have hgroup : groupBody? (groupText texts).toList = some (body.takeWhile fun c => c != '\n') := by
    rw [groupText, String.toList_append, groupBody?_group, hbody]
  obtain ⟨blanks, rest, hjoined, hblanks, -, heq⟩ := groupBody?_eq_some (by
    rw [← String.toList_append]
    exact hgroup)
  have hline := line_notMem_rest (fun text htext => (h.whole text htext).2) hjoined
  rw [heq, takeWhile_line hline] at hgroup
  exact ⟨rest, hgroup, (fieldsOf_of_joinWith hne hcomma hjoined hblanks).trans htrimmed⟩

/-! ## What a count gives away -/

/-- The occurrences of a character in a text. -/
def occurrences (c : Char) (text : String) : Nat :=
  text.toList.count c

theorem occurrences_append (c : Char) (a b : String) :
    occurrences c (a ++ b) = occurrences c a + occurrences c b := by
  rw [occurrences, String.toList_append, List.count_append]
  rfl

theorem measure_countOf {μ : String → Nat} (hμ : ∀ a b, μ (a ++ b) = μ a + μ b) {texts : List String}
    (h : texts ≠ []) :
    μ (countOf texts) + μ "," =
      μ "COUNT(DISTINCT " + μ ")" + (texts.map μ).sum +
        texts.length * (μ "COALESCE(" + μ ",0)" + μ ",") := by
  have hjoined := measure_joinWith hμ "," (mt List.map_eq_nil_iff.1 h : texts.map coalesced ≠ [])
  have hsum : ((texts.map coalesced).map μ).sum =
      (texts.map μ).sum + texts.length * (μ "COALESCE(" + μ ",0)") := by
    clear hjoined h
    induction texts with
    | nil => simp
    | cons text texts ih =>
      simp only [List.map_cons, List.sum_cons, List.length_cons, ih, coalesced, hμ]
      ring
  rw [countOf_eq, hμ, hμ]
  rw [hsum, List.length_map] at hjoined
  linarith

theorem sum_occurrences_eq_zero {c : Char} {texts : List String} :
    (texts.map (occurrences c)).sum = 0 ↔ ∀ text ∈ texts, c ∉ text.toList := by
  rw [List.sum_eq_zero_iff, List.forall_mem_map]
  simp only [occurrences, List.count_eq_zero]

theorem fieldsOf_ne_nil (body : List Char) : fieldsOf body ≠ [] :=
  mt List.map_eq_nil_iff.1 (splitAt_ne_nil ',' body)

/-- No field that is read back holds a character that the body lacks. -/
theorem notMem_of_mem_fieldsOf {body : List Char} {c : Char} (hc : c ∉ body) :
    ∀ field ∈ fieldsOf body, c ∉ field.toList := by
  rw [fieldsOf, List.forall_mem_map]
  intro field hfield
  rw [String.toList_ofList]
  exact fun hmem => hc (subset_of_mem_splitAt hfield (trimBy_subset _ _ hmem))

/-- No field that is read back holds a comma. -/
theorem comma_notMem_fieldsOf (body : List Char) : ∀ field ∈ fieldsOf body, ',' ∉ field.toList := by
  rw [fieldsOf, List.forall_mem_map]
  intro field hfield
  rw [String.toList_ofList]
  exact fun hmem => notMem_of_mem_splitAt hfield (trimBy_subset _ _ hmem)

section Counts

variable {texts : List String} {body blanks rest : List Char}

/-- Counts that are the same add up to the same. -/
theorem measure_eq_of_countOf {μ : String → Nat} (hμ : ∀ a b, μ (a ++ b) = μ a + μ b) (hne : texts ≠ [])
    (hcount : countOf (fieldsOf body) = countOf texts) :
    ((fieldsOf body).map μ).sum + (fieldsOf body).length * (μ "COALESCE(" + μ ",0)" + μ ",") =
      (texts.map μ).sum + texts.length * (μ "COALESCE(" + μ ",0)" + μ ",") := by
  have hread := measure_countOf hμ (fieldsOf_ne_nil body)
  have hwritten := measure_countOf hμ hne
  rw [hcount] at hread
  omega

/-- No end of a line is counted, so there is none in the fields. -/
theorem line_notMem_of_countOf (hne : texts ≠ []) (hcount : countOf (fieldsOf body) = countOf texts)
    (hbody : '\n' ∉ body) : ∀ text ∈ texts, '\n' ∉ text.toList := by
  have hsum := measure_eq_of_countOf (occurrences_append '\n') hne hcount
  rw [sum_occurrences_eq_zero.2 (notMem_of_mem_fieldsOf hbody)] at hsum
  have hwords : occurrences '\n' "COALESCE(" = 0 ∧ occurrences '\n' ",0)" = 0 ∧
    occurrences '\n' "," = 0 := ⟨rfl, rfl, rfl⟩
  simp only [hwords, Nat.add_zero, Nat.mul_zero] at hsum
  exact sum_occurrences_eq_zero.1 (by omega)

/-- Each item that is read back is counted with a comma of its own, so there is none in the fields. -/
theorem comma_notMem_of_countOf (hne : texts ≠ []) (hcount : countOf (fieldsOf rest) = countOf texts)
    (hjoined : (joinWith ", " texts).toList = blanks ++ rest) (hblanks : ∀ c ∈ blanks, isBlank c = true) :
    ∀ text ∈ texts, ',' ∉ text.toList := by
  have hsum := measure_eq_of_countOf (occurrences_append ',') hne hcount
  rw [sum_occurrences_eq_zero.2 (comma_notMem_fieldsOf rest)] at hsum
  have hitems : (fieldsOf rest).length = occurrences ',' (joinWith ", " texts) + 1 := by
    have hblank : blanks.count ',' = 0 :=
      List.count_eq_zero.2 fun hmem => absurd (hblanks ',' hmem) (by decide)
    rw [fieldsOf, List.length_map, listItems, length_splitAt, occurrences, hjoined, List.count_append,
      hblank, Nat.zero_add]
  have hseparators := measure_joinWith (occurrences_append ',') ", " hne
  have hwords : occurrences ',' "COALESCE(" = 0 ∧ occurrences ',' ",0)" = 1 ∧ occurrences ',' "," = 1 ∧
    occurrences ',' ", " = 1 := ⟨rfl, rfl, rfl, rfl⟩
  simp only [hwords] at hsum hseparators
  exact sum_occurrences_eq_zero.1 (by omega)

/-- The items are the trimmed fields, and together they are as long. -/
theorem trimmed_of_countOf (hne : texts ≠ []) (hcount : countOf (fieldsOf rest) = countOf texts)
    (hfields : fieldsOf rest = texts.map fun text => String.ofList (trimBy isBlank text.toList)) :
    ∀ text ∈ texts, trimBy isBlank text.toList = text.toList := by
  have hsum := measure_eq_of_countOf String.length_append hne hcount
  rw [hfields, List.map_map, List.length_map] at hsum
  have hle : ∀ text ∈ texts, (String.ofList (trimBy isBlank text.toList)).length ≤ text.length := by
    intro text _
    rw [String.length_ofList, ← String.length_toList]
    exact length_trimBy_le _ _
  intro text htext
  apply trimBy_eq_self
  by_contra hshort
  have hlt := List.sum_lt_sum _ _ hle ⟨text, htext, lt_of_le_of_ne (hle text htext) fun heq => hshort ?_⟩
  · simp only [Function.comp_def] at hsum
    omega
  · rwa [String.length_ofList, ← String.length_toList] at heq

/-- **A count that is right has read back the fields.** -/
theorem readsBack_of_countOf (hbody : groupBody? (groupText texts).toList = some body)
    (hcount : countOf (fieldsOf body) = countOf texts) : ReadsBack texts := by
  rw [groupText, String.toList_append] at hbody
  obtain ⟨blanks, rest, hjoined, hblanks, hrest, rfl⟩ := groupBody?_eq_some hbody
  have hnonempty : joinWith ", " texts ≠ "" := by
    intro hempty
    rw [hempty] at hjoined
    exact hrest (List.append_eq_nil_iff.1 hjoined.symm).2
  have hne : texts ≠ [] := by
    rintro rfl
    exact hnonempty rfl
  have hline : ∀ text ∈ texts, '\n' ∉ text.toList :=
    line_notMem_of_countOf hne hcount fun hmem => by simpa using List.mem_takeWhile_imp hmem
  -- so the body is all that stands behind the blanks
  rw [takeWhile_line (line_notMem_rest hline hjoined)] at hcount
  have hcomma := comma_notMem_of_countOf hne hcount hjoined hblanks
  have htrimmed := trimmed_of_countOf hne hcount (fieldsOf_of_joinWith hne hcomma hjoined hblanks)
  exact ⟨hnonempty, fun text htext => ⟨hcomma text htext, hline text htext⟩, htrimmed⟩

end Counts

/-! ## What is counted -/

/-- The fields of a count end with a parenthesis. -/
theorem getLast?_coalesced {texts : List String} (h : texts ≠ []) :
    (joinWith "," (texts.map coalesced)).toList.getLast? = some ')' := by
  have hone (text : String) : (coalesced text).toList.getLast? = some ')' := by
    rw [coalesced, String.toList_append, List.getLast?_append]
    rfl
  induction texts with
  | nil => exact absurd rfl h
  | cons text texts ih =>
    cases texts with
    | nil => exact hone text
    | cons second texts =>
      rw [List.map_cons, List.map_cons, joinWith, ← List.map_cons, String.toList_append,
        List.getLast?_append, ih (List.cons_ne_nil _ _)]
      · rfl
      · exact List.cons_ne_nil _ _

/-- A count of records is no count by fields. -/
theorem countOf_ne_distinct (texts : List String) (table : String) :
    "COUNT(DISTINCT " ++ table ++ ".id)" ≠ countOf texts := by
  intro heq
  have hlist := congrArg String.toList heq
  have hkey : ".id)".toList = ['.', 'i', 'd'] ++ [')'] := rfl
  simp only [countOf_eq, String.toList_append, List.append_assoc, List.append_cancel_left_eq] at hlist
  rw [hkey, ← List.append_assoc] at hlist
  have hfields := List.append_cancel_right hlist
  cases texts with
  | nil => simp [joinWith] at hfields
  | cons text texts =>
    have hlast := getLast?_coalesced (List.cons_ne_nil text texts)
    rw [← hfields, List.getLast?_append] at hlast
    simp at hlast

theorem countOf_ne_all (texts : List String) : "COUNT(*)" ≠ countOf texts := by
  intro heq
  have hfront : (countOf texts).toList.take 7 = "COUNT(D".toList := by
    rw [countOf_eq, String.append_assoc, String.toList_append, List.take_append_of_le_length (by decide)]
    rfl
  rw [← heq] at hfront
  exact absurd hfront (by decide)

/-- **The count counts the fields of the group exactly if they read back.** -/
theorem Query.counted_iff {q : Query} {texts : List String} (hgroup : q.group = some (groupText texts)) :
    q.counted = countOf texts ↔ ReadsBack texts := by
  rw [counted, hgroup, Option.bind_some]
  constructor
  · intro hcount
    split at hcount
    · next body hbody =>
      rw [countedFields_eq] at hcount
      exact readsBack_of_countOf hbody hcount
    · split at hcount
      · exact absurd hcount (countOf_ne_distinct texts _)
      · exact absurd hcount (countOf_ne_all texts)
  · intro h
    obtain ⟨body, hbody, hfields⟩ := fieldsOf_of_readsBack h
    rw [hbody]
    dsimp only
    rw [countedFields_eq, hfields]

/-! ## Compiled groups -/

open Grammar WalkM Catalog

section Compiled

variable {catalog : Catalog} (h : catalog.Spares) {options : Options} {name source : String} {tree : Tree}
  {q : Query} {before behind : List Closer} {fields : List Tree}

include h

/-- The group of a compiled query is that of the last group in force. -/
theorem Catalog.Spares.group_eq (hparse : parse source = .ok tree)
    (hcompile : catalog.compile options name source = .ok q)
    (hforce : tree.inForce = before ++ .group fields :: behind) (hlast : ∀ other, .group other ∉ behind) :
    ∃ texts, (catalog.host options maxDepth).GroupsBy (defaultOrder (catalog.host options maxDepth)) fields
      texts ∧ q.group = some (groupText texts) := by
  obtain ⟨group, v, hrun, hclosing⟩ := h.compile hparse hcompile
  rw [hforce] at hrun
  obtain ⟨v₁, v₂, -, ⟨texts, hfields, hset⟩, hmore⟩ := hrun.of_append_cons
  refine ⟨texts, hfields, ?_⟩
  have hgroup : v.group = some (groupText texts) := by
    refine hmore.keep (p := fun v => v.group = some (groupText texts)) ?_ (by rw [hset])
    intro closer hcloser v v' hsets hv
    cases closer with
    | group other => exact absurd hcloser (hlast other)
    | limit start count => cases start <;> exact hsets ▸ hv
    | offset start => exact hsets ▸ hv
    | paginate key =>
      obtain ⟨_, _, rfl⟩ := hsets
      exact hv
  rw [← hgroup]
  exact congrArg Closing.group hclosing

/-- **When a grouped count counts the tuples of its fields.** The group of a compiled query is that of the
last `group by` in force, and its statement counts the rendered fields, each with a value for a missing one,
exactly if they read back out of the text of the group. -/
theorem Catalog.Spares.countStatement_iff (hparse : parse source = .ok tree)
    (hcompile : catalog.compile options name source = .ok q)
    (hforce : tree.inForce = before ++ .group fields :: behind) (hlast : ∀ other, .group other ∉ behind) :
    (∃ texts, (catalog.host options maxDepth).GroupsBy (defaultOrder (catalog.host options maxDepth)) fields
        texts ∧ q.group = some (groupText texts)) ∧
      ∀ texts, q.group = some (groupText texts) →
        (q.countStatement = "SELECT " ++ countOf texts ++ " FROM " ++ q.tableList ++ q.whereClause ↔
          ReadsBack texts) := by
  refine ⟨h.group_eq hparse hcompile hforce hlast, fun texts hgroup => ?_⟩
  rw [← Query.counted_iff hgroup, Query.countStatement]
  constructor
  · intro heq
    have hlist := congrArg String.toList heq
    simp only [String.toList_append, List.append_assoc, List.append_cancel_left_eq] at hlist
    exact String.toList_inj.1 (List.append_cancel_right hlist)
  · intro heq
    rw [heq]

end Compiled

/-- The tree of objects that are grouped by these fields. -/
def groupedObjects (fields : List String) : Tree :=
  .node .query [.node .group (.leaf .relation "objects" :: fields.map (.leaf .field))]

/-- Two columns are counted as they are. -/
theorem columns_counted :
    ∃ q, (columnCatalog ("objects." ++ ·)).compile {} "objects" "objects group by name, kind" = .ok q ∧
      q.countStatement =
        "SELECT COUNT(DISTINCT COALESCE(objects.name,0),COALESCE(objects.kind,0)) FROM objects" := by
  have hparse : parse "objects group by name, kind" = .ok (groupedObjects ["name", "kind"]) := by decide +kernel
  obtain ⟨q, hcompile, hgroup, htables, hfilters⟩ : ∃ q, (columnCatalog ("objects." ++ ·)).compile {}
      "objects" "objects group by name, kind" = .ok q ∧
        q.group = some (groupText ["objects.name", "objects.kind"]) ∧ q.tableList = "objects" ∧
        q.whereClause = "" :=
    ⟨_, compile_of_run rfl hparse rfl, by decide +kernel, by decide +kernel, by decide +kernel⟩
  have hforce : (groupedObjects ["name", "kind"]).inForce =
      [] ++ .group [.leaf .field "name", .leaf .field "kind"] :: [] := rfl
  have hcounted := ((spares_columnCatalog ("objects." ++ ·)).countStatement_iff hparse hcompile hforce
    fun _ => List.not_mem_nil).2 ["objects.name", "objects.kind"] hgroup
  refine ⟨q, hcompile, (hcounted.2 ⟨by decide, by decide, by decide⟩).trans ?_⟩
  rw [htables, hfilters]
  decide

/-- A column with another one in its place where it is missing. -/
def orName (column : String) : String :=
  "IFNULL(objects." ++ column ++ ",objects.name)"

/-- **A call of two arguments is cut in two.** -/
theorem call_cut_in_two :
    ∃ q, (columnCatalog orName).compile {} "objects" "objects group by city" = .ok q ∧
      (∃ atEnd, ((columnCatalog orName).host {} maxDepth).GroupsBy atEnd [.leaf .field "city"]
        [orName "city"]) ∧
      q.group = some (groupText [orName "city"]) ∧
      q.countStatement =
        "SELECT COUNT(DISTINCT COALESCE(IFNULL(objects.city,0),COALESCE(objects.name),0)) FROM objects" ∧
      q.countStatement ≠
        "SELECT COUNT(DISTINCT COALESCE(IFNULL(objects.city,objects.name),0)) FROM objects" := by
  have hparse : parse "objects group by city" = .ok (groupedObjects ["city"]) := by decide +kernel
  have hfield : ((columnCatalog orName).host {} maxDepth).GroupsBy (pure ()) [.leaf .field "city"]
      [orName "city"] :=
    ⟨{ (columnCatalog orName).start {} (.rendering objects orName) with context := { phase := .group } }, _,
      rfl, rfl⟩
  exact ⟨_, compile_of_run rfl hparse rfl, ⟨_, hfield⟩, by decide +kernel, by decide +kernel,
    by decide +kernel⟩

end RelationSql
