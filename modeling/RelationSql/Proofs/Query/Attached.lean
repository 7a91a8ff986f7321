import RelationSql.Proofs.Query.Given

/-!
# Joins in the text of a query

A join clause belongs to the occurrence that its table is joined onto: the clause names both aliases, and it
has one place in `FROM`, behind the entry that declares the first one (`JoinedOnce`). A new join gets there
exactly if it is onto another table, under an alias that this table has not taken, and the newest occurrence
of that table is an entry of `FROM` (`addJoin_joinedOnce_iff`). A table that is joined onto itself is
compared with itself and stands nowhere (`self_join_lost`), and so does what is joined onto a joined table,
which has no entry.
-/

namespace RelationSql.Query

open RelationSql.Fragment (TableReference declaredName)
open RelationSql.Text

/-! ## The condition of a join -/

/-- A part of a condition: the place of the first alias, that of the second, or a character. -/
inductive Slot where
  | first
  | second
  | other (c : Char)
  deriving DecidableEq, Repr

/-- The parts of a condition; `skip` characters of the current word are still to be passed over. -/
def readSlots : (skip : Nat) → List Char → List Slot
  | _, [] => []
  | skip + 1, _ :: cs => readSlots skip cs
  | 0, c :: cs =>
    match after? "TABLE1".toList (c :: cs) with
    | some _ => .first :: readSlots 5 cs
    | none =>
      match after? "TABLE2".toList (c :: cs) with
      | some _ => .second :: readSlots 5 cs
      | none => .other c :: readSlots 0 cs

/-- The text of a part with both aliases. -/
def Slot.fill (first second : List Char) : Slot → List Char
  | .first => first
  | .second => second
  | .other c => [c]

/-- The parts of a part once the first alias stands in its place. -/
def Slot.spread (first : List Char) : Slot → List Slot
  | .first => first.map .other
  | slot => [slot]

/-- The parts of a condition. -/
def slots (clause : String) : List Slot :=
  readSlots 0 clause.toList

/-- A condition with both aliases in their places at once. -/
def filled (clause first second : String) : String :=
  String.ofList ((slots clause).flatMap (Slot.fill first.toList second.toList))

/-- The words `TABLE1` and `TABLE2` stand in the condition where they are to be replaced, and nowhere else:
the first alias does not bring in another one, by itself or with what stands beside it. -/
def WordsApart (clause first : String) : Prop :=
  slots (filled clause first "TABLE2") = (slots clause).flatMap (Slot.spread first.toList)

instance (clause first : String) : Decidable (WordsApart clause first) :=
  inferInstanceAs (Decidable (_ = _))

/-- What follows a word is shorter than what starts with it. -/
theorem length_after? {word text rest : List Char} (h : after? word text = some rest) :
    word.length + rest.length = text.length := by
  rw [after?_eq_some_iff.1 h, List.length_append]

/-- A text is followed word by word, and character by character between words. -/
theorem words_induction {P : List Char → Prop} (nil : P [])
    (first : ∀ rest, P rest → P ("TABLE1".toList ++ rest))
    (second : ∀ rest, P rest → P ("TABLE2".toList ++ rest))
    (other : ∀ c cs, after? "TABLE1".toList (c :: cs) = none → after? "TABLE2".toList (c :: cs) = none →
      P cs → P (c :: cs)) : ∀ text, P text
  | [] => nil
  | c :: cs => by
    cases hfirst : after? "TABLE1".toList (c :: cs) with
    | some rest =>
      have hlt : rest.length < (c :: cs).length :=
        length_after? hfirst ▸ Nat.lt_add_of_pos_left (by decide)
      rw [after?_eq_some_iff.1 hfirst]
      exact first rest (words_induction nil first second other rest)
    | none =>
      cases hsecond : after? "TABLE2".toList (c :: cs) with
      | some rest =>
        have hlt : rest.length < (c :: cs).length :=
          length_after? hsecond ▸ Nat.lt_add_of_pos_left (by decide)
        rw [after?_eq_some_iff.1 hsecond]
        exact second rest (words_induction nil first second other rest)
      | none => exact other c cs hfirst hsecond (words_induction nil first second other cs)
  termination_by text => text.length
  decreasing_by
    · exact Nat.lt_succ_self _
    · exact hlt
    · exact hlt

theorem readSlots_first (rest : List Char) :
    readSlots 0 ("TABLE1".toList ++ rest) = .first :: readSlots 0 rest :=
  rfl

theorem readSlots_second (rest : List Char) :
    readSlots 0 ("TABLE2".toList ++ rest) = .second :: readSlots 0 rest :=
  rfl

theorem readSlots_other {c : Char} {cs : List Char} (hfirst : after? "TABLE1".toList (c :: cs) = none)
    (hsecond : after? "TABLE2".toList (c :: cs) = none) :
    readSlots 0 (c :: cs) = .other c :: readSlots 0 cs := by
  rw [readSlots, hfirst]
  dsimp only
  rw [hsecond]

/-- Replacing the first word fills the places of the first alias. -/
theorem replaceFrom_first (new text : List Char) :
    replaceFrom "TABLE1".toList new 0 text =
      (readSlots 0 text).flatMap (Slot.fill new "TABLE2".toList) := by
  induction text using words_induction with
  | nil => rfl
  | first rest ih =>
    rw [readSlots_first, List.flatMap_cons, ← ih]
    rfl
  | second rest ih =>
    rw [readSlots_second, List.flatMap_cons, ← ih]
    rfl
  | other c cs hfirst hsecond ih =>
    rw [readSlots_other hfirst hsecond, List.flatMap_cons, ← ih, replaceFrom, hfirst]
    rfl

/-- Replacing the second word fills the places of the second alias. -/
theorem replaceFrom_second (new text : List Char) :
    replaceFrom "TABLE2".toList new 0 text =
      (readSlots 0 text).flatMap (Slot.fill "TABLE1".toList new) := by
  induction text using words_induction with
  | nil => rfl
  | first rest ih =>
    rw [readSlots_first, List.flatMap_cons, ← ih]
    rfl
  | second rest ih =>
    rw [readSlots_second, List.flatMap_cons, ← ih]
    rfl
  | other c cs hfirst hsecond ih =>
    rw [readSlots_other hfirst hsecond, List.flatMap_cons, ← ih, replaceFrom, hsecond]
    rfl

/-- A part in which the first alias stands is filled like the part. -/
theorem flatMap_fill_spread (first second mark : List Char) (slot : Slot) :
    (slot.spread first).flatMap (Slot.fill mark second) = slot.fill first second := by
  cases slot with
  | first =>
    rw [Slot.spread, List.flatMap_map]
    exact List.flatMap_singleton' first
  | second => exact List.append_nil second
  | other c => rfl

/-- **Replacing one word after the other puts both aliases in their places.** -/
theorem joinCondition_eq_filled {clause first : String} (h : WordsApart clause first) (second : String) :
    joinCondition clause first second = filled clause first second := by
  have hfirst : replaceAll "TABLE1" first clause = filled clause first "TABLE2" :=
    congrArg String.ofList (replaceFrom_first _ _)
  have hsecond : replaceAll "TABLE2" second (filled clause first "TABLE2") =
      String.ofList ((slots (filled clause first "TABLE2")).flatMap
        (Slot.fill "TABLE1".toList second.toList)) :=
    congrArg String.ofList (replaceFrom_second _ _)
  rw [joinCondition, hfirst, hsecond, h, List.flatMap_assoc, filled]
  simp only [flatMap_fill_spread]

/-! ### Aliases that bring in no word -/

section Apart

variable {first : List Char}

/-- The text with the first alias in its places. -/
def marked (first text : List Char) : List Char :=
  (readSlots 0 text).flatMap (Slot.fill first "TABLE2".toList)

/-- What goes on behind the first letter of a word is not brought in by an alias that begins otherwise. -/
theorem after?_marked_eq_none {word text : List Char} (hword : 'T' ∉ word)
    (hhead : ∃ c more, first = c :: more ∧ c ∉ word) (h : after? word text = none) :
    after? word (marked first text) = none := by
  induction word generalizing text with
  | nil => cases h
  | cons a word ih =>
    obtain ⟨c, more, rfl, hc⟩ := hhead
    rw [List.mem_cons, not_or] at hword hc
    induction text using words_induction with
    | nil => rfl
    | first rest => exact if_neg (Ne.symm hc.1)
    | second rest => exact if_neg (Ne.symm hword.1)
    | other d ds hfirst hsecond =>
      rw [marked, readSlots_other hfirst hsecond]
      show (if a = d then after? word (marked (c :: more) ds) else none) = none
      by_cases hd : a = d
      · rw [if_pos hd]
        rw [after?, if_pos hd] at h
        exact ih hword.2 ⟨c, more, rfl, hc.2⟩ h
      · exact if_neg hd

/-- No word starts in an alias without its first letter. -/
theorem readSlots_append_of_not_mem (hfirst : 'T' ∉ first) (text : List Char) :
    readSlots 0 (first ++ text) = first.map .other ++ readSlots 0 text := by
  induction first with
  | nil => rfl
  | cons c first ih =>
    rw [List.mem_cons, not_or] at hfirst
    rw [List.cons_append, readSlots_other (if_neg hfirst.1) (if_neg hfirst.1), ih hfirst.2]
    rfl

/-- The words of a text stay where they are when the first alias is put in. -/
theorem readSlots_marked (hfirst : 'T' ∉ first)
    (hhead : ∃ c more, first = c :: more ∧ c ∉ "ABLE12".toList) (text : List Char) :
    readSlots 0 (marked first text) = (readSlots 0 text).flatMap (Slot.spread first) := by
  induction text using words_induction with
  | nil => rfl
  | first rest ih =>
    rw [marked, readSlots_first, List.flatMap_cons, List.flatMap_cons, ← ih]
    exact readSlots_append_of_not_mem hfirst (marked first rest)
  | second rest ih =>
    rw [marked, readSlots_second, List.flatMap_cons, List.flatMap_cons, ← ih]
    exact readSlots_second (marked first rest)
  | other c cs hfirst' hsecond ih =>
    have hnone {word : List Char} (hword : ∀ a ∈ word, a ∈ "ABLE12".toList)
        (hc : after? ('T' :: word) (c :: cs) = none) :
        after? ('T' :: word) (c :: marked first cs) = none := by
      by_cases heq : 'T' = c
      · rw [after?, if_pos heq] at hc ⊢
        obtain ⟨a, more, hcons, ha⟩ := hhead
        exact after?_marked_eq_none (fun hmem => absurd (hword _ hmem) (by decide))
          ⟨a, more, hcons, fun hmem => ha (hword a hmem)⟩ hc
      · exact if_neg heq
    have hmarked : marked first (c :: cs) = c :: marked first cs := by
      rw [marked, readSlots_other hfirst' hsecond]
      rfl
    rw [hmarked, readSlots_other hfirst' hsecond, List.flatMap_cons, ← ih]
    exact readSlots_other (hnone (by decide) hfirst') (hnone (by decide) hsecond)

/-- **An alias brings in no word** if it has no `T` and does not begin like the rest of a word. -/
theorem wordsApart {use : String} (huse : 'T' ∉ use.toList)
    (hhead : ∃ c more, use.toList = c :: more ∧ c ∉ "ABLE12".toList) (clause : String) :
    WordsApart clause use := by
  rw [WordsApart, slots, filled, String.toList_ofList]
  exact readSlots_marked huse hhead clause.toList

end Apart

/-! ## The text of `FROM` -/

variable {q : Query}

theorem joinWith_concat {separator text : String} {texts : List String} (h : texts ≠ []) :
    joinWith separator (texts ++ [text]) = joinWith separator texts ++ separator ++ text := by
  induction texts with
  | nil => exact absurd rfl h
  | cons first texts ih =>
    cases texts with
    | nil => rfl
    | cons second texts =>
      have hmore := ih (List.cons_ne_nil _ _)
      simp only [List.cons_append, joinWith] at hmore ⊢
      rw [hmore]
      simp only [String.append_assoc]

theorem findD_addClause (first clause other : String) (q : Query) :
    (q.addClause first clause).joinTables.findD other [] =
      q.joinTables.findD other [] ++ if first = other then [clause] else [] := by
  rw [addClause, Dictionary.findD, Dictionary.find?_insert]
  split
  · next heq =>
    subst heq
    rfl
  · rw [List.append_nil]
    rfl

/-- A clause stands behind the entry that declares the name it is attached to. -/
theorem withJoins_addClause (first clause entry : String) (q : Query) :
    (q.addClause first clause).withJoins entry =
      if declaredName entry = first then q.withJoins entry ++ " " ++ clause else q.withJoins entry := by
  unfold withJoins
  rw [findD_addClause]
  by_cases hdeclared : declaredName entry = first
  · rw [if_pos hdeclared.symm, if_pos hdeclared]
    cases hjoins : q.joinTables.findD (declaredName entry) [] with
    | nil => rfl
    | cons join joins =>
      show entry ++ " " ++ joinWith " " (join :: joins ++ [clause]) = _
      rw [joinWith_concat (List.cons_ne_nil _ _)]
      simp only [String.append_assoc]
  · rw [if_neg (Ne.symm hdeclared), if_neg hdeclared, List.append_nil]

/-- The clause is rendered at one more place than before: behind the entry that declares the alias, after
the joins that stand there. The text of all other entries stays as it is. -/
def RenderedBehind (name clause : String) (q q' : Query) : Prop :=
  ∃ front entry back, q.tables = front ++ entry :: back ∧ declaredName entry = name ∧
    q'.tables.map q'.withJoins =
      front.map q.withJoins ++ (q.withJoins entry ++ " " ++ clause) :: back.map q.withJoins

/-- The clauses that stand in `FROM`. -/
def rendered (q : Query) : List String :=
  q.tables.flatMap fun entry => q.joinTables.findD (declaredName entry) []

/-- Where one entry declares the alias, a clause that is attached to it is rendered there. -/
theorem renderedBehind_addClause {name : String} (hdistinct : (q.tables.map declaredName).Nodup)
    (halias : name ∈ q.tables.map declaredName) (clause : String) :
    RenderedBehind name clause q (q.addClause name clause) := by
  obtain ⟨entry, hentry, rfl⟩ := List.mem_map.1 halias
  obtain ⟨front, back, htables⟩ := List.append_of_mem hentry
  refine ⟨front, entry, back, htables, rfl, ?_⟩
  rw [htables, List.map_append, List.map_cons] at hdistinct
  obtain ⟨-, hback, happart⟩ := List.nodup_append.1 hdistinct
  have hsame {other : String} (hother : declaredName other ≠ declaredName entry) :
      (q.addClause (declaredName entry) clause).withJoins other = q.withJoins other := by
    rw [withJoins_addClause, if_neg hother]
  have hfront : front.map (q.addClause (declaredName entry) clause).withJoins = front.map q.withJoins :=
    List.map_congr_left fun other hother => hsame
      (happart _ (List.mem_map_of_mem hother) _ List.mem_cons_self)
  have hback : back.map (q.addClause (declaredName entry) clause).withJoins = back.map q.withJoins :=
    List.map_congr_left fun other hother => hsame fun heq =>
      (List.nodup_cons.1 hback).1 (heq ▸ List.mem_map_of_mem hother)
  show q.tables.map _ = _
  rw [htables, List.map_append, List.map_cons, hfront, hback, withJoins_addClause, if_pos rfl]

/-- **A clause is rendered once for each entry that declares the name it is attached to.** -/
theorem count_rendered_addClause (name clause : String) (q : Query) :
    (q.addClause name clause).rendered.count clause =
      q.rendered.count clause + (q.tables.map declaredName).count name := by
  unfold rendered
  show (q.tables.flatMap fun entry =>
    (q.addClause name clause).joinTables.findD (declaredName entry) []).count clause = _
  induction q.tables with
  | nil => rfl
  | cons entry entries ih =>
    rw [List.flatMap_cons, List.flatMap_cons, List.count_append, List.count_append, ih, findD_addClause,
      List.count_append, List.map_cons, List.count_cons]
    by_cases hdeclared : declaredName entry = name
    · simp [hdeclared]
      omega
    · simp [hdeclared, Ne.symm hdeclared]
      omega

/-- Where no entry declares the name that it is attached to, a clause is not rendered. -/
theorem tableList_addClause {name : String} (hnone : name ∉ q.tables.map declaredName) (clause : String) :
    (q.addClause name clause).tableList = q.tableList := by
  have hsame : q.tables.map (q.addClause name clause).withJoins = q.tables.map q.withJoins :=
    List.map_congr_left fun entry hentry => by
      rw [withJoins_addClause, if_neg fun heq => hnone (List.mem_map.2 ⟨entry, hentry, heq⟩)]
  exact congrArg (fun texts => joinWith "," (ascending texts)) hsame

/-- Both statements have the entries with their joins, in ascending order, behind the word `FROM`. -/
theorem statement_from (q : Query) (k : StatementKind) :
    ∃ head tail, q.statement k =
      head ++ " FROM " ++ joinWith "," (ascending (q.tables.map q.withJoins)) ++ tail := by
  rw [← tableList]
  cases k with
  | find =>
    refine ⟨"SELECT" ++ q.distinctClause ++ " " ++ joinWith "," q.selectItems,
      q.whereClause ++ q.groupClause ++ q.having.getD "" ++ q.order.getD "" ++ q.limit.getD "" ++
        q.offset.getD "", ?_⟩
    unfold statement findStatement
    simp only [String.append_assoc]
  | count => exact ⟨"SELECT " ++ q.counted, q.whereClause, rfl⟩

/-! ## A new join -/

/-- The clause of a join with both aliases in their places. -/
def filledClause (kind table2 clause first second : String) : String :=
  kind ++ " JOIN " ++ TableReference.write ⟨table2, second⟩ ++ " ON " ++ filled clause first second

/-- A table is joined under `second` onto the occurrence `first`: the two differ, the clause ties one to the
other, and it stands in `FROM` at one more place, behind the entry that declares `first`. -/
structure JoinedOnce (kind table2 clause first second : String) (q q' : Query) : Prop where
  apart : second ≠ first
  recorded : q'.joinTables.findD first [] =
    q.joinTables.findD first [] ++ [filledClause kind table2 clause first second]
  behind : RenderedBehind first (filledClause kind table2 clause first second) q q'
  once : q'.rendered.count (filledClause kind table2 clause first second) =
    q.rendered.count (filledClause kind table2 clause first second) + 1

variable {q' : Query} {table1 table2 kind clause first second : String} {name : Option String}

section Shown

variable (hnew : q.neededJoin? (name.getD (joinName table1 kind table2)) = none)
  (hadded : q.addJoin table1 kind table2 clause name = (second, q'))

include hnew hadded

/-- The clauses at a name after a new join. -/
theorem findD_addJoin (other : String) : q'.joinTables.findD other [] =
    q.joinTables.findD other [] ++ if q.joinOnto table1 table2 = other then
      [joinClause kind table2 clause (q.joinOnto table1 table2) second] else [] := by
  obtain ⟨rfl, rfl⟩ := Prod.mk.inj (hadded.symm.trans (addJoin_of_new hnew))
  exact findD_addClause _ _ other q

/-- The clause of a join onto an entry is rendered once more, behind that entry. -/
theorem joinedOnce_addJoin (hdistinct : (q.tables.map declaredName).Nodup)
    (hentry : first ∈ q.tables.map declaredName) (honto : q.joinOnto table1 table2 = first)
    (hwords : WordsApart clause first) (hapart : second ≠ first) :
    JoinedOnce kind table2 clause first second q q' := by
  have hclause : joinClause kind table2 clause first second =
      filledClause kind table2 clause first second := by
    rw [joinClause, joinCondition_eq_filled hwords, filledClause]
  obtain ⟨rfl, rfl⟩ := Prod.mk.inj (hadded.symm.trans (addJoin_of_new hnew))
  refine ⟨hapart, ?_, ?_, ?_⟩
  · rw [findD_addJoin hnew hadded, if_pos honto, honto, hclause]
  -- apart from its records, which do not show, the query is the old one with the clause
  · rw [honto, hclause]
    exact renderedBehind_addClause hdistinct hentry _
  · rw [honto, hclause]
    refine (count_rendered_addClause first _ q).trans ?_
    rw [List.count_eq_one_of_mem hdistinct hentry]

end Shown

/-- **A new join is rendered once, on the newest occurrence of its table, exactly if it joins another table
under an alias of its own and that occurrence is an entry of `FROM`.** Its alias is always a new one of the
joined table, and can be that of the occurrence only if two tables share names. A table that is joined onto
itself is tied to the new alias twice. What is attached to a name that no entry declares does not show. -/
theorem addJoin_joinedOnce_iff (hdistinct : (q.tables.map declaredName).Nodup)
    (hnew : q.neededJoin? (name.getD (joinName table1 kind table2)) = none)
    (hfirst : q.alias? table1 0 = some first) (hwords : WordsApart clause first)
    (hadded : q.addJoin table1 kind table2 clause name = (second, q')) :
    (JoinedOnce kind table2 clause first second q q' ↔
        table1 ≠ table2 ∧ second ≠ first ∧ first ∈ q.tables.map declaredName) ∧
      (second ∉ q.aliases table2 ∧ q'.alias? table2 0 = some second) ∧
      (table1 = table2 ∨ ¬ IsNameOf table2 first → second ≠ first) ∧
      (table1 = table2 → q'.joinTables.findD second [] =
        q.joinTables.findD second [] ++ [joinClause kind table2 clause second second]) ∧
      (q.joinOnto table1 table2 ∉ q.tables.map declaredName → q'.tableList = q.tableList) ∧
      ∀ k, ∃ head tail, q'.statement k =
        head ++ " FROM " ++ joinWith "," (ascending (q'.tables.map q'.withJoins)) ++ tail := by
  obtain ⟨rfl, hq'⟩ := Prod.mk.inj (hadded.symm.trans (addJoin_of_new hnew))
  have hclauses := findD_addJoin hnew hadded
  have hfresh := joinAlias_not_mem q table2
  have hself (heq : table1 = table2) : q.joinAlias table2 ≠ first := by
    rintro rfl
    exact alias?_zero_ne hfresh (heq ▸ hfirst)
  refine ⟨⟨fun hjoined => ⟨fun heq => ?_, hjoined.apart, ?_⟩, ?_⟩, ⟨hfresh, ?_⟩, ?_, ?_, ?_,
    statement_from q'⟩
  -- joined onto itself, the clause is attached to the new alias and not to the old one
  · have hrecorded := hjoined.recorded
    subst heq
    rw [hclauses, joinOnto_self, if_neg hjoined.apart, List.append_cancel_left_eq] at hrecorded
    cases hrecorded
  · obtain ⟨front, entry, back, htables, rfl, -⟩ := hjoined.behind
    rw [htables]
    exact List.mem_map_of_mem (List.mem_append_right _ List.mem_cons_self)
  · rintro ⟨hne, hapart, hentry⟩
    have honto : q.joinOnto table1 table2 = first := by
      rw [joinOnto_of_ne hne, hfirst, Option.getD_some]
    exact joinedOnce_addJoin hnew hadded hdistinct hentry honto hwords hapart
  · rw [hq', alias?_zero]
    show ((q.recordAlias table2 (q.joinAlias table2)).aliases table2).getLast? = _
    rw [aliases_recordAlias, List.getLast?_concat]
  · rintro (heq | hname)
    · exact hself heq
    · exact fun heq => hname (heq ▸ isNameOf_joinAlias q table2)
  · rintro rfl
    rw [hclauses, joinOnto_self, if_pos rfl]
  · intro hnone
    rw [hq']
    exact tableList_addClause hnone _

/-! ## Joins onto objects -/

/-- Objects under their bare name. -/
def bareObjects : Query :=
  (new .generic "objects" "Node").addTable "objects" "objects" true

/-- Objects with their tags. -/
def tagged : Query :=
  (bareObjects.addJoin "objects" "INNER" "tags" "TABLE2.object_id = TABLE1.id" none).2

/-- The owner of an object. -/
def ownerClause : String := "TABLE1.owner_id = TABLE2.id"

/-- A second join onto an entry stands behind the first one. -/
theorem owners_joined :
    ((tagged.tables.map declaredName).Nodup ∧
      tagged.neededJoin? (joinName "objects" "LEFT" "users") = none ∧
      tagged.alias? "objects" 0 = some "objects" ∧ WordsApart ownerClause "objects") ∧
    JoinedOnce "LEFT" "users" ownerClause "objects" "users" tagged
      (tagged.addJoin "objects" "LEFT" "users" ownerClause none).2 ∧
    (tagged.addJoin "objects" "LEFT" "users" ownerClause none).2.tableList =
      "objects INNER JOIN tags ON tags.object_id = objects.id LEFT JOIN users ON " ++
        "objects.owner_id = users.id" := by
  have hdistinct : (tagged.tables.map declaredName).Nodup := by decide
  have hwords : WordsApart ownerClause "objects" :=
    wordsApart (by decide) ⟨'o', _, rfl, by decide⟩ ownerClause
  have hadded : tagged.addJoin "objects" "LEFT" "users" ownerClause none = ("users", _) := rfl
  have hjoined := (addJoin_joinedOnce_iff hdistinct rfl rfl hwords hadded).1
  exact ⟨⟨hdistinct, rfl, rfl, hwords⟩, hjoined.2 ⟨by decide, by decide, by decide⟩, by decide⟩

/-- The parent of an object. -/
def parentClause : String := "TABLE1.parent_id = TABLE2.id"

/-- Objects joined onto themselves. -/
def selfJoined : String × Query :=
  bareObjects.addJoin "objects" "INNER" "objects" parentClause none

/-- **A table that is joined onto itself is compared with itself, and no statement shows it.** The names and
the clause hold no other word to replace, and the entry of the table is the only one. -/
theorem self_join_lost :
    ((bareObjects.tables.map declaredName).Nodup ∧
      bareObjects.neededJoin? (joinName "objects" "INNER" "objects") = none ∧
      bareObjects.alias? "objects" 0 = some "objects" ∧ WordsApart parentClause "objects") ∧
    selfJoined.1 = "ob1" ∧
    ¬ JoinedOnce "INNER" "objects" parentClause "objects" "ob1" bareObjects selfJoined.2 ∧
    selfJoined.2.joinTables.findD "objects" [] = [] ∧
    selfJoined.2.joinTables.findD "ob1" [] = ["INNER JOIN objects AS ob1 ON ob1.parent_id = ob1.id"] ∧
    selfJoined.2.statement .find = "SELECT objects.* FROM objects" ∧
    selfJoined.2.statement .count = "SELECT COUNT(*) FROM objects" := by
  have hdistinct : (bareObjects.tables.map declaredName).Nodup := by decide
  have hwords : WordsApart parentClause "objects" := by decide
  have hlost : selfJoined.2.joinTables.findD "objects" [] = [] := by decide
  refine ⟨⟨hdistinct, rfl, rfl, hwords⟩, rfl, fun hjoined => ?_, hlost, by decide, by decide, by decide⟩
  have hrecorded := hlost.symm.trans hjoined.recorded
  exact absurd hrecorded (by decide)

/-- What is joined onto a joined table does not show, as no entry declares the tags. -/
example : (tagged.addJoin "tags" "LEFT" "words" "TABLE1.id = TABLE2.tag_id" none).2.tableList =
    tagged.tableList := by
  decide

end RelationSql.Query
