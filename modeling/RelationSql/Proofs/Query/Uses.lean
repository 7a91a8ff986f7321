import Mathlib.Tactic.Common
import RelationSql.Query.Alias

/-!
# Uses of the main table

Each relation of a chain uses the main table once more. The uses are numbered from the innermost
relation on, and only the outermost one has the bare name (`UsedAs.inner`, `UsedAs.outer`). A use is
compared with the one right before it, which the aliases of the query remember.
-/

namespace RelationSql.Query

open RelationSql.Fragment (TableReference)

/-- The main table is used under these names and no others, and no other table is. -/
structure UsedAs (names : List String) (q : Query) : Prop where
  aliases : q.aliases q.mainTable = names
  tables : q.tables = names.map fun name => TableReference.write ⟨q.mainTable, name⟩

/-- The names of the first uses. -/
def numberedNames (table : String) (count : Nat) : List String :=
  (List.range count).map fun i => numbered table (i + 1)

theorem numberedNames_succ (table : String) (count : Nat) :
    numberedNames table (count + 1) = numberedNames table count ++ [numbered table (count + 1)] := by
  rw [numberedNames, List.range_succ, List.map_append]
  rfl

theorem getLast?_numberedNames_succ (table : String) (count : Nat) :
    (numberedNames table (count + 1)).getLast? = some (numbered table (count + 1)) := by
  rw [numberedNames_succ, List.getLast?_concat]

theorem toList_numbered (table : String) (n : Nat) :
    (numbered table n).toList = table.toList.take 2 ++ Nat.toDigits 10 n := by
  have hdigits : (toString n).toList = Nat.toDigits 10 n := by simp [toString, Nat.repr]
  rw [numbered, String.toList_append, String.toList_ofList, hdigits]

/-- **A name is no numbered one of itself** unless it is its own first two letters and digits. -/
theorem numbered_ne {table : String}
    (h : table.toList.drop 2 ≠ [] → ∃ c ∈ table.toList.drop 2, c.isDigit = false) (n : Nat) :
    numbered table n ≠ table := by
  intro heq
  have hlist : table.toList.take 2 ++ Nat.toDigits 10 n = table.toList.take 2 ++ table.toList.drop 2 := by
    rw [List.take_append_drop, ← toList_numbered, heq]
  have hdrop := List.append_cancel_left hlist
  rw [← hdrop] at h
  obtain ⟨c, hc, hletter⟩ := h Nat.toDigits_ne_nil
  rw [Nat.isDigit_of_mem_toDigits (by decide) (by decide) hc] at hletter
  cases hletter

/-- A table under another name is written with an `AS`. -/
theorem write_of_ne {table name : String} (h : name ≠ table) :
    TableReference.write ⟨table, name⟩ = table ++ " AS " ++ name := by
  rw [TableReference.write, if_neg h]

/-- A table under another name is not written as its bare name. -/
theorem write_ne_bare {table name : String} (h : name ≠ table) :
    TableReference.write ⟨table, name⟩ ≠ table := by
  rw [write_of_ne h]
  intro heq
  have hlength := congrArg String.length heq
  simp only [String.length_append] at hlength
  have hword : " AS ".length = 4 := by decide
  omega

/-- What is known of a table after a further use. -/
theorem aliases_addTable (use table : String) (avoidAlias : Bool) (q : Query) :
    (q.addTable use table avoidAlias).aliases use =
      q.aliases use ++ [q.newAlias use table avoidAlias] := by
  simp [addTable, recordAlias, aliases, Dictionary.findD, Dictionary.find?_insert_self]

/-- The newest alias of a table. -/
theorem alias?_zero (q : Query) (table : String) :
    q.alias? table 0 = (q.aliases table).getLast? := by
  have hback : (1 - (0 : Int)).toNat = 1 := rfl
  rw [alias?, if_neg (by decide), hback, List.getLast?_eq_getElem?]
  dsimp only
  split
  · rfl
  · next hempty =>
    rw [List.getElem?_eq_none (by omega)]

/-- The alias of a table before the newest. -/
theorem alias?_neg_one (q : Query) (table : String) :
    q.alias? table (-1) = (q.aliases table).dropLast.getLast? := by
  have hback : (1 - (-1 : Int)).toNat = 2 := rfl
  rw [alias?, if_neg (by decide), hback, List.getLast?_eq_getElem?, List.length_dropLast]
  dsimp only
  split
  · next hlength =>
    rw [List.getElem?_dropLast, if_pos (by omega)]
    congr 1
  · next hshort =>
    rw [List.getElem?_eq_none]
    rw [List.length_dropLast]
    omega

variable {q : Query} {count : Nat}

/-- While all uses are numbered, no entry has the bare name. -/
theorem UsedAs.not_mem (h : q.UsedAs (numberedNames q.mainTable count))
    (hfree : ∀ n, numbered q.mainTable n ≠ q.mainTable) : q.mainTable ∉ q.tables := by
  rw [h.tables]
  simp only [numberedNames, List.map_map, List.mem_map, not_exists, not_and]
  rintro i -
  exact write_ne_bare (hfree _)

/-- A further use of the main table adds its name behind the others. -/
theorem UsedAs.addTable {names : List String} (h : q.UsedAs names) {avoidAlias : Bool} {name : String}
    (hname : q.newAlias q.mainTable q.mainTable avoidAlias = name) :
    (q.addTable q.mainTable q.mainTable avoidAlias).UsedAs (names ++ [name]) where
  aliases := by
    have haliases := aliases_addTable q.mainTable q.mainTable avoidAlias q
    rw [h.aliases, hname] at haliases
    exact haliases
  tables := by
    have htables : (q.addTable q.mainTable q.mainTable avoidAlias).tables =
        q.tables ++ [TableReference.write ⟨q.mainTable, name⟩] := by
      rw [← hname]
      rfl
    rw [htables, h.tables, List.map_append]
    rfl

/-- A use that is not the outermost is numbered. -/
theorem UsedAs.inner (h : q.UsedAs (numberedNames q.mainTable count))
    (hfree : ∀ n, numbered q.mainTable n ≠ q.mainTable) :
    (q.addTable q.mainTable q.mainTable false).UsedAs (numberedNames q.mainTable (count + 1)) := by
  rw [numberedNames_succ]
  apply h.addTable
  have hmem := h.not_mem hfree
  simp [newAlias, hmem, h.aliases, numberedNames]

/-- The outermost use has the bare name. -/
theorem UsedAs.outer (h : q.UsedAs (numberedNames q.mainTable count))
    (hfree : ∀ n, numbered q.mainTable n ≠ q.mainTable) :
    (q.addTable q.mainTable q.mainTable true).UsedAs
      (numberedNames q.mainTable count ++ [q.mainTable]) := by
  apply h.addTable
  have hmem := h.not_mem hfree
  simp [newAlias, hmem]

/-- A condition adds no use. -/
theorem UsedAs.addFilter {names : List String} (h : q.UsedAs names) (text : String) :
    (q.addFilter text).UsedAs names :=
  ⟨h.aliases, h.tables⟩

end RelationSql.Query
