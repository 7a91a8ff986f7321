import Mathlib.Data.Option.Basic
import Mathlib.Tactic.Common
import RelationSql.Proofs.Fragment.Lacks
import RelationSql.Proofs.Fragment.Taken
import RelationSql.Query.Statement

/-!
# Queries over a class of texts

What a query holds apart from its conditions are names, and the texts of joins and pages. A query is over
a class if its names are texts of the class and the other texts have a property of their own
(`Query.Over`). Adding tables stays over the class, and the parts of a statement that are made of names
are texts of it.
-/

namespace RelationSql

open RelationSql.Fragment

/-! ## What is read back -/

/-- The name in a reference is in the class of the reference. -/
theorem Fragment.lacks_read {excluded : List Char} {text : String} (h : Lacks excluded text) :
    Lacks excluded (TableReference.read text).name := by
  unfold TableReference.read
  split
  · next c cs name hcut =>
    apply h.of_subset
    rw [String.toList_ofList]
    exact (subset_of_cutAtWord? hcut).2
  · exact h

/-- The expression of a selected key is in the class of its item. -/
theorem Fragment.lacks_of_selectedKey? {excluded : List Char} {item key expression : String}
    (h : Lacks excluded item) (hkey : selectedKey? item = some (key, expression)) :
    Lacks excluded expression := by
  unfold selectedKey? at hkey
  split at hkey
  · next before rest hcut =>
    cases hkey
    apply h.of_subset
    rw [String.toList_ofList]
    exact (subset_of_cutAtWord? hcut).1
  · obtain ⟨column, -, heq⟩ := Option.map_eq_some_iff.1 hkey
    cases heq
    exact h

/-! ## Dictionaries -/

/-- Every value of the dictionary satisfies `Q`. -/
def Dictionary.All {α : Type} (Q : α → Prop) (d : Dictionary α) : Prop :=
  ∀ entry ∈ d.entries, Q entry.2

namespace Dictionary.All

variable {α : Type} {Q : α → Prop} {d : Dictionary α}

theorem empty : (Dictionary.empty : Dictionary α).All Q := by
  intro entry hentry
  cases hentry

theorem find? (h : d.All Q) {key : String} {value : α} (hvalue : d.find? key = some value) : Q value :=
  h _ (Dictionary.mem_of_findIn hvalue)

theorem findD (h : d.All Q) (key : String) {fallback : α} (hfallback : Q fallback) :
    Q (d.findD key fallback) := by
  unfold Dictionary.findD
  cases hvalue : d.find? key with
  | none => exact hfallback
  | some value => exact h.find? hvalue

theorem insert (h : d.All Q) (key : String) {value : α} (hvalue : Q value) :
    (d.insert key value).All Q := by
  intro entry hentry
  rcases Dictionary.mem_insertIn hentry with rfl | hentry
  · exact hvalue
  · exact h entry hentry

theorem alter (h : d.All Q) (key : String) {f : Option α → α}
    (hf : ∀ old, (∀ value ∈ old, Q value) → Q (f old)) : (d.alter key f).All Q :=
  h.insert key (hf _ fun _ hvalue => h.find? hvalue)

theorem insertNew (h : d.All Q) (key : String) {value : α} (hvalue : Q value) :
    (d.insertNew key value).All Q := by
  unfold Dictionary.insertNew
  split
  · exact h
  · exact h.insert key hvalue

/-- A dictionary that is built entry by entry. -/
theorem foldl {β : Type} {step : Dictionary α → β → Dictionary α} {items : List β}
    (hstep : ∀ d item, item ∈ items → d.All Q → (step d item).All Q) (h : d.All Q) :
    (items.foldl step d).All Q := by
  induction items generalizing d with
  | nil => exact h
  | cons item items ih =>
    exact ih (fun d other hother => hstep d other (List.mem_cons_of_mem _ hother))
      (hstep d item List.mem_cons_self h)

/-- A dictionary of listed entries. -/
theorem ofList {entries : List (String × α)} (h : ∀ entry ∈ entries, Q entry.2) :
    (Dictionary.ofList entries).All Q :=
  foldl (fun _ entry hentry hd => hd.insert entry.1 (h entry hentry)) empty

end Dictionary.All

namespace Query

/-! ## Queries -/

/-- All that the query holds apart from its conditions: its names are in the class, and what joins and
pages write has the property. -/
structure Over (excluded : List Char) (T : String → Prop) (q : Query) : Prop where
  mainTable : Lacks excluded q.mainTable
  tables : ∀ reference ∈ q.tables, Lacks excluded reference
  aliases : q.tableAlias.All fun names => ∀ name ∈ names, Lacks excluded name
  joins : q.joinTables.All fun joins => ∀ join ∈ joins, T join
  neededJoins : q.neededJoins.All fun names => names.All (Lacks excluded)
  keyValues : q.keyValueTables.All fun tables => tables.All fun keys => keys.All (Lacks excluded)
  select : ∀ items ∈ q.select, ∀ item ∈ items, Lacks excluded item
  order : ∀ text ∈ q.order, Lacks excluded text
  group : ∀ text ∈ q.group, Lacks excluded text
  limit : ∀ text ∈ q.limit, Lacks excluded text
  offset : ∀ text ∈ q.offset, T text
  attributes : q.attributes.All (Lacks excluded)

/-- The empty query over a table. -/
theorem over_new {excluded : List Char} {T : String → Prop} {mainTable : String}
    (h : Lacks excluded mainTable) (dialect : Dialect) (mainClass : String) :
    (Query.new dialect mainTable mainClass).Over excluded T where
  mainTable := h
  tables := fun _ hmem => nomatch hmem
  aliases := .empty
  joins := .empty
  neededJoins := .empty
  keyValues := .empty
  select := fun _ hsome => nomatch hsome
  order := fun _ hsome => nomatch hsome
  group := fun _ hsome => nomatch hsome
  limit := fun _ hsome => nomatch hsome
  offset := fun _ hsome => nomatch hsome
  attributes := .empty

namespace Over

variable {excluded : List Char} {T : String → Prop} {q : Query} (h : q.Over excluded T)

section Names

include h

/-- The names of a table are in the class. -/
theorem alias? {table name : String} {index : Int} (hname : q.alias? table index = some name) :
    Lacks excluded name := by
  have hknown : ∀ name ∈ q.aliases table, Lacks excluded name := h.aliases.findD table (by simp)
  unfold Query.alias? at hname
  dsimp only at hname
  split at hname
  · exact hknown name (List.mem_of_getElem? hname)
  · split at hname
    · exact hknown name (List.mem_of_getElem? hname)
    · cases hname

theorem currentTable : Lacks excluded q.currentTable := by
  unfold Query.currentTable
  cases hname : q.alias? q.mainTable 0 with
  | none => exact h.mainTable
  | some name => exact h.alias? hname

/-! ### Additions -/

theorem addFilter (filter : String) : (q.addFilter filter).Over excluded T := by
  obtain ⟨_⟩ := h
  constructor <;> assumption

theorem recordAlias (table : String) {name : String} (hname : Lacks excluded name) :
    (q.recordAlias table name).Over excluded T := by
  have hnames : ∀ other ∈ q.aliases table ++ [name], Lacks excluded other := by
    have hknown : ∀ name ∈ q.aliases table, Lacks excluded name := h.aliases.findD table (by simp)
    simpa [or_imp, forall_and] using And.intro hknown hname
  exact { h with aliases := h.aliases.insert table hnames }

variable (hclass : IsClass excluded)
include hclass

theorem addTable {use table : String} (huse : Lacks excluded use) (htable : Lacks excluded table)
    (avoidAlias : Bool) : (q.addTable use table avoidAlias).Over excluded T := by
  have hname := lacks_newAlias hclass huse q table avoidAlias
  have hrecorded := h.recordAlias use hname
  have htables : ∀ reference ∈ (q.recordAlias use (q.newAlias use table avoidAlias)).tables ++
      [TableReference.write ⟨table, q.newAlias use table avoidAlias⟩], Lacks excluded reference := by
    simpa [or_imp, forall_and] using And.intro hrecorded.tables (lacks_write hclass htable hname)
  exact { hrecorded with tables := htables }

/-! ## Parts of a statement -/

theorem distinctKey : Lacks excluded q.distinctKey := by
  unfold Query.distinctKey
  split
  · exact h.mainTable.append (hclass.word (by decide))
  · exact hclass.word (by decide)

omit h in
theorem lacks_getD {text : Option String} (htext : ∀ t ∈ text, Lacks excluded t) :
    Lacks excluded (text.getD "") := by
  cases text with
  | none => exact hclass.word (by decide)
  | some text => exact htext text rfl

theorem distinctClause : Lacks excluded q.distinctClause := by
  have hkeys : Lacks excluded q.distinctOnKeys := by
    apply lacks_joinWith (hclass.word (by decide))
    apply List.forall_mem_cons.2 ⟨h.distinctKey hclass, ?_⟩
    rintro key hkey
    obtain ⟨written, hwritten, rfl⟩ := List.mem_map.1 hkey
    apply (lacks_getD hclass h.order).of_subset
    rw [String.toList_ofList]
    exact subset_of_mem_orderKeys hwritten
  unfold Query.distinctClause
  split
  · exact ((hclass.word (by decide)).append hkeys).append (hclass.word (by decide))
  · exact hclass.word (by decide)

theorem groupClause : Lacks excluded q.groupClause := by
  unfold Query.groupClause
  split
  · exact (hclass.word (by decide)).append (h.distinctKey hclass)
  · exact lacks_getD hclass h.group

theorem selectItems : ∀ item ∈ q.selectItems, Lacks excluded item := by
  unfold Query.selectItems
  cases hselect : q.select with
  | none => exact List.forall_mem_singleton.2 (h.mainTable.append (hclass.word (by decide)))
  | some items => exact h.select items hselect

theorem counted : Lacks excluded q.counted := by
  unfold Query.counted
  split
  · next body hbody =>
    obtain ⟨group, hgroup, hbody⟩ := Option.bind_eq_some_iff.1 hbody
    have hfields : Lacks excluded (countedFields body) := by
      apply lacks_joinWith (hclass.word (by decide))
      intro text htext
      obtain ⟨field, hfield, rfl⟩ := List.mem_map.1 htext
      have htrimmed : Lacks excluded (String.ofList (Text.trimBy Text.isBlank field)) := by
        apply (h.group group hgroup).of_subset
        rw [String.toList_ofList]
        calc Text.trimBy Text.isBlank field
            ⊆ field := trimBy_subset _ _
          _ ⊆ body := subset_of_mem_splitAt hfield
          _ ⊆ group.toList := subset_of_groupBody? hbody
      exact ((hclass.word (by decide)).append htrimmed).append (hclass.word (by decide))
    exact ((hclass.word (by decide)).append hfields).append (hclass.word (by decide))
  · split
    · exact ((hclass.word (by decide)).append h.currentTable).append (hclass.word (by decide))
    · exact hclass.word (by decide)

end Names

include h in
/-- The table references with their joins, for a property of texts that goes through joined texts. -/
theorem tableList (hname : ∀ text, Lacks excluded text → T text)
    (happend : ∀ text rest, T text → T rest → T (text ++ rest)) (hclass : IsClass excluded) :
    T q.tableList := by
  have hjoin {separator : String} (hseparator : Lacks excluded separator) {texts : List String}
      (htexts : ∀ text ∈ texts, T text) : T (Text.joinWith separator texts) := by
    fun_induction Text.joinWith separator texts with
    | case1 => exact hname _ (hclass.word (by decide))
    | case2 text => exact htexts text List.mem_cons_self
    | case3 text texts _ ih =>
      rw [List.forall_mem_cons] at htexts
      exact happend _ _ (happend _ _ htexts.1 (hname _ hseparator)) (ih htexts.2)
  have hwith : ∀ reference ∈ q.tables, T (q.withJoins reference) := by
    intro reference hreference
    unfold Query.withJoins
    split
    · exact hname _ (h.tables reference hreference)
    · next joins _ =>
      have hjoins : ∀ join ∈ q.joinTables.findD (declaredName reference) [], T join :=
        h.joins.findD _ (by simp)
      exact happend _ _ (happend _ _ (hname _ (h.tables reference hreference))
        (hname _ (hclass.word (by decide)))) (hjoin (hclass.word (by decide)) hjoins)
  refine hjoin (hclass.word (by decide)) fun text htext => ?_
  obtain ⟨reference, hreference, rfl⟩ :=
    List.mem_map.1 ((Text.perm_ascending (q.tables.map q.withJoins)).mem_iff.1 htext)
  exact hwith reference hreference

end Over

end Query

end RelationSql
