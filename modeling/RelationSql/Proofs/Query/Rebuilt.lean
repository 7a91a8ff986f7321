import Mathlib.Data.List.Forall2
import Mathlib.Data.List.Induction
import RelationSql.Proofs.Fragment.Reread
import RelationSql.Proofs.Query.Uses
import RelationSql.Proofs.Source.Delimited
import RelationSql.Query.Select

/-!
# What a query knows and what it can read back

A query keeps the aliases of its tables beside the table references and the selected keys beside the select
list. Both can be read back from the texts, and for what was added step by step the texts say all of it:
reading the aliases back changes nothing, and every reference is understood by all readers as it was meant
(`rebuildAliases_addUses`), and reading the keys back changes nothing, and each key has the field that it was
selected with last (`rebuildAttributes_selectAll`).
-/

namespace RelationSql.Query

open RelationSql.Fragment RelationSql.Text

/-! ## Uses of tables -/

/-- A use of a table under its own name. -/
structure Use where
  table : String
  avoidAlias : Bool
  deriving DecidableEq, Repr

/-- The query with a further use. -/
def Use.add (use : Use) (q : Query) : Query :=
  q.addTable use.table use.table use.avoidAlias

/-- The reference that the query chooses for a further use. -/
def Use.chosen (use : Use) (q : Query) : TableReference :=
  ⟨use.table, q.newAlias use.table use.table use.avoidAlias⟩

/-- The query with further uses, added in turn. -/
def addUses (q : Query) (uses : List Use) : Query :=
  uses.foldl (fun q use => use.add q) q

/-- The references that are chosen for some uses, each in its turn. -/
def chosen : List Use → Query → List TableReference
  | [], _ => []
  | use :: uses, q => use.chosen q :: chosen uses (use.add q)

/-- What is known of the tables, with one reference more. -/
def noted (known : Dictionary (List String)) (reference : TableReference) : Dictionary (List String) :=
  known.insert reference.table (known.findD reference.table [] ++ [reference.name])

variable {q : Query} {use : Use} {uses : List Use} {table : String}

/-! ### The aliases that are chosen -/

/-- A number behind the first letters of a word makes a word. -/
theorem oneWord_numbered (h : OneWord table) (n : Nat) : OneWord (numbered table n) := by
  have hdigits : Unbroken (Nat.toDigits 10 n) := fun c hc =>
    Source.isBlank_of_isDigit (Nat.isDigit_of_mem_toDigits (by decide) (by decide) hc)
  have hletters : Unbroken (table.toList.take 2) := fun c hc => h.unbroken c (List.mem_of_mem_take hc)
  constructor
  · intro hempty
    have hnil := congrArg String.toList hempty
    rw [toList_numbered, String.toList_empty, List.append_eq_nil_iff] at hnil
    exact Nat.toDigits_ne_nil hnil.2
  · rw [toList_numbered]
    exact List.forall_mem_append.2 ⟨hletters, hdigits⟩

/-- **The alias of a word is a word.** -/
theorem oneWord_newAlias (h : OneWord table) (avoidAlias : Bool) (q : Query) :
    OneWord (q.newAlias table table avoidAlias) := by
  unfold newAlias
  dsimp only
  split
  · exact h
  · split
    · exact oneWord_numbered h _
    · exact oneWord_numbered h _

theorem oneWord_of_mem_chosen (h : ∀ use ∈ uses, OneWord use.table) :
    ∀ {q : Query}, ∀ reference ∈ chosen uses q, OneWord reference.table ∧ OneWord reference.name := by
  induction uses with
  | nil => exact fun _ hmem => nomatch hmem
  | cons use uses ih =>
    obtain ⟨huse, huses⟩ := List.forall_mem_cons.1 h
    intro q
    exact List.forall_mem_cons.2 ⟨⟨huse, oneWord_newAlias huse _ q⟩, ih huses⟩

/-! ### What uses add -/

/-- The entries of `FROM` are these references, and what is known of the tables is their names. -/
structure MadeOf (references : List TableReference) (q : Query) : Prop where
  tables : q.tables = references.map TableReference.write
  known : q.tableAlias = references.foldl noted .empty

theorem madeOf_new (dialect : Dialect) (mainTable mainClass : String) :
    (new dialect mainTable mainClass).MadeOf [] :=
  ⟨rfl, rfl⟩

section MadeOf

variable {references : List TableReference}

/-- A use adds the reference that is chosen for it. -/
theorem MadeOf.add (h : q.MadeOf references) (use : Use) :
    (use.add q).MadeOf (references ++ [use.chosen q]) where
  tables := by
    show q.tables ++ [TableReference.write (use.chosen q)] = _
    rw [h.tables, List.map_append]
    rfl
  known := by
    rw [List.foldl_concat, ← h.known]
    rfl

/-- **Uses add the references that are chosen for them, in turn.** -/
theorem MadeOf.addUses (h : q.MadeOf references) (uses : List Use) :
    (q.addUses uses).MadeOf (references ++ chosen uses q) := by
  induction uses generalizing q references with
  | nil =>
    rw [chosen, List.append_nil]
    exact h
  | cons use uses ih =>
    have hrest := ih (h.add use)
    rw [List.append_assoc] at hrest
    exact hrest

/-- Entries are recorded as the references that they are understood as. -/
theorem foldl_noted_read {entries : List String} (h : List.Forall₂ Understood entries references)
    (known : Dictionary (List String)) :
    entries.foldl (fun known entry => noted known (TableReference.read entry)) known =
      references.foldl noted known := by
  induction h generalizing known with
  | nil => rfl
  | cons hentry _ ih =>
    rw [List.foldl_cons, List.foldl_cons, hentry.read]
    exact ih _

end MadeOf

/-- **The aliases of a query are what its table references say.** For any run of uses of tables whose names
are words, whatever was known of the tables before they are read back: the aliases read back are those that
the uses recorded, table by table and in their order, and all readers understand each entry as the table and
the alias that were chosen for it. -/
theorem rebuildAliases_addUses (dialect : Dialect) (mainTable mainClass : String)
    (huses : ∀ use ∈ uses, OneWord use.table) (known : Dictionary (List String)) :
    let start := new dialect mainTable mainClass
    let q := start.addUses uses
    ({ q with tableAlias := known }).rebuildAliases = q ∧
      q.tables = (chosen uses start).map TableReference.write ∧
      List.Forall₂ Understood q.tables (chosen uses start) := by
  intro start q
  have hmade : q.MadeOf (chosen uses start) := (madeOf_new dialect mainTable mainClass).addUses uses
  have hunderstood : List.Forall₂ Understood q.tables (chosen uses start) := by
    rw [hmade.tables, List.forall₂_map_left_iff, List.forall₂_same]
    intro reference hmem
    obtain ⟨htable, hname⟩ := oneWord_of_mem_chosen huses reference hmem
    exact understood_write htable hname
  refine ⟨?_, hmade.tables, hunderstood⟩
  have hread : ({ q with tableAlias := known }).rebuildAliases =
      { q with tableAlias := (chosen uses start).foldl noted .empty } :=
    congrArg (fun known => { q with tableAlias := known }) (foldl_noted_read hunderstood .empty)
  rw [hread, ← hmade.known]

/-- Uses of a table that is named like the word of a reference, and of another one. -/
def wordyUses : List Use :=
  [⟨"AS", false⟩, ⟨"AS", true⟩, ⟨"objects", true⟩, ⟨"objects", false⟩]

/-- Tables may be named like the word that stands in their references. -/
theorem wordyUses_reread :
    (∀ use ∈ wordyUses, OneWord use.table) ∧
    let q := (new .generic "objects" "Node").addUses wordyUses
    ({ q with tableAlias := .empty }).rebuildAliases = q ∧
      q.tables = ["AS AS AS1", "AS", "objects", "objects AS ob1"] := by
  have hwords : ∀ use ∈ wordyUses, OneWord use.table := by decide
  exact ⟨hwords, (rebuildAliases_addUses .generic "objects" "Node" hwords .empty).1, by decide⟩

/-! ## Selected keys -/

/-- A field that is selected under the key of a declaration. -/
structure Selection where
  field : String
  declaration : String
  deriving DecidableEq, Repr

/-- The query with further selections, made in turn. -/
def selectAll (q : Query) (selections : List Selection) : Query :=
  selections.foldl (fun q s => q.addSelect s.field s.declaration) q

/-- A declaration is a key, or a key and its type with a colon between them. The last colon counts. -/
inductive DeclaresKey (key : String) : String → Prop where
  | untyped (none : ':' ∉ key.toList) : DeclaresKey key key
  | typed {type : String} (none : ':' ∉ type.toList) : DeclaresKey key (key ++ ":" ++ type)

/-- The field is the one under which the key was selected last. -/
def SelectedLast (key field : String) (selections : List Selection) : Prop :=
  ∃ front declaration back, selections = front ++ ⟨field, declaration⟩ :: back ∧
    DeclaresKey key declaration ∧ ∀ later ∈ back, ¬ DeclaresKey key later.declaration

/-- A selection whose item can be read back: its field stands on one line, and its key has no blanks and does
not hold the quote character. -/
structure Selection.Legible (quote : Char) (s : Selection) : Prop where
  line : '\n' ∉ s.field.toList
  key : ∃ key, DeclaresKey key s.declaration ∧ Unbroken key.toList ∧ quote ∉ key.toList

/-! ### Declarations -/

theorem keyAndType_of_not_mem {key : String} (h : ':' ∉ key.toList) : keyAndType key = (key, none) := by
  rw [keyAndType, splitLast?_eq_none_iff.2 h]

theorem keyAndType_typed {type : String} (h : ':' ∉ type.toList) (key : String) :
    keyAndType (key ++ ":" ++ type) = (key, some type) := by
  have htext : (key ++ ":" ++ type).toList = key.toList ++ ':' :: type.toList := by simp
  rw [keyAndType, htext, splitLast?_append h]
  dsimp only
  rw [String.ofList_toList, String.ofList_toList]

/-- **Every declaration declares one key**, the one that is taken out of it. -/
theorem declares_iff {key declaration : String} :
    DeclaresKey key declaration ↔ (keyAndType declaration).1 = key := by
  constructor
  · rintro (hnone | hnone)
    · rw [keyAndType_of_not_mem hnone]
    · rw [keyAndType_typed hnone]
  · rintro rfl
    cases hsplit : splitLast? ':' declaration.toList with
    | none =>
      have hnone := splitLast?_eq_none_iff.1 hsplit
      rw [keyAndType_of_not_mem hnone]
      exact .untyped hnone
    | some parts =>
      obtain ⟨htext, hnone⟩ := splitLast?_eq_some hsplit
      have hdeclaration : declaration = String.ofList parts.1 ++ ":" ++ String.ofList parts.2 := by
        apply String.toList_injective
        rw [htext]
        simp
      have htype : ':' ∉ (String.ofList parts.2).toList := by rwa [String.toList_ofList]
      rw [hdeclaration, keyAndType_typed htype]
      exact .typed htype

/-- The key of a selection. -/
def Selection.key (s : Selection) : String :=
  (keyAndType s.declaration).1

theorem declares_declaration_iff {key : String} (s : Selection) :
    DeclaresKey key s.declaration ↔ s.key = key :=
  declares_iff

theorem legible_iff {quote : Char} {s : Selection} :
    s.Legible quote ↔ '\n' ∉ s.field.toList ∧ Unbroken s.key.toList ∧ quote ∉ s.key.toList := by
  constructor
  · rintro ⟨hline, key, hkey, hunbroken, hplain⟩
    obtain rfl := (declares_declaration_iff s).1 hkey
    exact ⟨hline, hunbroken, hplain⟩
  · rintro ⟨hline, hunbroken, hplain⟩
    exact ⟨hline, s.key, (declares_declaration_iff s).2 rfl, hunbroken, hplain⟩

instance (quote : Char) (s : Selection) : Decidable (s.Legible quote) :=
  decidable_of_iff _ legible_iff.symm

/-! ### What selections add -/

/-- The item of a selection in the select list. -/
def Selection.item (dialect : Dialect) (s : Selection) : String :=
  s.field ++ " AS " ++ dialect.quoteIdentifier s.key

section Selections

variable {selections : List Selection} {s : Selection} {key field : String}

/-- Selections add their items to the list, and their fields under their keys, in turn. -/
structure Selects (selections : List Selection) (q q' : Query) : Prop where
  dialect : q'.dialect = q.dialect
  mainTable : q'.mainTable = q.mainTable
  items : q'.selectItems = q.selectItems ++ selections.map (Selection.item q.dialect)
  attributes : q'.attributes =
    selections.foldl (fun attributes s => attributes.insert s.key s.field) q.attributes

theorem selects_addSelect (s : Selection) (q : Query) :
    Selects [s] q (q.addSelect s.field s.declaration) := by
  unfold addSelect declareType
  dsimp only
  cases (keyAndType s.declaration).2 with
  | none => exact ⟨rfl, rfl, rfl, rfl⟩
  | some type => exact ⟨rfl, rfl, rfl, rfl⟩

theorem Selects.append {further : List Selection} {q q' q'' : Query} (h : Selects selections q q')
    (h' : Selects further q' q'') : Selects (selections ++ further) q q'' where
  dialect := h'.dialect.trans h.dialect
  mainTable := h'.mainTable.trans h.mainTable
  items := by rw [h'.items, h.items, h.dialect, List.map_append, List.append_assoc]
  attributes := by rw [h'.attributes, h.attributes, List.foldl_append]

theorem selects_selectAll (selections : List Selection) (q : Query) :
    Selects selections q (q.selectAll selections) := by
  induction selections generalizing q with
  | nil => exact ⟨rfl, rfl, (List.append_nil _).symm, rfl⟩
  | cons s selections ih => exact (selects_addSelect s q).append (ih _)

/-! ### Items read back -/

/-- An item that can be read back gives its key and its field. -/
theorem Selection.Legible.selectedKey? {dialect : Dialect} (h : s.Legible dialect.quote)
    (hquote : dialect.quote ∈ quoteMarks) : selectedKey? (s.item dialect) = some (s.key, s.field) := by
  obtain ⟨hline, hunbroken, hplain⟩ := legible_iff.1 h
  exact selectedKey?_written hquote hline hunbroken hplain

/-- A query without selections has no item with a key. -/
theorem filterMap_select (q : Query) (hmain : Unbroken q.mainTable.toList) :
    (q.select.getD []).filterMap selectedKey? = q.selectItems.filterMap selectedKey? := by
  unfold selectItems
  cases q.select with
  | some items => rfl
  | none =>
    rw [Option.getD_none, Option.getD_none, List.filterMap_cons, selectedKey?_all hmain]

theorem filterMap_items {dialect : Dialect} (hquote : dialect.quote ∈ quoteMarks)
    (h : ∀ s ∈ selections, s.Legible dialect.quote) :
    (selections.map (Selection.item dialect)).filterMap selectedKey? =
      selections.map fun s => (s.key, s.field) := by
  rw [List.filterMap_map, ← List.filterMap_eq_map]
  exact List.filterMap_congr fun s hs => (h s hs).selectedKey? hquote

/-! ### The last selection of a key -/

theorem not_selectedLast_nil : ¬ SelectedLast key field [] := by
  rintro ⟨front, declaration, back, heq, -, -⟩
  exact List.append_ne_nil_of_right_ne_nil _ (List.cons_ne_nil _ _) heq.symm

/-- A further selection is the last one of its own key, and no selection of another key. -/
theorem selectedLast_concat :
    SelectedLast key field (selections ++ [s]) ↔
      if s.key = key then s.field = field else SelectedLast key field selections := by
  constructor
  · rintro ⟨front, declaration, back, heq, hdeclares, hlater⟩
    rcases back.eq_nil_or_concat with rfl | ⟨back, last, rfl⟩
    · obtain ⟨-, hlast⟩ := List.append_inj' heq rfl
      cases hlast
      rw [if_pos ((declares_declaration_iff _).1 hdeclares)]
    · rw [List.concat_eq_append] at heq hlater
      rw [← List.cons_append, ← List.append_assoc] at heq
      obtain ⟨rfl, hlast⟩ := List.append_inj' heq rfl
      cases hlast
      obtain ⟨hback, hs⟩ := List.forall_mem_append.1 hlater
      rw [if_neg fun hkey => hs s List.mem_cons_self ((declares_declaration_iff s).2 hkey)]
      exact ⟨front, declaration, back, rfl, hdeclares, hback⟩
  · split
    · next hkey =>
      rintro rfl
      exact ⟨selections, s.declaration, [], rfl, (declares_declaration_iff s).2 hkey, nofun⟩
    · next hkey =>
      rintro ⟨front, declaration, back, rfl, hdeclares, hback⟩
      refine ⟨front, declaration, back ++ [s], by simp, hdeclares, ?_⟩
      refine List.forall_mem_append.2 ⟨hback, List.forall_mem_singleton.2 fun hs => ?_⟩
      exact hkey ((declares_declaration_iff s).1 hs)

/-- **Selections leave each key with the field that it was selected with last**, and no other key. -/
theorem find?_selections (selections : List Selection) :
    (selections.foldl (fun attributes s => attributes.insert s.key s.field)
      (.empty : Dictionary String)).find? key = some field ↔ SelectedLast key field selections := by
  induction selections using List.reverseRecOn with
  | nil => exact iff_of_false nofun not_selectedLast_nil
  | append_singleton selections s ih =>
    rw [List.foldl_concat, Dictionary.find?_insert, selectedLast_concat, ← ih]
    split
    · exact Option.some_inj
    · rfl

end Selections

/-- **The selected keys of a query are what its select list says.** For any run of selections from a table
without blanks, of fields on one line under keys without blanks and quote characters, and whatever was known
of the keys before they are read back: the keys read back are those that the selections recorded, each with
the field that it was selected with last. The fields may hold an ` AS `, stars, blanks at their ends or
nothing, and the keys may declare types. -/
theorem rebuildAttributes_selectAll {dialect : Dialect} (hquote : dialect.quote ∈ quoteMarks)
    {mainTable : String} (hmain : Unbroken mainTable.toList) (mainClass : String)
    {selections : List Selection} (hselections : ∀ s ∈ selections, s.Legible dialect.quote)
    (known : Dictionary String) :
    let q := (new dialect mainTable mainClass).selectAll selections
    ({ q with attributes := known }).rebuildAttributes = q ∧
      ∀ key field, q.attributes.find? key = some field ↔ SelectedLast key field selections := by
  intro q
  have hselects := selects_selectAll selections (new dialect mainTable mainClass)
  have hattributes : q.attributes =
      selections.foldl (fun attributes s => attributes.insert s.key s.field) .empty :=
    hselects.attributes
  refine ⟨?_, fun key field => ?_⟩
  · have hkeys : (q.select.getD []).filterMap selectedKey? =
        selections.map fun s => (s.key, s.field) := by
      have hq : Unbroken q.mainTable.toList := hselects.mainTable ▸ hmain
      have hitems : q.selectItems = (mainTable ++ ".*") :: selections.map (Selection.item dialect) :=
        hselects.items
      rw [filterMap_select q hq, hitems, List.filterMap_cons, selectedKey?_all hmain]
      exact filterMap_items hquote hselections
    have hread : ({ q with attributes := known }).rebuildAttributes =
        { q with attributes := .ofList (selections.map fun s => (s.key, s.field)) } :=
      congrArg (fun entries => { q with attributes := .ofList entries }) hkeys
    rw [hread, Dictionary.ofList, List.foldl_map, ← hattributes]
  · rw [hattributes]
    exact find?_selections selections

/-- Fields that hold an `AS`, end with a blank or are empty, and a key that is selected twice. -/
def castSelections : List Selection :=
  [⟨"CAST(a AS b)", "size:number"⟩, ⟨" ", "none"⟩, ⟨"x AS \"y\" ", "size"⟩, ⟨"", "a:b:text"⟩]

/-- Such fields are read back under their keys. -/
theorem castSelections_reread :
    (Dialect.generic.quote ∈ quoteMarks ∧ Unbroken "objects".toList ∧
      ∀ s ∈ castSelections, s.Legible Dialect.generic.quote) ∧
    let q := (new .generic "objects" "Node").selectAll castSelections
    ({ q with attributes := .empty }).rebuildAttributes = q ∧
      q.attributes.entries = [("a:b", ""), ("none", " "), ("size", "x AS \"y\" ")] := by
  have hquote : Dialect.generic.quote ∈ quoteMarks := by decide
  have hmain : Unbroken "objects".toList := by decide
  have hlegible : ∀ s ∈ castSelections, s.Legible Dialect.generic.quote := by decide
  exact ⟨⟨hquote, hmain, hlegible⟩,
    (rebuildAttributes_selectAll hquote hmain "Node" hlegible .empty).1, by decide⟩

end RelationSql.Query
