import Mathlib.Tactic.Common
import RelationSql.Catalog
import RelationSql.Proofs.Walk.Phrase

/-!
# The conditions of a query side by side

The filters of a query are joined by `AND` as they are. Where they come from conditions of the source
and from scopes, the joined text is read as the conjunction of the filters exactly if each filter can
be read and none of several comes from a condition with `xor` or `:=` at its root
(`compile_conjoins_iff`). Alternatives do no harm, since they bring parentheses of their own.
-/

namespace RelationSql

open Grammar Source WalkM

/-! ## Fragments -/

/-- The words of fragments with an `AND` between neighbours. -/
def joinedWords : List (List Word) → List Word
  | [] => []
  | [words] => words
  | words :: more => words ++ .operator .and :: joinedWords more

/-- Joined fragments are laid out as their texts with an ` AND ` between neighbours. -/
theorem layout_joinedWords (fragments : List (List Word)) :
    Word.layout (joinedWords fragments) = Text.joinWith " AND " (fragments.map Word.layout) := by
  induction fragments with
  | nil => rfl
  | cons words more ih =>
    cases more with
    | nil => rfl
    | cons next more =>
      have hwords : joinedWords (words :: next :: more) =
          words ++ .operator .and :: joinedWords (next :: more) := rfl
      rw [hwords, Word.layout_append, Word.layout_cons, ih, ← String.append_assoc]
      rfl

/-- Texts taken apart into the words of the conditions that they are rendered from. -/
structure Fragments (trees : List Tree) (texts : List String) (fragments : List (List Word)) :
    Prop where
  phrases : List.Forall₂ (fun t words => Phrase [t] words) trees fragments
  texts : texts = fragments.map Word.layout

/-- Every fragment is a phrase. -/
theorem exists_phrase {trees : List Tree} {fragments : List (List Word)}
    (h : List.Forall₂ (fun t words => Phrase [t] words) trees fragments) :
    ∀ words ∈ fragments, ∃ t, Phrase [t] words := by
  induction h with
  | nil => simp
  | cons hphrase _ ih => exact List.forall_mem_cons.2 ⟨⟨_, hphrase⟩, ih⟩

/-- The fragments with a loose operator are those of the conditions with a bare one. -/
theorem tight_iff {trees : List Tree} {fragments : List (List Word)}
    (h : List.Forall₂ (fun t words => Phrase [t] words) trees fragments)
    (hshaped : ∀ t ∈ trees, Shaped t) :
    (∀ words ∈ fragments, isLooseAmong words = false) ↔ ∀ t ∈ trees, isBareLoose t = false := by
  induction h with
  | nil => simp
  | cons hphrase _ ih =>
    rw [List.forall_mem_cons] at hshaped
    have hhead := hphrase.isLooseAmong (by simpa using hshaped.1)
    rw [List.forall_mem_cons, List.forall_mem_cons, ih hshaped.2, hhead]
    simp

/-- **Fragments of shaped conditions are read as their conjunction exactly if each of them can be read
and, where there are several, none has a bare loose operator at its root.** -/
theorem conjoins_iff_of_shaped {trees : List Tree} {texts : List String}
    {fragments : List (List Word)} (hne : texts ≠ []) (hshaped : ∀ t ∈ trees, Shaped t)
    (h : Fragments trees texts fragments) :
    Conjoins (fragments.map tokens) ↔
      (∀ words ∈ fragments, ∃ e, ReadAs (tokens words) e) ∧
        (trees.length = 1 ∨ ∀ t ∈ trees, isBareLoose t = false) := by
  obtain ⟨hphrases, rfl⟩ := h
  have hfragments : fragments.map tokens ≠ [] := by simpa using hne
  have hwords : ∀ words ∈ fragments.map tokens, ∀ token ∈ words, isWord token.kind = true := by
    rw [List.forall_mem_map]
    intro words hmem
    obtain ⟨t, ht⟩ := exists_phrase hphrases words hmem
    exact List.forall_mem_map.2 ht.isWord
  have hbalanced : ∀ words ∈ fragments.map tokens, depthAfter 0 words = 0 := by
    rw [List.forall_mem_map]
    intro words hmem
    obtain ⟨t, ht⟩ := exists_phrase hphrases words hmem
    exact ht.balanced.depth 0
  have htight : (∀ words ∈ fragments.map tokens, looseAt 0 words = false) ↔
      ∀ t ∈ trees, isBareLoose t = false := by
    rw [List.forall_mem_map]
    exact tight_iff hphrases hshaped
  rw [conjoins_iff hfragments hwords hbalanced, htight, List.length_map, ← hphrases.length_eq,
    List.forall_mem_map]

/-! ## Where filters come from -/

/-- The tree is the condition of a filter somewhere in another tree. -/
inductive IsConditionOf (e : Tree) : Tree → Prop where
  | here {relation : Tree} {more : List Tree} : IsConditionOf e (.node .filter (relation :: e :: more))
  | within {tag : Tag} {ts : List Tree} {t : Tree} (ht : t ∈ ts) (h : IsConditionOf e t) :
      IsConditionOf e (.node tag ts)

/-- The conditions of a shaped tree are shaped. -/
theorem IsConditionOf.shaped {e tree : Tree} (h : IsConditionOf e tree) (htree : Shaped tree) :
    Shaped e := by
  induction h with
  | here => exact htree.child (by simp)
  | within ht _ ih => exact ih (htree.child ht)

/-- The equality of two fields. -/
def comparison (current previous : String) : Tree :=
  .node (.op .equal) [.leaf .field current, .leaf .field previous]

/-- A filter, and the condition that it stands for: the rendering of a condition of the source in some
state of the walk, or the comparison of a scope, whatever its two sides are rendered as. -/
inductive FilterOf (host : Host) (tree : Tree) : Tree → String → Prop where
  | condition {e : Tree} {text : String} {w left : Walk} (h : IsConditionOf e tree)
      (hrender : (renderWith host (defaultOrder host) e).runFrom w = (.ok text, left)) :
      FilterOf host tree e text
  | scope (current previous left right : String) :
      FilterOf host tree (comparison current previous) (left ++ " = " ++ right)

/-- Every filter can be taken apart into the words of its condition. -/
theorem exists_fragments {host : Host} {tree : Tree} {trees : List Tree} {texts : List String}
    (h : List.Forall₂ (FilterOf host tree) trees texts) :
    ∃ fragments, Fragments trees texts fragments := by
  induction h with
  | nil => exact ⟨[], .nil, rfl⟩
  | @cons t text trees texts hfilter _ ih =>
    obtain ⟨fragments, hphrases, rfl⟩ := ih
    have hphrase : ∃ words, Phrase [t] words ∧ Word.layout words = text := by
      cases hfilter with
      | condition _ hrender => exact phrase_of_render t _ _ _ hrender
      | scope current previous left right =>
        have hwhole := fun name text => Phrase.whole (t := .leaf .field name) rfl text
        refine ⟨_, .operator rfl (by simp) (hwhole _ left) (hwhole _ right), ?_⟩
        have hsql : Operator.equal.sql = "=" := rfl
        simp [Word.text, Word.sign, hsql, String.append_assoc]
    obtain ⟨words, hwords, rfl⟩ := hphrase
    exact ⟨words :: fragments, .cons hwords hphrases, rfl⟩

/-- The conditions that filters stand for are shaped. -/
theorem shaped_of_filterOf {host : Host} {tree : Tree} {trees : List Tree} {texts : List String}
    (h : List.Forall₂ (FilterOf host tree) trees texts) (htree : Shaped tree) :
    ∀ t ∈ trees, Shaped t := by
  induction h with
  | nil => simp
  | cons hfilter _ ih =>
    refine List.forall_mem_cons.2 ⟨?_, ih⟩
    cases hfilter with
    | condition hcondition _ => exact hcondition.shaped htree
    | scope current previous _ _ =>
      have hfield := fun name => shaped_leaf .field rfl name
      exact .node (by simp [hfield]) (by simp [isLooseTree, Tree.leaf, isLooseTag]) nofun

/-- A source that compiles is read into a tree. -/
theorem parse_of_compile {catalog : Catalog} {options : Options} {domain source : String} {q : Query}
    (h : catalog.compile options domain source = .ok q) : ∃ tree, parse source = .ok tree := by
  unfold Catalog.compile at h
  split at h
  · cases h
  · split at h
    · cases h
    · next tree hparse => exact ⟨tree, hparse⟩

/-- **The filters of a compiled query, where they come from conditions of the source and from scopes,
are joined into a text that is read as their conjunction exactly if each of them can be read and,
where there are several, none comes from a condition with `xor` or `:=` at its root.** The words of
the filters are those of the conditions, with any operands. -/
theorem compile_conjoins_iff {catalog : Catalog} {options : Options} {domain source : String}
    {q : Query} (hcompile : catalog.compile options domain source = .ok q)
    (hne : q.filters ≠ []) :
    ∃ tree, parse source = .ok tree ∧ ∀ trees,
      List.Forall₂ (FilterOf (catalog.host options Catalog.maxDepth) tree) trees q.filters.reverse →
        (∃ fragments, Fragments trees q.filters.reverse fragments) ∧
        ∀ fragments, Fragments trees q.filters.reverse fragments →
          q.joinedFilters = Word.layout (joinedWords fragments) ∧
          (Conjoins (fragments.map tokens) ↔
            (∀ words ∈ fragments, ∃ e, ReadAs (tokens words) e) ∧
              (trees.length = 1 ∨ ∀ t ∈ trees, isBareLoose t = false)) := by
  obtain ⟨tree, hparse⟩ := parse_of_compile hcompile
  refine ⟨tree, hparse, fun trees hfilters => ⟨exists_fragments hfilters, ?_⟩⟩
  intro fragments hfragments
  have hshaped := shaped_of_filterOf hfilters (shaped_of_parse hparse)
  refine ⟨?_, conjoins_iff_of_shaped (by simpa using hne) hshaped hfragments⟩
  rw [layout_joinedWords, ← hfragments.texts]
  rfl

/-! ## A domain with a scope -/

/-- A domain of nodes with a relation to the children of a node. Its scope compares the parent of a
node with the record that the relation starts from. -/
def nodes : Domain where
  profile :=
    { name := "objects", mainTable := "objects", mainClass := "Node"
      default := fun key => if key = "scope" then some "parent" else none
      scope := fun name _ =>
        .ok (if name = "parent" then some (.compare "parent_id" "id") else none) }
  relation := fun host kind name =>
    if kind = .filter ∧ name = "children" then do
      host.addTable "objects"
      return true
    else return false
  field := fun _ name => do
    return some (Host.currentTable (← get) ++ "." ++ name)

/-- The catalog with the domain of nodes only. -/
def nodeCatalog : Catalog :=
  Catalog.addDomain nodes {}

/-- The condition that the name is one of two, with an operator between the two equalities. -/
def eitherName (o : Operator) : Tree :=
  .node (.op o) [.node (.op .equal) [.leaf .field "name", .leaf .integer "1"],
    .node (.op .equal) [.leaf .field "name", .leaf .integer "2"]]

/-- The children with a condition. -/
def childrenWhere (e : Tree) : Tree :=
  .node .query [.node .filter [.leaf .relation "children", e]]

/-- The query for the children of a record with a condition. -/
def childrenQuery (text : String) : Query :=
  { Query.new .generic "objects" "Node" with
    tables := ["objects"]
    tableAlias := Dictionary.empty.insert "objects" ["objects"]
    filters := ["objects.parent_id = [[id]]", text] }

/-- The words of the scope of children. -/
def scopeWords : List Word :=
  [.operand "objects.parent_id"] ++ .operator .equal :: [.operand "[[id]]"]

/-- The words of the condition that the name is a number. -/
def nameWords (number : String) : List Word :=
  [.operand "objects.name"] ++ .operator .equal :: [.operand number]

theorem phrase_scopeWords : Phrase [comparison "parent_id" "id"] scopeWords :=
  .operator rfl (by decide) (.whole rfl _) (.whole rfl _)

theorem phrase_nameWords (number : String) :
    Phrase [.node (.op .equal) [.leaf .field "name", .leaf .integer number]] (nameWords number) :=
  .operator rfl (by decide) (.whole rfl _) (.whole rfl _)

/-- A source that compiles, from its tree and its walk. -/
theorem compile_children {source text : String} {e : Tree}
    (hparse : parse source = .ok (childrenWhere e)) {left : Walk}
    (hwalk : (nodeCatalog.walk {} (childrenWhere e)).runFrom (nodeCatalog.start {} nodes) =
      (.ok (), left)) (hquery : left.query = childrenQuery text) :
    nodeCatalog.compile {} "objects" source = .ok (childrenQuery text) := by
  have hdomain : nodeCatalog.domains.find? "objects" = some nodes := rfl
  rw [Catalog.compile_of_run hdomain hparse hwalk, hquery]

/-- The state of the walk after the children and before their condition is added. -/
def atCondition : Walk where
  domain := "objects"
  context := { tableAlias := some "objects", phase := .filter }
  query := childrenQuery ""

/-- The filters of the children come from their scope and from their condition. -/
theorem filterOf_children {text : String} {e : Tree}
    (hrender : (renderWith (nodeCatalog.host {} Catalog.maxDepth)
      (defaultOrder (nodeCatalog.host {} Catalog.maxDepth)) e).runFrom atCondition =
        (.ok text, atCondition)) :
    List.Forall₂ (FilterOf (nodeCatalog.host {} Catalog.maxDepth) (childrenWhere e))
      [e, comparison "parent_id" "id"] (childrenQuery text).filters.reverse := by
  have hcondition : IsConditionOf e (childrenWhere e) := .within List.mem_cons_self .here
  exact .cons (.condition hcondition hrender) (.cons (.scope _ _ "objects.parent_id" "[[id]]") .nil)

/-- An alternative keeps its parentheses beside a scope. -/
theorem alternative_beside_scope :
    nodeCatalog.compile {} "objects" "children where name = 1 or name = 2" =
        .ok (childrenQuery "(objects.name = 1 OR objects.name = 2)") ∧
      ∃ fragments, Fragments [eitherName .or, comparison "parent_id" "id"]
          ["(objects.name = 1 OR objects.name = 2)", "objects.parent_id = [[id]]"] fragments ∧
        (childrenQuery "(objects.name = 1 OR objects.name = 2)").joinedFilters =
          Word.layout (joinedWords fragments) ∧
        Conjoins (fragments.map tokens) := by
  have hparse : parse "children where name = 1 or name = 2" =
      .ok (childrenWhere (eitherName .or)) := by decide +kernel
  have hcompile := @compile_children _ "(objects.name = 1 OR objects.name = 2)" _ hparse _ rfl rfl
  have hfilters := @filterOf_children "(objects.name = 1 OR objects.name = 2)" (eitherName .or) rfl
  have hfragments : Fragments [eitherName .or, comparison "parent_id" "id"]
      ["(objects.name = 1 OR objects.name = 2)", "objects.parent_id = [[id]]"]
      [.opening :: (nameWords "1" ++ .operator .or :: nameWords "2") ++ [.closing], scopeWords] :=
    ⟨.cons (.or (phrase_nameWords "1") (phrase_nameWords "2")) (.cons phrase_scopeWords .nil), rfl⟩
  obtain ⟨tree, htree, h⟩ := compile_conjoins_iff hcompile (by simp [childrenQuery])
  obtain rfl : childrenWhere (eitherName .or) = tree := by
    rw [hparse] at htree
    exact Except.ok.inj htree
  obtain ⟨hjoined, hconjoins⟩ := (h _ hfilters).2 _ hfragments
  refine ⟨hcompile, _, hfragments, hjoined, hconjoins.2 ⟨?_, Or.inr ?_⟩⟩
  · simp only [List.forall_mem_cons]
    exact ⟨⟨_, rfl⟩, ⟨_, rfl⟩, by simp⟩
  · simp [eitherName, comparison, isBareLoose]

/-- **An `xor` at the root of a condition takes a scope beside it for its second operand.** -/
theorem xor_beside_scope :
    nodeCatalog.compile {} "objects" "children where name = 1 xor name = 2" =
        .ok (childrenQuery "objects.name = 1 XOR objects.name = 2") ∧
      parse "children where name = 1 xor name = 2" = .ok (childrenWhere (eitherName .xor)) ∧
      List.Forall₂ (FilterOf (nodeCatalog.host {} Catalog.maxDepth) (childrenWhere (eitherName .xor)))
        [eitherName .xor, comparison "parent_id" "id"]
        (childrenQuery "objects.name = 1 XOR objects.name = 2").filters.reverse ∧
      ∃ fragments, Fragments [eitherName .xor, comparison "parent_id" "id"]
          ["objects.name = 1 XOR objects.name = 2", "objects.parent_id = [[id]]"] fragments ∧
        (∃ l r, ReadAs (tokens (joinedWords fragments))
          (.node (.op .xor) [l, .node (.op .and) [r, .node (.op .equal)
            [.leaf .string "objects.parent_id", .leaf .string "[[id]]"]]])) ∧
        ¬ Conjoins (fragments.map tokens) := by
  have hparse : parse "children where name = 1 xor name = 2" =
      .ok (childrenWhere (eitherName .xor)) := by decide +kernel
  have hfilters := @filterOf_children "objects.name = 1 XOR objects.name = 2" (eitherName .xor) rfl
  have hfragments : Fragments [eitherName .xor, comparison "parent_id" "id"]
      ["objects.name = 1 XOR objects.name = 2", "objects.parent_id = [[id]]"]
      [nameWords "1" ++ .operator .xor :: nameWords "2", scopeWords] :=
    ⟨.cons (.operator rfl (by decide) (phrase_nameWords "1") (phrase_nameWords "2"))
      (.cons phrase_scopeWords .nil), rfl⟩
  refine ⟨compile_children hparse rfl rfl, hparse, hfilters, _, hfragments, ⟨_, _, rfl⟩, ?_⟩
  rw [conjoins_iff_of_shaped (by simp) (shaped_of_filterOf hfilters (shaped_of_parse hparse))
    hfragments]
  simp [eitherName, isBareLoose]

end RelationSql
