import Mathlib.Tactic.Common
import RelationSql.Proofs.Walk.Blind
import RelationSql.Proofs.Walk.JoinedFilters

/-!
# Literals never influence binds

What stands in a single-quoted text of a source is data. With domains that do not look at rendered
texts (`Domain.Blind`), two sources that differ in such texts only are compiled with the same error or
into statements that are the two fillings of one template, with the same binds
(`compile_blind_to_literals`). So a literal is never read as a marker, whatever it holds.
-/

namespace RelationSql

open RelationSql.Fragment (Plain Template Piece)
open RelationSql.Grammar (Shaped)
open RelationSql.Source (Requoted)
open RelationSql.WalkM

variable {P : String → String → Prop} {α β : Type} {R : α → β → Prop}

/-! ## Domains -/

/-- A domain that does not look at rendered texts. Its names are plain, its fields are rendered as
columns of the current table, it declines calls and equalities, and its other hooks do the same whatever
the literals of the conditions are. -/
structure Domain.Blind (P : String → String → Prop) (domain : Domain) : Prop where
  profile : domain.profile.Blind P
  relation : ∀ host, host.Blind P → ∀ kind name, Plain name →
    Mirrors P Eq (domain.relation host kind name) (domain.relation host kind name)
  field : ∀ name, Plain name → ∃ column : Option String, (∀ text ∈ column, Plain text) ∧
    ∀ host w, Yields (domain.field host name) w (column.map (Host.currentTable w ++ "." ++ ·))
  function : ∀ host argument method w, Yields (domain.function host argument method) w none
  equal : ∀ host left right w, Yields (domain.equal host left right) w none
  before : ∀ host, host.Blind P → Mirrors P Eq (domain.before host) (domain.before host)
  after : ∀ host, host.Blind P → Mirrors P Eq (domain.after host) (domain.after host)

theorem Walk.Alike.currentTable {w w' : Walk} (h : w.Alike P w') :
    Host.currentTable w' = Host.currentTable w ∧ Plain (Host.currentTable w) := by
  have hmain := h.query.read (fun q => q.mainTable) fun _ _ => rfl
  constructor
  · rw [Host.currentTable, Host.currentTable, h.currentAlias, hmain]
  · unfold Host.currentTable Host.currentAlias
    cases hfixed : w.context.tableAlias with
    | some name => exact h.tableAlias name hfixed
    | none =>
      cases hnewest : w.query.alias? w.query.mainTable 0 with
      | some name => exact h.query.settled.alias? hnewest
      | none => exact h.query.settled.mainTable

/-- Steps that yield something without changing the walk. -/
theorem Mirrors.of_yields {steps : WalkM α} {steps' : WalkM β} {f : Walk → α} {g : Walk → β}
    (h : ∀ w, Yields steps w (f w)) (h' : ∀ w, Yields steps' w (g w))
    (hR : ∀ w w', Walk.Alike P w w' → R (f w) (g w')) : Mirrors P R steps steps' := by
  intro w w' hw
  rw [h w, h' w']
  exact ⟨.ok (hR w w' hw), hw⟩

/-- A field is rendered as the same column. -/
theorem Domain.Blind.mirrors_field {domain : Domain} (h : domain.Blind P) (host : Host) {name : String}
    (hname : Plain name) :
    Mirrors P (fun text text' => text' = text ∧ ∀ t ∈ text, Plain t) (domain.field host name)
      (domain.field host name) := by
  obtain ⟨column, hcolumn, hfield⟩ := h.field name hname
  refine .of_yields (hfield host) (hfield host) fun w w' hw => ?_
  obtain ⟨hsame, htable⟩ := hw.currentTable
  rw [hsame]
  refine ⟨rfl, fun text htext => ?_⟩
  obtain ⟨name, hmem, rfl⟩ := Option.map_eq_some_iff.1 htext
  exact Fragment.plain_append.2 ⟨Fragment.plain_append.2 ⟨htable, by decide⟩, hcolumn name hmem⟩

/-! ## Catalogs -/

/-- The tree to be walked is alike, too. -/
theorem wholeTree_alike {mainTable : String} (hmain : Plain mainTable) {t t' : Tree} (ht : Shaped t)
    (h : Tree.Alike P t t') : Shaped (Catalog.wholeTree mainTable t) ∧
      Tree.Alike P (Catalog.wholeTree mainTable t) (Catalog.wholeTree mainTable t') := by
  have hrelation : Shaped (.node .query [.leaf .relation mainTable]) :=
    .wrapped rfl rfl (by simpa using Grammar.shaped_leaf .relation rfl mainTable)
  have hquery : Tree.Alike P (.node .query [.leaf .relation mainTable])
      (.node .query [.leaf .relation mainTable]) :=
    .node (by simp) (.cons (.leaf (by simp) hmain) .nil)
  cases h with
  | @node tag htag ts ts' hts =>
    cases hts with
    | nil =>
      cases tag with
      | query => exact ⟨hrelation, hquery⟩
      | _ => exact ⟨ht, .node htag .nil⟩
    | cons hfirst hrest =>
      cases tag <;> exact ⟨ht, .node htag (.cons hfirst hrest)⟩
  | atom h => exact ⟨ht, .atom h⟩
  | string h => exact ⟨ht, .string h⟩
  | dstring => exact ⟨ht, .dstring _⟩
  | call h hname => exact ⟨ht, .call h hname⟩

/-- A compile without custom queries, translator and connection over domains that do not look at
rendered texts. -/
structure Catalog.Blind (P : String → String → Prop) (catalog : Catalog) (options : Options) :
    Prop where
  domain : ∀ name domain, catalog.domains.find? name = some domain → domain.Blind P
  custom : options.group = none ∨ catalog.customQueries = .empty
  translator : options.translator = none
  connection : options.connection = none
  placeholder : Fragment.escape ∉ catalog.dialect.placeholder.toList

namespace Catalog.Blind

variable {catalog : Catalog} {options : Options} (h : catalog.Blind P options)

include h

theorem mirrors_domain (name : String) :
    Mirrors P (fun domain domain' => domain' = domain ∧ domain.Blind P) (catalog.domain name)
      (catalog.domain name) := by
  unfold Catalog.domain
  cases hdomain : catalog.domains.find? name with
  | some domain => exact .pure ⟨rfl, h.domain name domain hdomain⟩
  | none => exact .throw _

theorem mirrors_activeDomain :
    Mirrors P (fun domain domain' => domain' = domain ∧ domain.Blind P) catalog.activeDomain
      catalog.activeDomain := by
  refine Mirrors.get.bind fun w w' hw => ?_
  rw [hw.domain]
  exact h.mirrors_domain _

theorem profile_blind {name : String} {profile : Profile}
    (hprofile : (catalog.domains.find? name).map Domain.profile = some profile) :
    profile.Blind P := by
  obtain ⟨domain, hdomain, rfl⟩ := Option.map_eq_some_iff.1 hprofile
  exact (h.domain name domain hdomain).profile

/-- **The hooks of all domains do the same whatever the literals are**, however deep their calls are
nested. -/
theorem host_blind (hP : ∀ content, P content content) (depth : Nat) :
    (catalog.host options depth).Blind P := by
  induction depth with
  | zero =>
    exact {
      custom := h.custom
      translator := h.translator
      connection := h.connection
      profile := fun _ _ => h.profile_blind
      relation := fun _ _ _ _ => .throw _
      field := fun _ _ => .throw _
      function := fun _ _ _ => .throw _
      equal := fun _ _ _ _ => .throw _
      process := fun _ _ _ _ => .throw _ }
  | succ depth ih =>
    exact {
      custom := h.custom
      translator := h.translator
      connection := h.connection
      profile := fun _ _ => h.profile_blind
      relation := fun name kind relation hrelation => by
        refine (h.mirrors_domain name).bind ?_
        rintro _ domain ⟨rfl, hdomain⟩
        exact hdomain.relation _ ih kind relation hrelation
      field := fun name hname => by
        refine h.mirrors_activeDomain.bind ?_
        rintro _ domain ⟨rfl, hdomain⟩
        exact hdomain.mirrors_field _ hname
      function := fun argument argument' method => by
        refine h.mirrors_activeDomain.bind ?_
        rintro _ domain ⟨rfl, hdomain⟩
        exact .of_yields (hdomain.function _ _ _) (hdomain.function _ _ _) fun _ _ _ => ⟨rfl, rfl⟩
      equal := fun left left' right right' => by
        refine h.mirrors_activeDomain.bind ?_
        rintro _ domain ⟨rfl, hdomain⟩
        exact .of_yields (hdomain.equal _ _ _) (hdomain.equal _ _ _) fun _ _ _ => ⟨rfl, rfl⟩
      process := fun t t' ht halike => render_mirrors hP ih ht halike }

/-! ### Walks -/

theorem start_alike {domain : Domain} (hdomain : domain.Blind P) :
    Walk.Alike P (catalog.start options domain) (catalog.start options domain) where
  domain := rfl
  context := rfl
  tableAlias := by rintro _ ⟨⟩
  query := .intro .nil .none {
    placeholder := h.placeholder
    mainTable := hdomain.profile.mainTable
    tables := by simp [Catalog.start, Query.new]
    aliases := .empty
    joins := .empty
    neededJoins := .empty
    keyValues := .empty
    select := by rintro _ ⟨⟩
    order := by rintro _ ⟨⟩
    group := by rintro _ ⟨⟩
    limit := by rintro _ ⟨⟩
    offset := by rintro _ ⟨⟩
    attributes := .empty }

omit h in
theorem mirrors_applyLimit (limit : Option Nat) :
    Mirrors P Eq (modifyQuery (Catalog.applyLimit limit))
      (modifyQuery (Catalog.applyLimit limit)) := by
  refine .changeQuery (fun q conditions groups => ?_) fun q hq => ?_
  · cases hlimit : q.limit <;> cases limit <;> simp only [Catalog.applyLimit, hlimit]
  · unfold Catalog.applyLimit
    split
    · refine { hq with limit := ?_ }
      rintro _ ⟨⟩
      exact Fragment.plain_append.2 ⟨by decide, Fragment.plain_toString _⟩
    · exact hq

theorem mirrors_walk (hP : ∀ content, P content content) {t t' : Tree} (ht : Shaped t)
    (halike : Tree.Alike P t t') :
    Mirrors P Eq (catalog.walk options t) (catalog.walk options t') := by
  have hhost := h.host_blind hP Catalog.maxDepth
  refine h.mirrors_activeDomain.bind ?_
  rintro _ first ⟨rfl, hfirst⟩
  refine (hfirst.before _ hhost).bind fun _ _ _ => ?_
  refine Mirrors.query.bind fun q q' hq => ?_
  rw [hq.read (fun q => q.mainTable) fun _ _ => rfl]
  obtain ⟨hshaped, hwhole⟩ := wholeTree_alike hq.settled.mainTable ht halike
  refine (render_mirrors hP hhost hshaped hwhole).bind fun _ _ _ => ?_
  refine (mirrors_applyLimit _).bind fun _ _ _ => ?_
  refine h.mirrors_activeDomain.bind ?_
  rintro _ last ⟨rfl, hlast⟩
  exact hlast.after _ hhost

end Catalog.Blind

/-! ## Compiles -/

/-- The same error, but for the place and the source that it quotes. -/
inductive CompileError.Alike : CompileError → CompileError → Prop where
  | malformed {fault fault' : Grammar.SyntaxError} (h : fault'.cause = fault.cause) :
      Alike (.malformed fault) (.malformed fault')
  | failed (source source' reason : String) : Alike (.failed source reason) (.failed source' reason)
  | same (fault : CompileError) : Alike fault fault

/-- The contents are the same, or the second was put in the place of the first. -/
def Swapped (swaps : List (String × String)) (l r : String) : Prop :=
  l = r ∨ (l, r) ∈ swaps

/-- The same binds, and texts that fill one template: with the old contents in the places of its
literals, and with the new ones. -/
structure Query.Built.Alike (swaps : List (String × String)) (placeholder : String)
    (built built' : Query.Built) : Prop where
  binds : built'.binds = built.binds
  sql : ∃ template : Template, (∀ piece ∈ template, piece.Sound (Swapped swaps)) ∧
    template.filterMap Piece.bind? = built.binds ∧
    built.sql.toList = template.flatMap (Piece.sql placeholder.toList Prod.fst) ∧
    built'.sql.toList = template.flatMap (Piece.sql placeholder.toList Prod.snd)

variable {swaps : List (String × String)}

/-- The statements of alike queries are built alike. -/
theorem Query.Alike.build {q q' : Query} (h : q.Alike (Swapped swaps) q') (kind : Query.StatementKind) :
    Query.Built.Alike swaps q.dialect.placeholder (q.build kind) (q'.build kind) := by
  obtain ⟨template, hsound, hleft, hright⟩ := Query.statement_alike h kind
  have hplaceholder := h.settled.placeholder
  have hdialect := h.read (fun q => q.dialect) fun _ _ => rfl
  have hplaceholder' : Fragment.escape ∉ q'.dialect.placeholder.toList := by rwa [hdialect]
  rw [Query.build_of_template hsound hplaceholder hleft,
    Query.build_of_template hsound hplaceholder' hright, hdialect]
  exact ⟨rfl, template, hsound, rfl, by simp, by simp⟩

/-- The failure of a hook is told with the source, every other one as it is. -/
theorem outcome_alike (R : Query → Query → Prop) (source source' : String) (fault : CompileError)
    (w w' : Walk) :
    SameOutcome CompileError.Alike R (Catalog.outcome source (.error fault, w))
      (Catalog.outcome source' (.error fault, w')) := by
  cases fault with
  | resolver reason => exact .error (.failed _ _ _)
  | _ => exact .error (.same _)

/-- **Literals never influence binds.** Sources that differ in the contents of single-quoted texts fail
to compile with the same error, or their statements of either kind have the same binds and the same text
but for these contents, which stand in it as quoted literals. -/
theorem compile_blind_to_literals {catalog : Catalog} {options : Options}
    (hcatalog : catalog.Blind (Swapped swaps) options) {source source' : String}
    (h : Requoted swaps source.toList source'.toList) (domain : String) :
    SameOutcome CompileError.Alike
      (fun q q' => ∀ kind,
        Query.Built.Alike swaps q.dialect.placeholder (q.build kind) (q'.build kind))
      (catalog.compile options domain source) (catalog.compile options domain source') := by
  have hself : ∀ content, Swapped swaps content content := fun _ => .inl rfl
  unfold Catalog.compile
  cases hdomain : catalog.domains.find? domain with
  | none => exact .error (.same _)
  | some start =>
    have hshaped := @Grammar.shaped_of_parse source
    have hparse := Grammar.parse_alike_of_requoted hself (fun _ _ hmem => .inr hmem) h
    dsimp only
    generalize Grammar.parse source = parsed at hshaped hparse ⊢
    generalize Grammar.parse source' = parsed' at hparse ⊢
    cases hparse with
    | error hcause => exact .error (.malformed hcause)
    | @ok tree tree' halike =>
      have hstart := hcatalog.start_alike (hcatalog.domain _ _ hdomain)
      obtain ⟨houtcome, hleft⟩ := hcatalog.mirrors_walk hself (hshaped rfl) halike _ _ hstart
      dsimp only
      revert houtcome hleft
      rcases (catalog.walk options tree).runFrom (catalog.start options start) with ⟨outcome, w⟩
      rcases (catalog.walk options tree').runFrom (catalog.start options start) with ⟨outcome', w'⟩
      intro houtcome hleft
      cases houtcome with
      | ok => exact .ok fun kind => hleft.query.build kind
      | error hfault =>
        subst hfault
        exact outcome_alike _ _ _ _ _ _

/-! ## A name in brackets -/

theorem nodes_blind : nodes.Blind P where
  profile := {
    mainTable := by decide
    scope := fun _ _ _ _ => rfl
    rule := by
      rintro name w current previous hrule
      have hrule : (if name = "parent" then some (ScopeRule.compare "parent_id" "id") else none) =
          some (.compare current previous) := Except.ok.inj hrule
      split at hrule
      · cases hrule
        decide
      · cases hrule
    missingTable := fun _ _ _ _ _ _ _ => .error rfl }
  relation := by
    intro host hhost kind name _
    show Mirrors P Eq (if _ then _ else _) (if _ then _ else _)
    split
    · exact (hhost.addTable (by decide)).bind fun _ _ _ => .pure rfl
    · exact .pure rfl
  field := fun name hname => ⟨some name, by simpa using hname, fun _ _ => rfl⟩
  function := fun _ _ _ _ => rfl
  equal := fun _ _ _ _ => rfl
  before := fun _ _ => .pure rfl
  after := fun _ _ => .pure rfl

theorem nodeCatalog_blind : nodeCatalog.Blind P {} where
  domain := by
    intro name domain hdomain
    have hmem := Dictionary.mem_of_findIn hdomain
    obtain ⟨-, rfl⟩ := Prod.mk.inj (List.mem_singleton.1 hmem)
    exact nodes_blind
  custom := .inl rfl
  translator := rfl
  connection := rfl
  placeholder := by decide

/-- The children with a name. -/
def childrenNamed (content : List Char) : List Char :=
  "children".toList ++ ' ' :: "where".toList ++ ' ' :: "name".toList ++
    ' ' :: '=' :: ' ' :: '\'' :: Source.spellText content

theorem requoted_childrenNamed (content content' : List Char) :
    Requoted [(String.ofList content, String.ofList content')] (childrenNamed content)
      (childrenNamed content') := by
  have htext := (Source.requoted_self []).replace content content'
  rw [List.append_nil, List.append_nil] at htext
  have hequal := @Requoted.token _ (.symbol .equal) '=' [] _ _ (by decide) rfl
    (.blank (c := ' ') rfl htext)
  have hname := @Requoted.token _ (.name "name") 'n' ['a', 'm', 'e'] _ _ (by decide)
    (Source.read_of_delimited rfl rfl rfl) (.blank (c := ' ') rfl hequal)
  have hwhere := @Requoted.token _ (.keyword .where_) 'w' ['h', 'e', 'r', 'e'] _ _ (by decide)
    (Source.read_of_delimited rfl rfl rfl) (.blank (c := ' ') rfl hname)
  have hchildren := @Requoted.token _ (.name "children") 'c' ['h', 'i', 'l', 'd', 'r', 'e', 'n'] _ _
    (by decide) (Source.read_of_delimited rfl rfl rfl) (.blank (c := ' ') rfl hwhere)
  exact hchildren

/-- **A name in double brackets is no bind.** It reaches the statement as it is, and the only bind is that
of the scope. -/
theorem bracketed_name_compiles :
    SameOutcome CompileError.Alike
      (fun q q' => ∀ kind,
        Query.Built.Alike [("x", "[[id]]")] q.dialect.placeholder (q.build kind) (q'.build kind))
      (nodeCatalog.compile {} "objects" "children where name = 'x'")
      (nodeCatalog.compile {} "objects" "children where name = '[[id]]'") ∧
    ∃ q, nodeCatalog.compile {} "objects" "children where name = '[[id]]'" = .ok q ∧
      q.build .find =
        ⟨"SELECT objects.* FROM objects WHERE objects.name = '[[id]]' AND objects.parent_id = ?",
          ["id"]⟩ := by
  have hold : "children where name = 'x'".toList = childrenNamed ['x'] := by decide
  have hnew : "children where name = '[[id]]'".toList = childrenNamed ['[', '[', 'i', 'd', ']', ']'] := by
    decide
  have hsource : Requoted [("x", "[[id]]")] "children where name = 'x'".toList
      "children where name = '[[id]]'".toList := by
    have hcontents : [("x", "[[id]]")] =
        [(String.ofList ['x'], String.ofList ['[', '[', 'i', 'd', ']', ']'])] := by decide
    rw [hold, hnew, hcontents]
    exact requoted_childrenNamed ['x'] ['[', '[', 'i', 'd', ']', ']']
  have hparse : Grammar.parse "children where name = '[[id]]'" =
      .ok (childrenWhere (.node (.op .equal) [.leaf .field "name", .leaf .string "[[id]]"])) := by decide +kernel
  have hcompile := @compile_children _ "objects.name = '\x011\x011id]]'" _ hparse _ rfl rfl
  refine ⟨compile_blind_to_literals nodeCatalog_blind hsource "objects", _, hcompile, ?_⟩
  decide +kernel

end RelationSql
