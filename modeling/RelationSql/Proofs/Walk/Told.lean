import Mathlib.Algebra.Order.PUnit
import RelationSql.Proofs.Grammar.Swallowed
import RelationSql.Proofs.Walk.Columns

/-!
# Operators that are refused

Every tree of a source has a shape, and each of its nodes finds a handler that expects it. So the only
operators that a compile refuses are the two without SQL: the tilde, and an `and` between clauses
(`parse_formed_compile_tells`). Hooks may fail for reasons of their own, but refuse no other operator as
long as the host does not (`Domain.Tells`).

One kind of tree has a clause in the place of an expression: behind a `having`, a chain takes the
expression for a relation (`not_formed_having_from`).
-/

namespace RelationSql

open Grammar WalkM RelationSql.Fragment

/-! ## Hooks -/

/-- The steps may fail, but refuse no other operator than those without SQL. -/
def WalkM.Tells {α : Type} (steps : WalkM α) : Prop :=
  ∀ w, Outcome CompileError.IsTold (fun _ => True) (steps.runFrom w).1

/-- A profile that refuses no other operator. -/
structure Profile.Tells (profile : Profile) : Prop where
  scope : ∀ name w, Outcome CompileError.IsTold (fun _ => True) (profile.scope name w)
  missingTable : ∀ name table q,
    Outcome CompileError.IsTold (fun _ => True) (profile.missingTable name table q)

/-- A host that refuses no other operator, whatever well-formed tree it is given. -/
structure Host.Tells (host : Host) : Prop where
  profile : ∀ name profile, host.profile? name = some profile → profile.Tells
  relation : ∀ domain kind name, (host.relation domain kind name).Tells
  field : ∀ name, (host.field name).Tells
  function : ∀ argument method, IsName method → (host.function argument method).Tells
  equal : ∀ left right, Formed True .expression left → Formed True .expression right →
    (host.equal left right).Tells
  process : ∀ t, Formed True .expression t → (host.process t).Tells

/-- Hooks that refuse no other operator if the host does not. -/
structure Domain.Tells (domain : Domain) : Prop where
  profile : domain.profile.Tells
  relation : ∀ host, host.Tells → ∀ kind name, (domain.relation host kind name).Tells
  field : ∀ host, host.Tells → ∀ name, (domain.field host name).Tells
  function : ∀ host, host.Tells → ∀ argument method, IsName method →
    (domain.function host argument method).Tells
  equal : ∀ host, host.Tells → ∀ left right, Formed True .expression left →
    Formed True .expression right → (domain.equal host left right).Tells
  before : ∀ host, host.Tells → (domain.before host).Tells
  after : ∀ host, host.Tells → (domain.after host).Tells

/-- A catalog of such domains. -/
def Catalog.Tells (catalog : Catalog) : Prop :=
  ∀ name domain, catalog.domains.find? name = some domain → domain.Tells

/-! ## The gauge of errors -/

namespace Gauge

/-- Texts weigh nothing here; what counts is how a compile fails. -/
def told (options : Options) (customs : CustomQueries) : Gauge Unit where
  options := options
  dialects := fun _ => True
  customs := customs
  swallows := True
  excluded := []
  weighs := fun _ _ => True
  template := fun _ => ()
  clash := ()
  signed := False
  faults := CompileError.IsTold

variable {options : Options} {customs : CustomQueries} {l l' : Ledger Unit} {α : Type}

/-- Nothing is excluded. -/
theorem lacks_none (text : String) : Lacks [] text :=
  fun _ hmem => nomatch hmem

theorem lawful_told : (told options customs).Lawful where
  isClass := show IsClass [] by decide
  name _ _ := trivial
  append _ _ _ _ _ _ := trivial
  operator _ := trivial
  minus _ _ _ _ := trivial
  minusExcluded := False.elim
  bound _ _ _ _ := trivial
  page _ _ _ := trivial
  template _ _ _ _ := trivial
  literal _ _ _ := ⟨trivial, False.elim, False.elim⟩
  customs custom _ :=
    { select := fun _ _ _ _ => lacks_none _
      keys := False.elim
      tables := fun _ _ _ _ => lacks_none _
      joins := fun _ _ _ _ _ _ => trivial
      filters := fun _ _ _ _ => trivial
      order := fun _ _ => lacks_none _
      group := fun _ _ => lacks_none _
      having_ := fun _ _ => trivial
      mainTable := fun _ _ => lacks_none _ }
  replaced _ _ := inferInstance
  faults _ := id

/-- Every query is written by every ledger. -/
theorem written_told (q : Query) : (told options customs).Written l q where
  dialect := trivial
  names :=
    { mainTable := lacks_none _
      tables := fun _ _ => lacks_none _
      aliases := fun _ _ _ _ => lacks_none _
      joins := fun _ _ _ _ => trivial
      neededJoins := fun _ _ _ _ => lacks_none _
      keyValues := fun _ _ _ _ _ _ => lacks_none _
      select := fun _ _ _ _ => lacks_none _
      order := fun _ _ => lacks_none _
      group := fun _ _ => lacks_none _
      limit := fun _ _ => lacks_none _
      offset := fun _ _ => trivial
      attributes := fun _ _ => lacks_none _ }
  keys := False.elim
  filters := by
    refine ⟨List.replicate q.filters.length (), ?_, Subsingleton.elim _ _⟩
    exact List.forall₂_iff_get.2 ⟨List.length_replicate, fun _ _ _ => trivial⟩
  having_ := trivial

theorem holds_told (w : Walk) : (told options customs).Holds l w :=
  ⟨written_told w.query, fun _ _ => lacks_none _⟩

/-- Steps that refuse nothing else keep every ledger. -/
theorem runs_of_tells {steps : WalkM α} {Q : α → Prop} (h : steps.Tells) (hQ : ∀ a, Q a) :
    (told options customs).Runs l l' steps Q := by
  intro w _
  have hsteps := h w
  revert hsteps
  rcases (steps.runFrom w).1 with fault | a
  · exact id
  · exact fun _ => ⟨hQ a, holds_told _⟩

theorem Runs.tells {steps : WalkM α} {Q : α → Prop} (h : (told options customs).Runs l l' steps Q) :
    steps.Tells := by
  intro w
  have hsteps := h w (holds_told w)
  revert hsteps
  rcases (steps.runFrom w).1 with fault | a
  · exact id
  · exact fun _ => trivial

theorem speaks_told {x : Unit} {leads : Bool} (text : String) :
    (told options customs).Speaks x leads text :=
  ⟨trivial, False.elim, False.elim⟩

end Gauge

open Gauge

variable {options : Options} {customs : CustomQueries}

theorem Profile.Tells.fits {profile : Profile} (h : profile.Tells) : (told options customs).Fits profile where
  mainTable := lacks_none _
  scope := by
    intro name l w _
    have hscope := h.scope name w
    revert hscope
    rcases profile.scope name w with fault | rule
    · exact id
    · exact fun _ _ _ _ => ⟨lacks_none _, lacks_none _⟩
  mends := by
    intro name table l q _ _ _
    have hmended := h.missingTable name table q
    revert hmended
    rcases profile.missingTable name table q with fault | mended
    · exact id
    · exact fun _ => written_told mended

theorem Gauge.Fits.tells {profile : Profile} (h : (told options customs).Fits profile) : profile.Tells where
  scope name w := by
    have hscope := h.scope name 0 w (holds_told w)
    revert hscope
    rcases profile.scope name w with fault | rule
    · exact id
    · exact fun _ => trivial
  missingTable name table q := by
    have hmended := h.mends name table 0 q (lacks_none name) (lacks_none table) (written_told q)
    revert hmended
    rcases profile.missingTable name table q with fault | mended
    · exact id
    · exact fun _ => trivial

theorem Host.Weighed.tells {host : Host} (h : host.Weighed (told options customs)) : host.Tells where
  profile name profile hprofile := (h.profile name profile hprofile).tells
  relation domain kind name := (h.relation 0 domain kind name (lacks_none name)).tells
  field name := (h.field 0 name (lacks_none name)).tells
  function argument method hmethod :=
    (h.function 0 () false argument method (speaks_told argument) hmethod).tells
  equal left right hleft hright := (h.equal 0 left right hleft hright).tells
  process t ht := (h.process 0 t ht).tells

theorem Host.Tells.weighed {host : Host} (h : host.Tells) :
    host.Weighed (told host.options host.customQueries) where
  options := rfl
  customs := rfl
  profile name profile hprofile := (h.profile name profile hprofile).fits
  relation _ domain kind name _ := runs_of_tells (h.relation domain kind name) fun _ => trivial
  field _ name _ := runs_of_tells (h.field name) fun _ _ _ => ⟨lacks_none _, False.elim⟩
  function _ _ _ argument method _ hmethod :=
    runs_of_tells (h.function argument method hmethod) fun _ _ _ => speaks_told _
  equal _ left right hleft hright :=
    runs_of_tells (h.equal left right hleft hright) fun _ _ _ => speaks_told _
  process _ t ht := runs_of_tells (h.process t ht) fun _ => speaks_told _

theorem Domain.Tells.weighed {domain : Domain} (h : domain.Tells) :
    domain.Weighed (told options customs) where
  profile := h.profile.fits
  relation host hhost _ kind name _ := runs_of_tells (h.relation host hhost.tells kind name) fun _ => trivial
  field host hhost _ name _ :=
    runs_of_tells (h.field host hhost.tells name) fun _ _ _ => ⟨lacks_none _, False.elim⟩
  function host hhost _ _ _ argument method _ hmethod :=
    runs_of_tells (h.function host hhost.tells argument method hmethod) fun _ _ _ => speaks_told _
  equal host hhost _ left right hleft hright :=
    runs_of_tells (h.equal host hhost.tells left right hleft hright) fun _ _ _ => speaks_told _
  before host hhost _ := runs_of_tells (h.before host hhost.tells) fun _ => trivial
  after host hhost _ := runs_of_tells (h.after host hhost.tells) fun _ => trivial

theorem Catalog.Tells.weighed {catalog : Catalog} (h : catalog.Tells) :
    catalog.Weighed (told options catalog.customQueries) where
  dialect := trivial
  customs := rfl
  domains name domain hfound := (h name domain hfound).weighed

/-- A domain of one table. -/
theorem Domain.tells_ofTable {profile : Profile} (h : profile.Tells) : (Domain.ofTable profile).Tells where
  profile := h
  relation host hhost kind name :=
    ((Domain.weighed_ofTable lawful_told h.fits).relation host hhost.weighed 0 kind name (lacks_none _)).tells
  field _ _ _ _ := trivial
  function _ _ _ _ _ _ := trivial
  equal _ _ _ _ _ _ _ := trivial
  before _ _ _ := trivial
  after _ _ _ := trivial

theorem tells_objectCatalog : objectCatalog.Tells := by
  intro name domain hfound
  rw [objectCatalog, Catalog.addDomain, Dictionary.find?_insert] at hfound
  split at hfound
  · cases hfound
    exact Domain.tells_ofTable ⟨fun _ _ => trivial, fun _ _ _ => trivial⟩
  · cases hfound

/-! ## Sources -/

/-- **Every tree of a source has a shape that its handlers expect, and a compile refuses no operator but the
two without SQL.** Clauses and expressions are in their places, with as many children as their nodes
take, unless a `having` holds a chain that has taken its expression for a relation. -/
theorem parse_formed_compile_tells {source : String} {tree : Tree} (hparse : parse source = .ok tree) :
    FormedSource True tree ∧ (FormedSource False tree ↔ tree.swallows = false) ∧
      ∀ (catalog : Catalog) (options : Options) (name operator : String), catalog.Tells →
        catalog.compile options name source = .error (.unsupportedOperator operator) →
          operator = "@~" ∨ operator = "clause_and" := by
  have htree := formed_of_parse hparse
  refine ⟨htree, formedSource_iff htree, fun catalog options name operator hcatalog hrefused => ?_⟩
  have hweighed : catalog.Weighed (told options catalog.customQueries) := hcatalog.weighed
  have hcompile := hweighed.compile lawful_told hparse htree name
  rw [show (told options catalog.customQueries).options = options from rfl, hrefused] at hcompile
  exact hcompile

/-- A tilde has its place in a condition, and is refused. -/
theorem tilde_refused :
    FormedSource False (.node .query [.node .filter [.leaf .relation "children",
        .node (.op .equal) [.node (.op .invertBits) [.leaf .field "age"], .leaf .integer "1"]]]) ∧
      objectCatalog.compile {} "objects" "children where ~age = 1" = .error (.unsupportedOperator "@~") ∧
      ("@~" = "@~" ∨ "@~" = "clause_and") := by
  have hparse : parse "children where ~age = 1" = .ok (.node .query [.node .filter
      [.leaf .relation "children",
        .node (.op .equal) [.node (.op .invertBits) [.leaf .field "age"], .leaf .integer "1"]]]) := by
    decide +kernel
  have hrefused : objectCatalog.compile {} "objects" "children where ~age = 1" =
      .error (.unsupportedOperator "@~") := by
    decide +kernel
  obtain ⟨-, hformed, hcompile⟩ := parse_formed_compile_tells hparse
  exact ⟨hformed.2 (by decide), hrefused, hcompile objectCatalog {} _ _ tells_objectCatalog hrefused⟩

/-- **A chain behind a `having` may take its expression for a relation.** The source is accepted, and the
field `x` stands where a clause belongs. -/
theorem not_formed_having_from :
    ∃ tree, parse "a having x from b" = .ok tree ∧
      tree = .node .query [.node .having [.leaf .relation "a",
        .node .from_ [.leaf .field "x", .leaf .relation "b"]]] ∧
      ¬ FormedSource False tree := by
  have hparse : parse "a having x from b" = .ok (.node .query [.node .having [.leaf .relation "a",
      .node .from_ [.leaf .field "x", .leaf .relation "b"]]]) := by
    decide +kernel
  refine ⟨_, hparse, rfl, ?_⟩
  rw [formedSource_iff (formed_of_parse hparse)]
  decide

end RelationSql
