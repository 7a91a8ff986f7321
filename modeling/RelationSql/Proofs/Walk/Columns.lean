import RelationSql.Proofs.Walk.Totals

/-!
# Domains that render columns

The plainest domains render a field as a column of the current table and decline calls and equalities
(`Domain.RendersColumns`). Such fields weigh nothing in any gauge, so a domain of this kind is weighed by
what its relations do (`Domain.RendersColumns.weighed`). The simplest of them has one table
(`Domain.ofTable`).
-/

namespace RelationSql

open Grammar WalkM RelationSql.Fragment

/-- Fields are columns of the current table, or are not known; calls and equalities are declined. -/
structure Domain.RendersColumns (domain : Domain) : Prop where
  field : ∀ host name w, Yields (domain.field host name) w none ∨
    Yields (domain.field host name) w (some (Host.currentTable w ++ "." ++ name))
  function : ∀ host argument method w, Yields (domain.function host argument method) w none
  equal : ∀ host left right w, Yields (domain.equal host left right) w none

variable {W : Type} [AddCommMonoid W] {g : Gauge W} {l : Ledger W} {domain : Domain}

namespace Gauge

/-- The table that fields are rendered with has a name. -/
theorem Holds.currentTable {w : Walk} (hw : g.Holds l w) : g.Word (Host.currentTable w) := by
  unfold Host.currentTable
  refine of_getD (fun use huse => ?_) hw.query.names.mainTable
  rw [Host.currentAlias] at huse
  cases halias : w.context.tableAlias with
  | none =>
    rw [halias] at huse
    have hnewest : w.query.alias? w.query.mainTable 0 = some use := huse
    exact hw.query.names.alias? hnewest
  | some name =>
    rw [halias] at huse
    exact hw.name use (halias.trans huse)

/-- A step that leaves the walk as it is. -/
theorem Runs.of_yields {α : Type} {steps : WalkM α} {Q : α → Prop}
    (h : ∀ w, g.Holds l w → ∃ a, Yields steps w a ∧ Q a) : g.Runs l l steps Q := by
  intro w hw
  obtain ⟨a, hsteps, ha⟩ := h w hw
  rw [hsteps]
  exact ⟨ha, hw⟩

end Gauge

open Gauge

/-- A domain that renders columns keeps every ledger if its relations do. -/
theorem Domain.RendersColumns.weighed (hg : g.Lawful) (h : domain.RendersColumns)
    (hprofile : g.Fits domain.profile)
    (hrelation : ∀ host, host.Weighed g → ∀ l kind name, g.Word name →
      g.Runs l l (domain.relation host kind name) fun _ => True)
    (hbefore : ∀ host, host.Weighed g → ∀ l, g.Runs l l (domain.before host) fun _ => True)
    (hafter : ∀ host, host.Weighed g → ∀ l, g.Runs l l (domain.after host) fun _ => True) :
    domain.Weighed g where
  profile := hprofile
  relation := hrelation
  field host _ l name hname := by
    refine .of_yields fun w hw => ?_
    rcases h.field host name w with hnone | hcolumn
    · exact ⟨_, hnone, fun _ hsome => nomatch hsome⟩
    · refine ⟨_, hcolumn, ?_⟩
      rintro _ ⟨⟩
      exact ⟨(hw.currentTable.append (hg.isClass.word (by decide))).append hname, by simp⟩
  function host _ l _ _ argument method _ _ :=
    .of_yields fun w _ => ⟨_, h.function host argument method w, fun _ hsome => nomatch hsome⟩
  equal host _ l left right _ _ :=
    .of_yields fun w _ => ⟨_, h.equal host left right w, fun _ hsome => nomatch hsome⟩
  before := hbefore
  after := hafter

/-! ## Custom queries -/

/-- Does the compile come across no custom query? -/
def Options.SeesNoCustom (options : Options) (customs : CustomQueries) : Prop :=
  ∀ group domain relation, options.group = some group → customs.find? group domain relation = none

omit [AddCommMonoid W] in
theorem Gauge.not_offers (h : g.options.SeesNoCustom g.customs) : ¬ ∃ custom, g.Offers custom := by
  rintro ⟨custom, group, domain, relation, hgroup, hfound⟩
  cases (h group domain relation hgroup).symm.trans hfound

/-! ## A domain of one table -/

/-- Every relation adds a use of the table and is scoped; every field is a column. -/
def Domain.ofTable (profile : Profile) : Domain where
  profile := profile
  relation host kind _ := do
    if kind = .filter then
      host.addTable profile.mainTable
      return true
    else return false
  field _ name := do return some (Host.currentTable (← get) ++ "." ++ name)

theorem Domain.rendersColumns_ofTable (profile : Profile) : (Domain.ofTable profile).RendersColumns where
  field _ _ _ := .inr rfl
  function _ _ _ _ := rfl
  equal _ _ _ _ := rfl

theorem Domain.weighed_ofTable (hg : g.Lawful) {profile : Profile} (hprofile : g.Fits profile) :
    (Domain.ofTable profile).Weighed g := by
  refine (rendersColumns_ofTable profile).weighed hg hprofile (fun host hhost l kind name _ => ?_)
    (fun _ _ _ => .pure trivial) fun _ _ _ => .pure trivial
  show g.Runs l l (if kind = .filter then do
    host.addTable profile.mainTable
    return true
    else return false) _
  split
  · exact (hhost.addTable hg hprofile.mainTable).bind fun _ _ => .pure trivial
  · exact .pure trivial

/-- Objects in one table. -/
def objects : Profile :=
  { name := "objects", mainTable := "objects", mainClass := "Node" }

/-- The catalog with these objects only. -/
def objectCatalog : Catalog :=
  Catalog.addDomain (Domain.ofTable objects) {}

/-- The objects keep the ledgers of every gauge. -/
theorem weighed_objectCatalog (hg : g.Lawful) (hdialect : g.dialects .generic)
    (hcustoms : g.customs = .empty) :
    objectCatalog.Weighed g where
  dialect := hdialect
  customs := hcustoms.symm
  domains name domain hfound := by
    rw [objectCatalog, Catalog.addDomain, Dictionary.find?_insert] at hfound
    split at hfound
    · cases hfound
      exact Domain.weighed_ofTable hg
        { mainTable := hg.isClass.word (by decide)
          scope := fun _ _ _ _ _ _ hnone => nomatch hnone
          mends := fun _ _ _ _ _ _ _ => hg.faults _ trivial }
    · cases hfound

end RelationSql
