import RelationSql.Proofs.Grammar.Alike
import RelationSql.Proofs.Grammar.Shape
import RelationSql.Proofs.Query.Alike
import RelationSql.Proofs.Walk.Yields

/-!
# Walks that differ in their literals

Two walks are alike if they differ in the literals of their conditions only (`Walk.Alike`). Steps
mirror each other if they do the same from alike walks: they end with the same error or with values
that belong together, and leave alike walks (`Mirrors`). The steps that a host offers mirror
themselves if its hooks do (`Host.Blind`).
-/

namespace RelationSql

open RelationSql.Fragment (Plain)

/-- The walks differ in the literals of their conditions only, and the alias that fields are rendered
with is plain. -/
structure Walk.Alike (P : String → String → Prop) (w w' : Walk) : Prop where
  domain : w'.domain = w.domain
  context : w'.context = w.context
  tableAlias : ∀ name ∈ w.context.tableAlias, Plain name
  query : w.query.Alike P w'.query

/-- Fields are rendered with the same alias. -/
theorem Walk.Alike.currentAlias {P : String → String → Prop} {w w' : Walk} (h : w.Alike P w') :
    Host.currentAlias w' = Host.currentAlias w := by
  have hnewest := h.query.read (fun q => q.alias? q.mainTable 0) fun _ _ => rfl
  unfold Host.currentAlias
  rw [h.context]
  exact congrArg (w.context.tableAlias <|> ·) hnewest

/-- From alike walks, the steps end with the same error or with values in `R`, and leave alike
walks. -/
def Mirrors (P : String → String → Prop) {α β : Type} (R : α → β → Prop) (steps : WalkM α)
    (steps' : WalkM β) : Prop :=
  ∀ w w', Walk.Alike P w w' →
    SameOutcome Eq R (steps.runFrom w).1 (steps'.runFrom w').1 ∧
      Walk.Alike P (steps.runFrom w).2 (steps'.runFrom w').2

/-- The same plain text. -/
def SamePlain (text text' : String) : Prop :=
  text' = text ∧ Plain text

theorem SamePlain.alike {P : String → String → Prop} {text text' : String} (h : SamePlain text text') :
    Fragment.Alike P text text' := by
  obtain ⟨rfl, hplain⟩ := h
  exact hplain.alike

variable {P : String → String → Prop} {α β γ δ : Type} {R : α → β → Prop} {S : γ → δ → Prop}

namespace Mirrors

open WalkM

variable {steps : WalkM α} {steps' : WalkM β} {next : α → WalkM γ} {next' : β → WalkM δ}

theorem pure {a : α} {b : β} (h : R a b) : Mirrors P R (pure a) (pure b) :=
  fun _ _ hw => ⟨.ok h, hw⟩

theorem throw (fault : CompileError) : Mirrors P R (throw fault) (throw fault) :=
  fun _ _ hw => ⟨.error rfl, hw⟩

/-- Steps that mirror each other, with what they are followed by. -/
theorem bind (h : Mirrors P R steps steps') (hnext : ∀ a b, R a b → Mirrors P S (next a) (next' b)) :
    Mirrors P S (steps >>= next) (steps' >>= next') := by
  intro w w' hw
  obtain ⟨houtcome, hleft⟩ := h w w' hw
  rw [runFrom_bind, runFrom_bind]
  revert houtcome hleft
  rcases steps.runFrom w with ⟨outcome, left⟩
  rcases steps'.runFrom w' with ⟨outcome', left'⟩
  intro houtcome hleft
  cases houtcome with
  | error h => exact ⟨.error h, hleft⟩
  | ok h => exact hnext _ _ h _ _ hleft

theorem imp {R' : α → β → Prop} (h : Mirrors P R steps steps') (hR : ∀ a b, R a b → R' a b) :
    Mirrors P R' steps steps' := by
  intro w w' hw
  obtain ⟨houtcome, hleft⟩ := h w w' hw
  exact ⟨houtcome.imp hR, hleft⟩

theorem get : Mirrors P (Walk.Alike P) get get :=
  fun _ _ hw => ⟨.ok hw, hw⟩

theorem query : Mirrors P (Query.Alike P) query query :=
  fun _ _ hw => ⟨.ok hw.query, hw⟩

theorem context : Mirrors P Eq context context :=
  fun _ _ hw => ⟨.ok hw.context.symm, hw⟩

/-- A change of the walk. -/
theorem modify {change change' : Walk → Walk}
    (h : ∀ w w', Walk.Alike P w w' → Walk.Alike P (change w) (change' w')) :
    Mirrors P Eq (modify change : WalkM Unit) (modify change' : WalkM Unit) :=
  fun w w' hw => ⟨.ok rfl, h w w' hw⟩

/-- A change of the query. -/
theorem modifyQuery {change change' : Query → Query}
    (h : ∀ q q', q.Alike P q' → (change q).Alike P (change' q')) :
    Mirrors P Eq (modifyQuery change) (modifyQuery change') :=
  modify fun _ _ hw => ⟨hw.domain, hw.context, hw.tableAlias, h _ _ hw.query⟩

/-- A change of the context that sets no other alias for fields. -/
theorem modifyContext {change : Context → Context} (h : ∀ c, (change c).tableAlias = c.tableAlias) :
    Mirrors P Eq (modifyContext change) (modifyContext change) := by
  refine modify fun w w' hw => ⟨hw.domain, congrArg change hw.context, ?_, hw.query⟩
  show ∀ name ∈ (change w.context).tableAlias, Plain name
  rw [h]
  exact hw.tableAlias

theorem enterPhase (phase : Phase) : Mirrors P Eq (enterPhase phase) (enterPhase phase) :=
  modifyContext fun _ => rfl

theorem addFilter {filter filter' : String} (h : Fragment.Alike P filter filter') :
    Mirrors P Eq (addFilter filter) (addFilter filter') :=
  modifyQuery fun _ _ hq => hq.addFilter h

/-- Steps in a context that is changed in the same way. -/
theorem within {change : Context → Context}
    (hplain : ∀ c : Context, (∀ name ∈ c.tableAlias, Plain name) →
      ∀ name ∈ (change c).tableAlias, Plain name)
    (h : Mirrors P R steps steps') : Mirrors P R (within change steps) (within change steps') := by
  intro w w' hw
  obtain ⟨houtcome, hleft⟩ := h { w with context := change w.context }
    { w' with context := change w'.context }
    ⟨hw.domain, congrArg change hw.context, hplain _ hw.tableAlias, hw.query⟩
  rw [runFrom_within, runFrom_within]
  exact ⟨houtcome, hleft.domain, hw.context, hw.tableAlias, hleft.query⟩

theorem restoringDomain (h : Mirrors P R steps steps') :
    Mirrors P R (restoringDomain steps) (restoringDomain steps') := by
  intro w w' hw
  obtain ⟨houtcome, hleft⟩ := h w w' hw
  exact ⟨houtcome, hw.domain, hleft.context, hleft.tableAlias, hleft.query⟩

/-- A use of a table is added on both sides. -/
theorem addTable {use table : String} (huse : Plain use) (htable : Plain table)
    (avoidAlias : Bool) : Mirrors P Eq (WalkM.modifyQuery (Query.addTable use table avoidAlias))
      (WalkM.modifyQuery (Query.addTable use table avoidAlias)) :=
  .modifyQuery fun _ _ hq => hq.addTable huse htable avoidAlias

end Mirrors

/-! ## Hosts -/

/-- A domain that can be told of without looking at literals: its table and the fields of its scopes
are plain, and its scopes and what it does about a missing table do not depend on literals. -/
structure Profile.Blind (P : String → String → Prop) (profile : Profile) : Prop where
  mainTable : Plain profile.mainTable
  scope : ∀ name w w', Walk.Alike P w w' → profile.scope name w' = profile.scope name w
  rule : ∀ name w current previous,
    profile.scope name w = .ok (some (.compare current previous)) → Plain current ∧ Plain previous
  missingTable : ∀ name table q q', Plain name → Plain table → q.Alike P q' →
    SameOutcome Eq (Query.Alike P) (profile.missingTable name table q)
      (profile.missingTable name table q')

/-- Hooks that do the same from walks that differ in their literals. Fields are rendered as plain
texts, and calls and equalities are declined. -/
structure Host.Blind (P : String → String → Prop) (host : Host) : Prop where
  custom : host.options.group = none ∨ host.customQueries = .empty
  translator : host.options.translator = none
  connection : host.options.connection = none
  profile : ∀ name profile, host.profile? name = some profile → profile.Blind P
  relation : ∀ domain kind name, Plain name →
    Mirrors P Eq (host.relation domain kind name) (host.relation domain kind name)
  field : ∀ name, Plain name → Mirrors P (fun text text' => text' = text ∧ ∀ t ∈ text, Plain t)
    (host.field name) (host.field name)
  function : ∀ argument argument' method, Mirrors P (fun text text' => text = none ∧ text' = none)
    (host.function argument method) (host.function argument' method)
  equal : ∀ left left' right right', Mirrors P (fun text text' => text = none ∧ text' = none)
    (host.equal left right) (host.equal left' right')
  process : ∀ t t', Grammar.Shaped t → Tree.Alike P t t' →
    Mirrors P (Fragment.Alike P) (host.process t) (host.process t')

namespace Host.Blind

open WalkM

variable {host : Host} (h : host.Blind P)

include h

theorem activeProfile : Mirrors P (fun profile profile' => profile' = profile ∧ profile.Blind P)
    host.activeProfile host.activeProfile := by
  refine Mirrors.get.bind fun w w' hw => ?_
  dsimp only
  rw [hw.domain]
  cases hprofile : host.profile? w.domain with
  | some profile => exact .pure ⟨rfl, h.profile _ _ hprofile⟩
  | none => exact .throw _

theorem default (key : String) : Mirrors P Eq (host.default key) (host.default key) := by
  refine h.activeProfile.bind ?_
  rintro profile _ ⟨rfl, -⟩
  exact .pure rfl

theorem defaultScope : Mirrors P Eq host.defaultScope host.defaultScope := by
  refine Mirrors.context.bind ?_
  rintro context _ rfl
  split
  · exact h.default _
  · refine h.activeProfile.bind ?_
    rintro profile _ ⟨rfl, -⟩
    exact .pure rfl

theorem quoteLiteral {content content' : String} (hcontent : P content content') :
    Mirrors P (Fragment.Alike P) (host.quoteLiteral content) (host.quoteLiteral content') := by
  refine Mirrors.query.bind fun q q' _ => ?_
  rw [h.connection]
  exact .pure (Fragment.alike_literal hcontent)

/-- A field is rendered as the same plain text. -/
theorem resolveField {name : String} (hname : Plain name) :
    Mirrors P SamePlain (host.resolveField name) (host.resolveField name) := by
  refine (h.field name hname).bind ?_
  rintro _ rendered ⟨rfl, hrendered⟩
  cases rendered with
  | some text => exact .pure ⟨rfl, hrendered text rfl⟩
  | none =>
    refine Mirrors.query.bind fun q q' hq => ?_
    rw [hq.read (fun q => q.attributes) fun _ _ => rfl]
    cases hfound : q.attributes.find? name with
    | none => exact .throw _
    | some expression =>
      have hplain := hq.settled.attributes.find? hfound
      refine Mirrors.context.bind ?_
      rintro context _ rfl
      refine .pure ⟨rfl, ?_⟩
      unfold Host.attributeText
      split
      · exact Fragment.plain_append.2 ⟨Fragment.plain_append.2 ⟨by decide, hplain⟩, by decide⟩
      · exact hplain

/-- A field of the caller's record is the same bind. -/
theorem attr {name : String} (hname : Plain name) :
    Mirrors P (Fragment.Alike P) (host.attr name) (host.attr name) := by
  unfold Host.attr
  rw [h.translator]
  exact .pure (Fragment.alike_insertBind hname)

theorem fieldOrAttrIn {name : String} (hname : Plain name) {occurrence : Option String}
    (hoccurrence : ∀ use ∈ occurrence, Plain use) :
    Mirrors P (Fragment.Alike P) (host.fieldOrAttrIn name occurrence)
      (host.fieldOrAttrIn name occurrence) := by
  cases occurrence with
  | none => exact h.attr hname
  | some use =>
    refine (Mirrors.within ?_ (h.resolveField hname)).imp fun _ _ htext => htext.alike
    intro c _ use huse
    exact hoccurrence use huse

theorem fieldOrAttr {name : String} (hname : Plain name) :
    Mirrors P (Fragment.Alike P) (host.fieldOrAttr name) (host.fieldOrAttr name) := by
  refine Mirrors.get.bind fun w w' hw => ?_
  have hsettled := hw.query.settled
  rw [hw.currentAlias]
  refine h.fieldOrAttrIn hname fun use huse => ?_
  rw [Host.currentAlias] at huse
  cases halias : w.context.tableAlias with
  | none =>
    rw [halias] at huse
    have hnewest : w.query.alias? w.query.mainTable 0 = some use := huse
    exact hsettled.alias? hnewest
  | some name =>
    rw [halias] at huse
    exact hw.tableAlias use (halias.trans huse)

/-! ### Scopes -/

theorem applyRule {rule : ScopeRule}
    (hrule : ∀ current previous, rule = .compare current previous → Plain current ∧ Plain previous) :
    Mirrors P Eq (host.applyRule rule) (host.applyRule rule) := by
  cases rule with
  | unscoped => exact .pure rfl
  | compare current previous =>
    obtain ⟨hcurrent, hprevious⟩ := hrule current previous rfl
    refine (h.fieldOrAttr hcurrent).bind fun text text' htext => ?_
    refine Mirrors.query.bind fun q q' hq => ?_
    rw [hq.read (fun q => q.alias? q.mainTable (-1)) fun _ _ => rfl]
    refine (h.fieldOrAttrIn hprevious fun use huse => hq.settled.alias? huse).bind ?_
    intro before before' hbefore
    exact .addFilter ((htext.append (Plain.alike (by decide))).append hbefore)

theorem applyScope (scope : String) :
    Mirrors P Eq (host.applyScope scope) (host.applyScope scope) := by
  refine (Mirrors.enterPhase _).bind fun _ _ _ => ?_
  refine h.activeProfile.bind ?_
  rintro _ profile ⟨rfl, hprofile⟩
  refine Mirrors.get.bind fun w w' hw => ?_
  rw [hprofile.scope scope w w' hw]
  cases hscope : profile.scope scope w with
  | error fault => exact .throw fault
  | ok rule =>
    cases rule with
    | none => exact .throw _
    | some rule =>
      refine h.applyRule ?_
      rintro current previous rfl
      exact hprofile.rule _ _ _ _ hscope

theorem applyScope? (scope : Option String) :
    Mirrors P Eq (host.applyScope? scope) (host.applyScope? scope) := by
  cases scope with
  | none => exact .pure rfl
  | some scope => exact h.applyScope scope

/-! ### Tables -/

theorem joinScope : Mirrors P Eq host.joinScope host.joinScope := by
  refine h.activeProfile.bind ?_
  rintro _ profile ⟨rfl, -⟩
  refine Mirrors.context.bind ?_
  rintro context _ rfl
  exact .pure rfl

theorem addMainTable {use table : String} (huse : Plain use) (htable : Plain table) :
    Mirrors P Eq (host.addMainTable use table) (host.addMainTable use table) := by
  have hadd := Mirrors.addTable (P := P) huse htable
  have halias {first : Bool} {later : WalkM Unit} (hlater : Mirrors P Eq later later) :
      Mirrors P Eq
        (if first = true then do
          modifyContext fun c => { c with tableAlias := some use }
          later
        else later)
        (if first = true then do
          modifyContext fun c => { c with tableAlias := some use }
          later
        else later) := by
    split
    · refine (Mirrors.modify fun w w' hw => ?_).bind fun _ _ _ => hlater
      refine ⟨hw.domain, ?_, ?_, hw.query⟩
      · exact congrArg (fun c : Context => { c with tableAlias := some use }) hw.context
      · rintro name ⟨⟩
        exact huse
    · exact hlater
  have hreset : Mirrors P Eq (modifyContext fun c => { c with scopeType := none })
      (modifyContext fun c => { c with scopeType := none }) :=
    .modifyContext fun _ => rfl
  unfold Host.addMainTable
  refine Mirrors.context.bind ?_
  rintro before _ rfl
  refine halias (Mirrors.context.bind ?_)
  rintro context _ rfl
  split
  · refine hreset.bind fun _ _ _ => ?_
    refine h.joinScope.bind ?_
    rintro scope _ rfl
    cases scope with
    | some scope =>
      refine (Mirrors.addTable huse huse _).bind fun _ _ _ => ?_
      exact (h.applyScope scope).bind fun _ _ _ => hadd _
    | none => exact hadd _
  · refine hreset.bind fun _ _ _ => ?_
    refine (hadd _).bind fun _ _ _ => ?_
    refine Mirrors.context.bind ?_
    rintro context _ rfl
    cases context.scope with
    | some scope => exact h.applyScope scope
    | none =>
      refine h.defaultScope.bind ?_
      rintro scope _ rfl
      exact h.applyScope? scope
  · exact hadd _

theorem addTableAs {use table : String} (huse : Plain use) (htable : Plain table) :
    Mirrors P Eq (host.addTableAs use table) (host.addTableAs use table) := by
  refine Mirrors.query.bind fun q q' hq => ?_
  rw [hq.read (fun q => q.mainTable) fun _ _ => rfl]
  split
  · exact h.addMainTable huse htable
  · exact .addTable huse htable true

/-- A use of a table by its own name. -/
theorem addTable {table : String} (htable : Plain table) :
    Mirrors P Eq (host.addTable table) (host.addTable table) :=
  h.addTableAs htable htable

end Host.Blind

end RelationSql
