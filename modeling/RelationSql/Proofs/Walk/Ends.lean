import RelationSql.Proofs.Query.Weighed
import RelationSql.Proofs.Walk.Clauses

/-!
# What hooks do to a ledger

Steps end in a state with a property, or in an error that is allowed (`Ends`). A walk holds a ledger if
its query is written by it (`Gauge.Holds`), and most steps keep it: the hooks of a domain and all that a
host offers to them (`Host.Weighed`), as long as the texts they write weigh nothing.
-/

namespace RelationSql

open Grammar WalkM RelationSql.Fragment

/-! ## Steps from one property to another -/

/-- From a state with the first property, the steps end in a state with the second one, or in an error that
is allowed. -/
def Ends {α : Type} (F : CompileError → Prop) (P : Walk → Prop) (steps : WalkM α)
    (Q : α → Walk → Prop) : Prop :=
  ∀ w, P w → Outcome F (fun a => Q a (steps.runFrom w).2) (steps.runFrom w).1

namespace Ends

variable {α β : Type} {F : CompileError → Prop} {P : Walk → Prop} {Q : α → Walk → Prop}
  {S : β → Walk → Prop} {steps : WalkM α} {next : α → WalkM β}

theorem bind (h : Ends F P steps Q) (hnext : ∀ a, Ends F (Q a) (next a) S) :
    Ends F P (steps >>= next) S := by
  intro w hw
  have hsteps := h w hw
  rw [runFrom_bind]
  revert hsteps
  rcases steps.runFrom w with ⟨fault | a, left⟩
  · exact id
  · exact hnext a left

theorem pure {a : α} (h : ∀ w, P w → Q a w) : Ends F P (Pure.pure a) Q :=
  h

theorem throw {fault : CompileError} (h : F fault) : Ends F P (MonadExcept.throw fault : WalkM α) Q :=
  fun _ _ => h

theorem imp {P' : Walk → Prop} {Q' : α → Walk → Prop} (h : Ends F P steps Q) (hP : ∀ w, P' w → P w)
    (hQ : ∀ a w, Q a w → Q' a w) : Ends F P' steps Q' := by
  intro w hw
  have hsteps := h w (hP w hw)
  revert hsteps
  rcases (steps.runFrom w).1 with fault | a
  · exact id
  · exact hQ a _

/-- What does not depend on the state is known in advance. -/
theorem of_and {p : Prop} (h : p → Ends F P steps Q) : Ends F (fun w => p ∧ P w) steps Q :=
  fun w hw => h hw.1 w hw.2

/-- The state may be looked at. -/
theorem get_bind {next : Walk → WalkM β} (h : ∀ w, P w → Ends F (fun w' => w' = w) (next w) S) :
    Ends F P (get >>= next) S :=
  fun w hw => h w hw w rfl

theorem query_bind {next : Query → WalkM β}
    (h : ∀ w, P w → Ends F (fun w' => w' = w) (next w.query) S) : Ends F P (WalkM.query >>= next) S :=
  fun w hw => h w hw w rfl

/-- Steps from a state are steps from all states with a property that it has. -/
theorem of_eq {w : Walk} (h : Ends F P steps Q) (hw : P w) : Ends F (fun w' => w' = w) steps Q :=
  h.imp (fun _ heq => heq ▸ hw) fun _ _ => id

/-- Steps in a context of their own. -/
theorem within {change : Context → Context} {P' : Walk → Prop} {H : α → Walk → Prop}
    (h : Ends F P' steps H) (hP : ∀ w, P w → P' { w with context := change w.context })
    (hQ : ∀ a w left, P w → H a left → Q a { left with context := w.context }) :
    Ends F P (WalkM.within change steps) Q := by
  intro w hw
  have hsteps := h _ (hP w hw)
  rw [runFrom_within]
  revert hsteps
  rcases steps.runFrom { w with context := change w.context } with ⟨fault | a, left⟩
  · exact id
  · exact hQ a w left hw

end Ends

/-! ## Ledgers -/

namespace Gauge

variable {W : Type} [AddCommMonoid W] (g : Gauge W)

/-- The query of the walk is written by the ledger, and fields are rendered with a name. -/
structure Holds (l : Ledger W) (w : Walk) : Prop where
  query : g.Written l w.query
  name : ∀ name ∈ w.context.tableAlias, g.Word name

/-- The steps lead from one ledger to another and yield a value with the property. -/
def Runs {α : Type} (l l' : Ledger W) (steps : WalkM α) (Q : α → Prop) : Prop :=
  Ends g.faults (g.Holds l) steps fun a w => Q a ∧ g.Holds l' w

/-- A text of names. In a gauge that looks at signs it must not be empty. -/
def Spells (text : String) : Prop :=
  g.Word text ∧ (g.signed → text ≠ "")

variable {g} {l l' l'' : Ledger W} {α β : Type} {Q : α → Prop} {S : β → Prop} {steps : WalkM α}
  {next : α → WalkM β}

namespace Runs

theorem bind (h : g.Runs l l' steps Q) (hnext : ∀ a, Q a → g.Runs l' l'' (next a) S) :
    g.Runs l l'' (steps >>= next) S :=
  Ends.bind h fun a w hw => hnext a hw.1 w hw.2

theorem pure {a : α} (h : Q a) : g.Runs l l (Pure.pure a) Q :=
  Ends.pure fun _ hw => ⟨h, hw⟩

theorem throw (hg : g.Lawful) {fault : CompileError} (h : fault.IsTold) :
    g.Runs l l' (MonadExcept.throw fault : WalkM α) Q :=
  Ends.throw (hg.faults fault h)

theorem imp {Q' : α → Prop} (h : g.Runs l l' steps Q) (hQ : ∀ a, Q a → Q' a) : g.Runs l l' steps Q' :=
  Ends.imp h (fun _ => id) fun a _ hw => ⟨hQ a hw.1, hw.2⟩

theorem get : g.Runs l l get fun w => g.Holds l w :=
  fun _ hw => ⟨hw, hw⟩

theorem query : g.Runs l l query fun q => g.Written l q :=
  fun _ hw => ⟨hw.query, hw⟩

theorem context : g.Runs l l context fun _ => True :=
  fun _ hw => ⟨trivial, hw⟩

theorem modifyQuery {change : Query → Query} (h : ∀ q, g.Written l q → g.Written l' (change q)) :
    g.Runs l l' (modifyQuery change) fun _ => True :=
  fun _ hw => ⟨trivial, h _ hw.query, hw.name⟩

/-- A change of the context, with a name to render fields with. -/
theorem modifyContext {change : Context → Context}
    (h : ∀ context : Context, (∀ name ∈ context.tableAlias, g.Word name) →
      ∀ name ∈ (change context).tableAlias, g.Word name) :
    g.Runs l l (modifyContext change) fun _ => True :=
  fun _ hw => ⟨trivial, hw.query, h _ hw.name⟩

theorem enterPhase (phase : Phase) : g.Runs l l (enterPhase phase) fun _ => True :=
  modifyContext fun _ => id

theorem addFilter {x : W} {filter : String} (h : g.weighs x filter) :
    g.Runs l (l.filter x) (addFilter filter) fun _ => True :=
  modifyQuery fun _ hq => hq.addFilter h

theorem addLight {filter : String} (h : g.weighs 0 filter) :
    g.Runs l l (WalkM.addFilter filter) fun _ => True :=
  modifyQuery fun _ hq => hq.addLight h

theorem within {change : Context → Context} (h : g.Runs l l' steps Q)
    (hchange : ∀ context : Context, (∀ name ∈ context.tableAlias, g.Word name) →
      ∀ name ∈ (change context).tableAlias, g.Word name) : g.Runs l l' (within change steps) Q :=
  Ends.within h (fun _ hw => ⟨hw.query, hchange _ hw.name⟩) fun _ _ _ hw hleft =>
    ⟨hleft.1, hleft.2.query, hw.name⟩

end Runs

/-! ## Hosts -/

/-- A domain whose names and scopes weigh nothing, and which mends branches without adding to them. -/
structure Fits (g : Gauge W) (profile : Profile) : Prop where
  mainTable : g.Word profile.mainTable
  scope : ∀ name l w, g.Holds l w → Outcome g.faults (fun rule => ∀ current previous,
    rule = some (.compare current previous) → g.Word current ∧ g.Word previous) (profile.scope name w)
  mends : g.Mends profile

end Gauge

variable {W : Type} [AddCommMonoid W] {g : Gauge W}

/-- Hooks that keep the ledger: what they write weighs nothing, and what they make of expressions weighs
what the expressions do. -/
structure Host.Weighed (g : Gauge W) (host : Host) : Prop where
  options : host.options = g.options
  customs : host.customQueries = g.customs
  profile : ∀ name profile, host.profile? name = some profile → g.Fits profile
  relation : ∀ l domain kind name, g.Word name →
    g.Runs l l (host.relation domain kind name) fun _ => True
  field : ∀ l name, g.Word name → g.Runs l l (host.field name) fun text => ∀ t ∈ text, g.Spells t
  function : ∀ l x leads argument method, g.Speaks x leads argument → IsName method →
    g.Runs l l (host.function argument method) fun text => ∀ t ∈ text, g.Speaks x leads t
  equal : ∀ l left right, Formed g.swallows .expression left → Formed g.swallows .expression right →
    g.Runs l l (host.equal left right) fun text =>
      ∀ t ∈ text, g.Speaks (g.weigh left + g.weigh right) left.leads t
  process : ∀ l t, Formed g.swallows .expression t →
    g.Runs l l (host.process t) (g.Speaks (g.weigh t) t.leads)

namespace Host.Weighed

open Gauge

variable {host : Host} {l : Ledger W} (hg : g.Lawful) (h : host.Weighed g)

include hg h

theorem activeProfile : g.Runs l l host.activeProfile g.Fits := by
  refine Runs.get.bind fun w _ => ?_
  dsimp only
  cases hprofile : host.profile? w.domain with
  | some profile => exact .pure (h.profile _ _ hprofile)
  | none => exact .throw hg trivial

theorem default (key : String) : g.Runs l l (host.default key) fun _ => True :=
  (h.activeProfile hg).bind fun _ _ => .pure trivial

theorem defaultScope : g.Runs l l host.defaultScope fun _ => True := by
  refine Runs.context.bind fun context _ => ?_
  split
  · exact h.default hg _
  · exact (h.activeProfile hg).bind fun _ _ => .pure trivial

/-! ### Fields -/

/-- A field is rendered as a name, or as a selected key. -/
theorem resolveField {name : String} (hname : g.Word name) :
    g.Runs l l (host.resolveField name) g.Spells := by
  refine (h.field l name hname).bind fun rendered hrendered => ?_
  cases rendered with
  | some text => exact .pure (hrendered text rfl)
  | none =>
    refine Runs.query.bind fun q hq => ?_
    cases hfound : q.attributes.find? name with
    | none => exact .throw hg trivial
    | some expression =>
      have hword := hq.names.attributes.find? hfound
      refine Runs.context.bind fun context _ => .pure ⟨?_, fun hsigned => ?_⟩
      · unfold Host.attributeText
        split
        · exact ((hg.isClass.word (by decide)).append hword).append (hg.isClass.word (by decide))
        · exact hword
      · have hne := (hq.keys hsigned).1.find? hfound
        unfold Host.attributeText
        split
        · simp
        · exact hne

/-- A field of the caller's record is a bind. -/
theorem attr {name : String} (hname : g.Word name) : g.Runs l l (host.attr name) (g.weighs 0) := by
  have hbound := fun expression => hg.bound name expression hname
  unfold Host.attr
  rw [h.options]
  unfold Options.Translates at hbound
  split
  · next htranslator =>
    rw [htranslator] at hbound
    exact .pure (hbound name rfl)
  · next translate htranslator =>
    rw [htranslator] at hbound
    cases hexpression : translate name with
    | ok expression => exact .pure (hbound expression hexpression)
    | error reason => exact .throw hg trivial

theorem fieldOrAttrIn {name : String} (hname : g.Word name) {occurrence : Option String}
    (hoccurrence : ∀ use ∈ occurrence, g.Word use) :
    g.Runs l l (host.fieldOrAttrIn name occurrence) (g.weighs 0) := by
  cases occurrence with
  | none => exact h.attr hg hname
  | some use =>
    have hfield := ((h.resolveField hg hname).imp fun text htext => hg.name text htext.1 : g.Runs l l _ _)
    exact hfield.within fun _ _ => hoccurrence

theorem fieldOrAttr {name : String} (hname : g.Word name) :
    g.Runs l l (host.fieldOrAttr name) (g.weighs 0) := by
  refine Runs.get.bind fun w hw => h.fieldOrAttrIn hg hname fun use huse => ?_
  rw [Host.currentAlias] at huse
  cases halias : w.context.tableAlias with
  | none =>
    rw [halias] at huse
    have hnewest : w.query.alias? w.query.mainTable 0 = some use := huse
    exact hw.query.names.alias? hnewest
  | some name =>
    rw [halias] at huse
    exact hw.name use (halias.trans huse)

/-! ### Scopes -/

theorem applyRule {rule : ScopeRule}
    (hrule : ∀ current previous, rule = .compare current previous → g.Word current ∧ g.Word previous) :
    g.Runs l l (host.applyRule rule) fun _ => True := by
  cases rule with
  | unscoped => exact .pure trivial
  | compare current previous =>
    obtain ⟨hcurrent, hprevious⟩ := hrule current previous rfl
    refine (h.fieldOrAttr hg hcurrent).bind fun text htext => ?_
    refine Runs.query.bind fun q hq => ?_
    refine (h.fieldOrAttrIn hg hprevious fun use huse => hq.names.alias? huse).bind fun before hbefore => ?_
    exact .addLight (hg.append_light (hg.append_light htext (hg.word (by decide))) hbefore)

theorem applyScope (scope : String) : g.Runs l l (host.applyScope scope) fun _ => True := by
  refine (Runs.enterPhase _).bind fun _ _ => (h.activeProfile hg).bind fun profile hprofile => ?_
  refine Runs.get.bind fun w hw => ?_
  have hscope := hprofile.scope scope l w hw
  split
  · next fault hrule =>
    rw [hrule] at hscope
    exact Ends.throw hscope
  · exact .throw hg trivial
  · next rule hrule =>
    rw [hrule] at hscope
    refine h.applyRule hg fun current previous heq => hscope current previous ?_
    rw [heq]

theorem applyScope? (scope : Option String) : g.Runs l l (host.applyScope? scope) fun _ => True := by
  cases scope with
  | none => exact .pure trivial
  | some scope => exact h.applyScope hg scope

/-! ### Tables -/

theorem joinScope : g.Runs l l host.joinScope fun _ => True :=
  (h.activeProfile hg).bind fun _ _ => Runs.context.bind fun _ _ => .pure trivial

theorem addMainTable {use table : String} (huse : g.Word use) (htable : g.Word table) :
    g.Runs l l (host.addMainTable use table) fun _ => True := by
  have hadd {table : String} (htable : g.Word table) (first : Bool) :
      g.Runs l l (modifyQuery (Query.addTable use table first)) fun _ => True :=
    .modifyQuery fun _ hq => hq.addTable hg huse htable first
  have halias {first : Bool} {later : WalkM Unit} (hlater : g.Runs l l later fun _ => True) :
      g.Runs l l
        (if first = true then do
          modifyContext fun c => { c with tableAlias := some use }
          later
        else later) fun _ => True := by
    split
    · refine (Runs.modifyContext fun context _ name hname => ?_).bind fun _ _ => hlater
      exact Option.some.inj hname ▸ huse
    · exact hlater
  have hreset : g.Runs l l (modifyContext fun c => { c with scopeType := none }) fun _ => True :=
    .modifyContext fun _ => id
  unfold Host.addMainTable
  refine Runs.context.bind fun before _ => halias (Runs.context.bind fun context _ => ?_)
  split
  · refine hreset.bind fun _ _ => (h.joinScope hg).bind fun scope _ => ?_
    cases scope with
    | some scope =>
      exact (hadd huse _).bind fun _ _ => (h.applyScope hg scope).bind fun _ _ => hadd htable _
    | none => exact hadd htable _
  · refine hreset.bind fun _ _ => (hadd htable _).bind fun _ _ => Runs.context.bind fun context _ => ?_
    cases context.scope with
    | some scope => exact h.applyScope hg scope
    | none => exact (h.defaultScope hg).bind fun scope _ => h.applyScope? hg scope
  · exact hadd htable _

theorem addTableAs {use table : String} (huse : g.Word use) (htable : g.Word table) :
    g.Runs l l (host.addTableAs use table) fun _ => True := by
  refine Runs.query.bind fun q _ => ?_
  split
  · exact h.addMainTable hg huse htable
  · exact .modifyQuery fun _ hq => hq.addTable hg huse htable true

/-- A use of a table by its own name. -/
theorem addTable {table : String} (htable : g.Word table) :
    g.Runs l l (host.addTable table) fun _ => True :=
  h.addTableAs hg htable htable

/-! ### Literals -/

/-- A quoted text of the source. -/
theorem quoteLiteral (content : String) :
    g.Runs l l (host.quoteLiteral content) (g.Speaks 0 false) := by
  refine Runs.query.bind fun q hq => ?_
  rw [h.options]
  exact .pure (hg.literal _ content hq.dialect)

/-- An interpolated text needs a translator. -/
theorem template (content : String) :
    g.Runs l l (Expression.template host content) (g.Speaks (g.template content) false) := by
  have hbound := hg.template content
  unfold Options.Translates at hbound
  unfold Expression.template
  rw [h.options]
  cases htranslator : g.options.translator with
  | none => exact .throw hg trivial
  | some translate =>
    rw [htranslator] at hbound
    have hmarker (expression : String) (hexpression : translate (templateSource content) = .ok expression) :
        g.Speaks (g.template content) false (insertBind expression) :=
      ⟨hbound expression rfl hexpression, by simp [insertBind], by simp [insertBind]⟩
    dsimp only
    unfold Host.attr
    rw [h.options, htranslator]
    dsimp only
    cases hexpression : translate ("\"" ++ content ++ "\"") with
    | ok expression => exact .pure (hmarker expression hexpression)
    | error reason => exact .throw hg trivial

end Host.Weighed

end RelationSql
