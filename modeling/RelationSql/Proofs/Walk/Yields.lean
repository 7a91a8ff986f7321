import RelationSql.Catalog

/-!
# Outcomes of steps

How a sequence of steps runs from a state (`runFrom_bind`), and steps that yield a value and leave
the state as it is (`Yields`).
-/

namespace RelationSql.WalkM

variable {α β : Type}

theorem runFrom_pure (a : α) (w : Walk) : (pure a : WalkM α).runFrom w = (.ok a, w) := rfl

theorem runFrom_throw (fault : CompileError) (w : Walk) :
    (throw fault : WalkM α).runFrom w = (.error fault, w) := rfl

/-- A sequence of steps goes on from the state that the first steps leave, unless they fail. -/
theorem runFrom_bind (steps : WalkM α) (next : α → WalkM β) (w : Walk) :
    (steps >>= next).runFrom w =
      match steps.runFrom w with
      | (.ok a, left) => (next a).runFrom left
      | (.error fault, left) => (.error fault, left) := by
  unfold runFrom
  rw [ExceptT.run_bind, StateT.run_bind]
  rcases (ExceptT.run steps).run w with ⟨outcome, left⟩
  cases outcome <;> rfl

/-- After steps that succeed, the next steps run from the state that they leave. -/
theorem runFrom_bind_of_ok {steps : WalkM α} {w left : Walk} {a : α}
    (h : steps.runFrom w = (.ok a, left)) (next : α → WalkM β) :
    (steps >>= next).runFrom w = (next a).runFrom left := by
  rw [runFrom_bind, h]

/-- Steps that fail make what follows them fail. -/
theorem runFrom_bind_error {steps : WalkM α} {w : Walk} {fault : CompileError}
    (h : (steps.runFrom w).1 = .error fault) (next : α → WalkM β) :
    ((steps >>= next).runFrom w).1 = .error fault := by
  rw [runFrom_bind]
  rcases hrun : steps.runFrom w with ⟨outcome, left⟩
  rw [hrun] at h
  obtain rfl : outcome = .error fault := h
  rfl

/-- A sequence of steps that succeeds consists of steps that do. -/
theorem runFrom_bind_eq_ok {steps : WalkM α} {next : α → WalkM β} {w left : Walk} {b : β}
    (h : (steps >>= next).runFrom w = (.ok b, left)) :
    ∃ a middle, steps.runFrom w = (.ok a, middle) ∧ (next a).runFrom middle = (.ok b, left) := by
  rw [runFrom_bind] at h
  split at h
  · next a middle hsteps => exact ⟨a, middle, hsteps, h⟩
  · cases h

/-- Steps in a changed context leave the context as it was. -/
theorem runFrom_within (change : Context → Context) (steps : WalkM α) (w : Walk) :
    (within change steps).runFrom w =
      ((steps.runFrom { w with context := change w.context }).1,
        { (steps.runFrom { w with context := change w.context }).2 with context := w.context }) :=
  rfl

/-- The steps yield the value and leave the state as it is. -/
def Yields (steps : WalkM α) (w : Walk) (a : α) : Prop :=
  steps.runFrom w = (.ok a, w)

namespace Yields

theorem pure (a : α) (w : Walk) : Yields (pure a) w a := rfl

theorem bind {steps : WalkM α} {next : α → WalkM β} {w : Walk} {a : α} {b : β}
    (h : Yields steps w a) (hnext : Yields (next a) w b) : Yields (steps >>= next) w b := by
  unfold Yields at h hnext ⊢
  rw [runFrom_bind_of_ok h]
  exact hnext

theorem map {steps : WalkM α} {w : Walk} {a : α} (h : Yields steps w a) (f : α → β) :
    Yields (do return f (← steps)) w (f a) :=
  h.bind (pure (f a) w)

theorem within {steps : WalkM α} {change : Context → Context} {w : Walk} {a : α}
    (h : Yields steps { w with context := change w.context } a) :
    Yields (WalkM.within change steps) w a := by
  unfold Yields at h ⊢
  rw [runFrom_within, h]

end Yields

/-! ## Children of a node -/

open RelationSql.Part

theorem yields_child {parts : List Part} {index : Nat} {part : Part} (h : parts[index]? = some part)
    (tag : Tag) (w : Walk) : Yields (child tag parts index) w part := by
  unfold child
  rw [h]
  exact Yields.pure part w

theorem yields_renderChild {parts : List Part} {index : Nat} {part : Part}
    (h : parts[index]? = some part) {w : Walk} {text : String} (hpart : Yields part.render w text)
    (tag : Tag) : Yields (renderChild tag parts index) w text :=
  (yields_child h tag w).bind hpart

theorem yields_atomChild {parts : List Part} {index : Nat} {part : Part}
    (h : parts[index]? = some part) {text : String} (hatom : part.tree.atom? = some text) (tag : Tag)
    (w : Walk) : Yields (atomChild tag parts index) w text := by
  refine (yields_child h tag w).bind ?_
  rw [hatom]
  exact Yields.pure text w

/-- A rendered child is a child. -/
theorem runFrom_renderChild_eq_ok {parts : List Part} {index : Nat} {tag : Tag} {w left : Walk}
    {text : String} (h : (renderChild tag parts index).runFrom w = (.ok text, left)) :
    ∃ part, parts[index]? = some part ∧ part.render.runFrom w = (.ok text, left) := by
  obtain ⟨part, middle, hchild, hrender⟩ := runFrom_bind_eq_ok h
  unfold child at hchild
  split at hchild
  · next hpart =>
    cases hchild
    exact ⟨_, hpart, hrender⟩
  · cases hchild

/-! ## The active domain -/

/-- The state is read without changing it. -/
theorem yields_get (w : Walk) : Yields (get : WalkM Walk) w w := rfl

/-- The query is read without changing it. -/
theorem yields_query (w : Walk) : Yields query w w.query := rfl

/-- The context is read without changing it. -/
theorem yields_context (w : Walk) : Yields context w w.context := rfl

theorem yields_domain {catalog : Catalog} {domain : Domain} {name : String}
    (h : catalog.domains.find? name = some domain) (w : Walk) :
    Yields (catalog.domain name) w domain := by
  unfold Catalog.domain
  rw [h]
  exact Yields.pure domain w

/-- The active domain is the one that the state names. -/
theorem yields_activeDomain {catalog : Catalog} {domain : Domain} {w : Walk}
    (h : catalog.domains.find? w.domain = some domain) : Yields catalog.activeDomain w domain :=
  (yields_get w).bind (yields_domain h w)

section Active

variable {catalog : Catalog} {domain : Domain} {w : Walk} (options : Options) (depth : Nat)
  (h : catalog.domains.find? w.domain = some domain)

include h

/-- Hooks see the profile of the active domain. -/
theorem yields_activeProfile : Yields (catalog.host options depth).activeProfile w domain.profile := by
  have hfound : (catalog.host options depth).profile? w.domain = some domain.profile := by
    cases depth <;> simp [Catalog.host, h]
  refine (yields_get w).bind ?_
  dsimp only
  rw [hfound]
  exact .pure _ w

/-- A default is that of the compile, or else that of the active domain. -/
theorem yields_default (key : String) : Yields ((catalog.host options depth).default key) w
    (options.defaults.find? key <|> domain.profile.default key) := by
  have hoptions : (catalog.host options depth).options = options := by cases depth <;> rfl
  refine (yields_activeProfile options depth h).bind ?_
  rw [hoptions]
  exact .pure _ w

end Active

/-! ## Relations -/

/-- A relation renders as nothing, once its hooks have run. -/
theorem runFrom_relationLeaf {host : Host} (atEnd : WalkM Unit) {name : String} {w left : Walk}
    (h : (Clause.relation host name).runFrom w = (.ok (), left)) :
    (renderWith host atEnd (.leaf .relation name)).runFrom w = (.ok "", left) := by
  have hname : Yields (atomChild .relation (ofTrees (renderNode host atEnd) [.atom name]) 0) w name :=
    yields_atomChild rfl rfl .relation w
  show (atomChild .relation (ofTrees (renderNode host atEnd) [.atom name]) 0 >>= fun name =>
    silently (Clause.relation host name)).runFrom w = _
  rw [runFrom_bind_of_ok hname, silently, runFrom_bind_of_ok h]
  rfl

end RelationSql.WalkM

/-! ## Compiles -/

namespace RelationSql.Catalog

variable {catalog : Catalog} {options : Options} {name source : String} {start : Domain} {tree : Tree} {q : Query}

/-- A source that is read into a tree compiles as the walk over the tree runs. -/
theorem compile_eq (options : Options) (hstart : catalog.domains.find? name = some start)
    (hparse : Grammar.parse source = .ok tree) :
    catalog.compile options name source =
      outcome source ((catalog.walk options tree).runFrom (catalog.start options start)) := by
  rw [Catalog.compile, hstart]
  simp only [hparse]

/-- A source that is read into a tree compiles if the walk over the tree succeeds. -/
theorem compile_of_run {left : Walk} (hstart : catalog.domains.find? name = some start)
    (hparse : Grammar.parse source = .ok tree)
    (hrun : (catalog.walk options tree).runFrom (catalog.start options start) = (.ok (), left)) :
    catalog.compile options name source = .ok left.query := by
  rw [compile_eq options hstart hparse, hrun]
  rfl

/-- A walk over a tree that is compiled succeeds. -/
theorem run_of_compile (hstart : catalog.domains.find? name = some start)
    (hparse : Grammar.parse source = .ok tree) (hcompile : catalog.compile options name source = .ok q) :
    ∃ left, (catalog.walk options tree).runFrom (catalog.start options start) = (.ok (), left) ∧
      left.query = q := by
  rw [compile_eq options hstart hparse] at hcompile
  revert hcompile
  rcases (catalog.walk options tree).runFrom (catalog.start options start) with ⟨fault | _, left⟩
  · cases fault <;> simp [outcome]
  · rintro ⟨⟩
    exact ⟨left, rfl, rfl⟩

/-- A source that compiles is read into a tree, and the walk over the tree succeeds. -/
theorem exists_run_of_compile (hcompile : catalog.compile options name source = .ok q) :
    ∃ start tree left, catalog.domains.find? name = some start ∧ Grammar.parse source = .ok tree ∧
      (catalog.walk options tree).runFrom (catalog.start options start) = (.ok (), left) ∧
      left.query = q := by
  cases hstart : catalog.domains.find? name with
  | none =>
    rw [Catalog.compile, hstart] at hcompile
    cases hcompile
  | some start =>
    cases hparse : Grammar.parse source with
    | error fault =>
      rw [Catalog.compile, hstart] at hcompile
      simp only [hparse] at hcompile
      cases hcompile
    | ok tree =>
      obtain ⟨left, hrun, hquery⟩ := run_of_compile hstart hparse hcompile
      exact ⟨start, tree, left, rfl, rfl, hrun, hquery⟩

end RelationSql.Catalog
