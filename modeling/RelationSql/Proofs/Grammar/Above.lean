import RelationSql.Proofs.Grammar.Plain

/-!
# Open nodes above a ground

Conditions that are joined by `AND` are read one after the other. What lies under the words of one of
them is its ground: the filter alone, or an operator over everything in front. The words open and
close nodes above the ground, and as long as they do, the ground does not matter (`closeWhile?_over`).
An operator that closes every node above the ground is the only way down to it
(`closeWhile?_over_ground`).
-/

namespace RelationSql.Grammar

open RelationSql.Source (Span Token TokenKind)

/-! ## Grounds -/

/-- The filter whose condition is read. -/
def bottom : Frame := ⟨.filter, ⟨0, 0⟩, [.leaf .relation "a"]⟩

/-- What lies under the nodes that a fragment has opened. -/
inductive Ground where
  /-- The filter alone. -/
  | bare
  /-- An operator with its first operand. -/
  | op (operator : Operator) (opened : Span) (first : Tree)

namespace Ground

/-- The open nodes of a ground. -/
def frames : Ground → List Frame
  | bare => [bottom]
  | op o s first => [⟨.op o, s, [first]⟩, bottom]

/-- The tag of the innermost open node. -/
def tag : Ground → Tag
  | bare => .filter
  | op o _ _ => .op o

/-- The condition that a tree completes on a ground. -/
def holding : Ground → Tree → Tree
  | bare, t => t
  | op o _ first, t => .node (.op o) [first, t]

/-- Does nothing on the ground bind tighter than `and`? -/
def IsLow (g : Ground) : Prop := tier g.tag ≤ 27

/-- Is the ground the filter, or a conjunction with what stands in front? -/
def IsConjunction (g : Ground) : Prop := g.tag = .filter ∨ g.tag = .op .and

theorem IsConjunction.isLow {g : Ground} (h : g.IsConjunction) : g.IsLow := by
  unfold IsLow
  rcases h with h | h
  · rw [h]
    decide
  · rw [h]
    decide

end Ground

/-! ## States above a ground -/

/-- The innermost open node with one more tree. -/
def received (t : Tree) : List Frame → List Frame
  | [] => []
  | f :: frames => { f with done := t :: f.done } :: frames

/-- What a fragment has added to its ground. -/
inductive Above where
  /-- These nodes are open, and an operand is expected. -/
  | operand (frames : List Frame)
  /-- These nodes are open, and an operand was read. -/
  | after (newest : Tree) (frames : List Frame)

namespace Above

/-- The open nodes above the ground. -/
def frames : Above → List Frame
  | operand above => above
  | after _ above => above

/-- The machine above a ground. -/
def onto (g : Ground) : Above → Machine
  | operand above => ⟨.operand, above ++ g.frames, []⟩
  | after t above => ⟨.afterOperand, received t (above ++ g.frames), []⟩

end Above

/-! ## Closing above a ground -/

/-- Closes the nodes above a ground; yields those that stay open and the newest tree. -/
def closeAbove (p : Tag → Bool) (t : Tree) : List Frame → Option (List Frame × Tree)
  | [] => some ([], t)
  | f :: above =>
    if p f.tag then
      if ({ f with done := t :: f.done } : Frame).isComplete then
        closeAbove p ({ f with done := t :: f.done } : Frame).tree above
      else none
    else some (f :: above, t)

variable {p : Tag → Bool} {t u : Tree} {above left : List Frame} {g : Ground}

/-- What closing leaves is a last part of the open nodes, under nodes that were all closed. -/
theorem closeAbove_eq_some (h : closeAbove p t above = some (left, u)) :
    ∃ closed, above = closed ++ left ∧ (∀ f ∈ closed, p f.tag = true) ∧
      ∀ f rest, left = f :: rest → p f.tag = false := by
  induction above generalizing t with
  | nil =>
    cases h
    exact ⟨[], rfl, by simp, by simp⟩
  | cons f above ih =>
    unfold closeAbove at h
    split at h
    · next hp =>
      split at h
      · obtain ⟨closed, rfl, hclosed, hleft⟩ := ih h
        refine ⟨f :: closed, rfl, ?_, hleft⟩
        exact List.forall_mem_cons.2 ⟨hp, hclosed⟩
      · cases h
    · next hp =>
      cases h
      refine ⟨[], rfl, by simp, ?_⟩
      intro g rest heq
      cases heq
      simpa using hp

/-- Closing through the nodes above a ground goes on at the ground with what was left. -/
theorem closeFrames_append (below : List Frame) (root : List Tree) :
    Machine.closeFrames p [t] (above ++ below) root =
      (closeAbove p t above).bind fun (left, u) =>
        Machine.closeFrames p [u] (left ++ below) root := by
  induction above generalizing t with
  | nil => rfl
  | cons f above ih =>
    rw [closeAbove, List.cons_append, Machine.closeFrames]
    by_cases hp : p f.tag = true
    · by_cases hcomplete : ({ f with done := t :: f.done } : Frame).isComplete = true
      · simpa [hp, hcomplete] using ih
      · simp [hp, hcomplete]
    · simp [hp, Machine.closeFrames]

/-- Closing starts with the tree that the innermost node received last. -/
theorem closeFrames_received {frames : List Frame} (h : frames ≠ []) (root : List Tree) :
    Machine.closeFrames p [] (received t frames) root = Machine.closeFrames p [t] frames root := by
  cases frames with
  | nil => exact absurd rfl h
  | cons f frames => simp [received, Machine.closeFrames]

/-- Nothing is closed at a node that stays open. -/
theorem closeFrames_of_stop {f : Frame} (h : p f.tag = false) (below : List Frame)
    (root : List Tree) :
    Machine.closeFrames p [u] (f :: below) root = some (received u (f :: below), root) :=
  Machine.closeFrames_stop h [u] below root

theorem append_frames_ne_nil (above : List Frame) (g : Ground) : above ++ g.frames ≠ [] := by
  cases g <;> simp [Ground.frames]

theorem closeWhile?_after (g : Ground) : ((Above.after t above).onto g).closeWhile? p =
    ((closeAbove p t above).bind fun (left, u) =>
      Machine.closeFrames p [u] (left ++ g.frames) []).map fun (frames, root) =>
        ⟨.afterOperand, frames, root⟩ := by
  rw [Above.onto, Machine.closeWhile?, closeFrames_received (append_frames_ne_nil above g),
    closeFrames_append]

/-- **Closing that ends above a ground is the same on every ground.** -/
theorem closeWhile?_over (h : closeAbove p t above = some (left, u))
    (hstop : left ≠ [] ∨ p g.tag = false) :
    ((Above.after t above).onto g).closeWhile? p = some ((Above.after u left).onto g) := by
  have hclose : Machine.closeFrames p [u] (left ++ g.frames) [] =
      some (received u (left ++ g.frames), []) := by
    obtain ⟨-, -, -, hleft⟩ := closeAbove_eq_some h
    cases left with
    | cons f left => exact closeFrames_of_stop (hleft f left rfl) _ _
    | nil =>
      have hp : p g.tag = false := by simpa using hstop
      cases g with
      | bare => exact closeFrames_of_stop hp _ _
      | op o s first => exact closeFrames_of_stop hp _ _
  rw [closeWhile?_after, h]
  simp [hclose, Above.onto]

/-- The operator of a low ground is no `between`, so it is complete with its second operand. -/
theorem complete_of_isLow {o : Operator} {s : Span} {first : Tree}
    (hlow : (Ground.op o s first).IsLow) (u : Tree) :
    (⟨.op o, s, [u, first]⟩ : Frame).isComplete = true := by
  have hne : o ≠ .between := by
    rintro rfl
    simp [Ground.IsLow, Ground.tag, tier, operatorTier] at hlow
  simp [Frame.isComplete, hne]

/-- **Closing that passes a ground leaves its condition on the filter.** -/
theorem closeWhile?_over_ground (h : closeAbove p t above = some ([], u))
    (hfilter : p .filter = false) (hlow : g.IsLow) (hg : g.tag = .filter ∨ p g.tag = true) :
    ((Above.after t above).onto g).closeWhile? p =
      some ((Above.after (g.holding u) []).onto .bare) := by
  cases g with
  | bare => exact closeWhile?_over h (Or.inr hfilter)
  | op o s first =>
    have hp : p (.op o) = true := hg.resolve_left (by simp [Ground.tag])
    have hcomplete := complete_of_isLow hlow u
    have hclose : Machine.closeFrames p [u] ([] ++ (Ground.op o s first).frames) [] =
        Machine.closeFrames p [.node (.op o) [first, u]] [bottom] [] :=
      Machine.closeFrames_close (f := ⟨.op o, s, [first]⟩) hp [u] [bottom] [] hcomplete
    rw [closeWhile?_after, h]
    simp only [Option.bind_some, hclose]
    rw [closeFrames_of_stop (f := bottom) hfilter]
    rfl

/-- Closing the ground and the filter leaves the finished condition. -/
theorem closeFrames_ground (hlow : g.IsLow) (hfilter : p .filter = true) (hg : p g.tag = true) :
    Machine.closeFrames p [u] g.frames [] =
      some ([], [.node .filter [.leaf .relation "a", g.holding u]]) := by
  have hbottom : ∀ t, Machine.closeFrames p [t] [bottom] [] =
      some ([], [.node .filter [.leaf .relation "a", t]]) := by
    intro t
    rw [Machine.closeFrames_close (f := bottom) hfilter [t] [] [] rfl]
    rfl
  cases g with
  | bare => exact hbottom u
  | op o s first =>
    have hcomplete := complete_of_isLow hlow u
    have hclose := Machine.closeFrames_close (f := ⟨.op o, s, [first]⟩) hg [u] [bottom] [] hcomplete
    rw [Ground.frames, hclose]
    exact hbottom _

/-- A node that lacks a child cannot be closed on any ground. -/
theorem closeWhile?_over_none (h : closeAbove p t above = none) (g : Ground) :
    ((Above.after t above).onto g).closeWhile? p = none := by
  rw [closeWhile?_after, h]
  rfl

/-- The newest tree of a state after an operand. -/
theorem takeLast?_over (t : Tree) (above : List Frame) (g : Ground) :
    ((Above.after t above).onto g).takeLast? =
      some (t, ⟨.afterOperand, above ++ g.frames, []⟩) := by
  cases h : above ++ g.frames with
  | nil => exact absurd h (append_frames_ne_nil above g)
  | cons f frames => simp [Above.onto, Machine.takeLast?, h, received]

/-! ## Operators above a ground -/

/-- The open nodes that an operator closes. -/
def closedBy (o : Operator) (tag : Tag) : Bool := decide (operatorTier o ≤ tier tag)

theorem closeTier_eq (o : Operator) (span : Span) (m : Machine) :
    m.closeTier (operatorTier o) span = orNear span (m.closeWhile? (closedBy o)) := rfl

theorem closedBy_filter (o : Operator) : closedBy o .filter = false := by
  cases o <;> decide

theorem closedBy_par (o : Operator) : closedBy o .par = false := by
  cases o <;> decide

/-- An operator that does not reach the ground opens its node above it. -/
theorem openOver_over {o : Operator} (h : closeAbove (closedBy o) t above = some (left, u))
    (hstop : left ≠ [] ∨ closedBy o g.tag = false) (span : Span) :
    ((Above.after t above).onto g).openOver (.op o) .operand span =
      .ok ((Above.operand (⟨.op o, span, [u]⟩ :: left)).onto g) := by
  have hclose := closeWhile?_over h hstop
  have htier : tier (.op o) = operatorTier o := rfl
  simp only [Machine.openOver, htier, closeTier_eq, hclose, orNear, bind, Except.bind,
    takeLast?_over]
  rfl

/-- An operator that reaches the ground takes its whole condition. -/
theorem openOver_over_ground {o : Operator} (h : closeAbove (closedBy o) t above = some ([], u))
    (hlow : g.IsLow) (hg : g.tag = .filter ∨ closedBy o g.tag = true) (span : Span) :
    ((Above.after t above).onto g).openOver (.op o) .operand span =
      .ok ((Above.operand []).onto (.op o span (g.holding u))) := by
  have hclose := closeWhile?_over_ground h (closedBy_filter o) hlow hg
  have htier : tier (.op o) = operatorTier o := rfl
  simp only [Machine.openOver, htier, closeTier_eq, hclose, orNear, bind, Except.bind,
    takeLast?_over]
  rfl

/-- An operator over a node that lacks a child does not fit. -/
theorem openOver_over_none {o : Operator} (h : closeAbove (closedBy o) t above = none)
    (g : Ground) (span : Span) :
    ((Above.after t above).onto g).openOver (.op o) .operand span = .error (.near span) := by
  have hclose := closeWhile?_over_none h g
  have htier : tier (.op o) = operatorTier o := rfl
  simp only [Machine.openOver, htier, closeTier_eq, hclose, orNear, bind, Except.bind]

end RelationSql.Grammar
