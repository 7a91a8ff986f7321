import RelationSql.Grammar.Parse

/-!
# Open nodes as an unfinished tree

When the words of a tree were read, the nodes along its right edge are still open. `OpenOver`
relates the tree to that stack: closing the stack as far as the edge of the tree gives the tree back
(`closeFrames_openOver`), and whether the next `and` belongs to an open `between` can be read off the
nodes below the tree (`waitsForAnd_of_openOver`).
-/

namespace RelationSql.Grammar

open RelationSql.Source (Span Token TokenKind)

/-- The operators along the right edge of a tree, from its root to its last operand. -/
def spine : Tree → List Operator
  | .node (.op o) [t] => o :: spine t
  | .node (.op o) [_, t] => o :: spine t
  | .node (.op o) [_, _, t] => o :: spine t
  | _ => []

/-- The tree is what the open nodes `frames` hold over the nodes `below`. -/
inductive OpenOver : Tree → List Frame → List Frame → Prop where
  /-- The tree is the newest child of the node below. -/
  | closed {t : Tree} {f : Frame} {below : List Frame} :
      OpenOver t (f :: below) ({ f with done := t :: f.done } :: below)
  | binary {o : Operator} {s : Span} {l r : Tree} {below frames : List Frame} :
      o ≠ .between → OpenOver r (⟨.op o, s, [l]⟩ :: below) frames →
      OpenOver (.node (.op o) [l, r]) below frames
  | between {s : Span} {v lo hi : Tree} {below frames : List Frame} :
      OpenOver hi (⟨.op .between, s, [lo, v]⟩ :: below) frames →
      OpenOver (.node (.op .between) [v, lo, hi]) below frames
  | not {s : Span} {t : Tree} {below frames : List Frame} :
      OpenOver t (⟨.op .not, s, []⟩ :: below) frames →
      OpenOver (.node (.op .not) [t]) below frames

namespace Machine

/-! ## Closing -/

/-- Nothing is closed below a node that stays open. -/
theorem closeFrames_stop {p : Tag → Bool} {f : Frame} (h : p f.tag = false) (new : List Tree)
    (below : List Frame) (root : List Tree) :
    closeFrames p new (f :: below) root =
      some ({ f with done := new ++ f.done } :: below, root) := by
  simp [closeFrames, h]

/-- A complete node that is closed becomes the newest tree below it. -/
theorem closeFrames_close {p : Tag → Bool} {f : Frame} (h : p f.tag = true) (new : List Tree)
    (below : List Frame) (root : List Tree)
    (complete : ({ f with done := new ++ f.done } : Frame).isComplete = true) :
    closeFrames p new (f :: below) root =
      closeFrames p [({ f with done := new ++ f.done } : Frame).tree] below root := by
  simp [closeFrames, h, complete]

/-- Closing an open tree along its whole right edge leaves it as one new tree. -/
theorem closeFrames_openOver {p : Tag → Bool} {t : Tree} {below frames : List Frame}
    (h : OpenOver t below frames) (hp : ∀ o ∈ spine t, p (.op o) = true) (root : List Tree) :
    closeFrames p [] frames root = closeFrames p [t] below root := by
  induction h with
  | closed => simp [closeFrames]
  | @binary o s l r below frames hne _ ih =>
    simp only [spine, List.mem_cons, forall_eq_or_imp] at hp
    have complete : (⟨.op o, s, [r, l]⟩ : Frame).isComplete = true := by
      simp [Frame.isComplete, hne]
    rw [ih hp.2, closeFrames_close hp.1 _ _ _ complete]
    rfl
  | between _ ih =>
    simp only [spine, List.mem_cons, forall_eq_or_imp] at hp
    rw [ih hp.2, closeFrames_close hp.1 _ _ _ rfl]
    rfl
  | not _ ih =>
    simp only [spine, List.mem_cons, forall_eq_or_imp] at hp
    rw [ih hp.2, closeFrames_close hp.1 _ _ _ rfl]
    rfl

/-- Closing an open tree down to a node that stays open. -/
theorem closeFrames_openOver_stop {p : Tag → Bool} {t : Tree} {f : Frame}
    {below frames : List Frame} (h : OpenOver t (f :: below) frames)
    (hp : ∀ o ∈ spine t, p (.op o) = true) (hf : p f.tag = false) (root : List Tree) :
    closeFrames p [] frames root = some ({ f with done := t :: f.done } :: below, root) := by
  rw [closeFrames_openOver h hp, closeFrames_stop hf]
  rfl

/-! ## The `and` of a `between` -/

/-- A node waits for the `and` after a new tree as it does below an open node. -/
theorem waitsForAnd_received (f : Frame) (t : Tree) (below : List Frame) :
    waitsForAnd false ({ f with done := t :: f.done } :: below) = waitsForAnd true (f :: below) := by
  rw [waitsForAnd, waitsForAnd]
  split
  · simp
  · rfl

/-- A node that binds tighter than `between` is passed over. -/
theorem waitsForAnd_of_lt_tier {f : Frame} (h : 29 < tier f.tag) (above : Bool)
    (below : List Frame) : waitsForAnd above (f :: below) = waitsForAnd true below := by
  have hne : f.tag ≠ .op .between := by
    intro heq
    rw [heq] at h
    exact absurd h (by decide)
  have hle : ¬ tier f.tag ≤ operatorTier .between := Int.not_le.2 h
  rw [waitsForAnd, if_neg hne, if_neg hle]

/-- Under a node that binds looser than `between`, no `and` is waited for. -/
theorem waitsForAnd_of_tier_lt {f : Frame} (h : tier f.tag < 29) (above : Bool)
    (below : List Frame) : waitsForAnd above (f :: below) = false := by
  have hne : f.tag ≠ .op .between := by
    intro heq
    rw [heq] at h
    exact absurd h (by decide)
  have hle : tier f.tag ≤ operatorTier .between := Int.le_of_lt h
  rw [waitsForAnd, if_neg hne, if_pos hle]

/-- Over operators that bind tighter than `between`, the next `and` is decided below the tree. -/
theorem waitsForAnd_openOver {t : Tree} {below frames : List Frame}
    (h : OpenOver t below frames) (ht : ∀ o ∈ spine t, 29 < operatorTier o) :
    waitsForAnd false frames = waitsForAnd true below := by
  induction h with
  | closed => simp [waitsForAnd]
  | @binary o s l r below frames hne _ ih =>
    simp only [spine, List.mem_cons, forall_eq_or_imp] at ht
    rw [ih ht.2]
    exact waitsForAnd_of_lt_tier (f := ⟨.op o, s, [l]⟩) ht.1 _ _
  | between _ _ =>
    simp [spine, operatorTier] at ht
  | not _ _ =>
    simp [spine, operatorTier] at ht

/-- No `between` inside a finished tree waits for an `and`. -/
theorem waitsForAnd_of_openOver {t : Tree} {below frames : List Frame}
    (h : OpenOver t below frames) (hb : waitsForAnd true below = false) :
    waitsForAnd false frames = false := by
  induction h with
  | closed => simpa [waitsForAnd] using hb
  | @binary o s l r below frames hne _ ih =>
    apply ih
    rw [waitsForAnd, if_neg (by simpa using hne)]
    split
    · rfl
    · exact hb
  | between _ ih => exact ih rfl
  | not _ ih => exact ih rfl

end Machine

end RelationSql.Grammar
