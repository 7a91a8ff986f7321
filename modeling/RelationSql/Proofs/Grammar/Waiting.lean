import RelationSql.Proofs.Grammar.Steps

/-!
# Open nodes around a condition

`Waiting` describes the open nodes while the condition of a relation is read: each of them holds
conditions, waits for an operand, and binds tighter than the node below it. A tree that fits into the
innermost node can be closed into the nodes below it, and what comes out is again a condition that
fits (`Waiting.close`). So every tree that the machine builds over such nodes is a condition.
-/

namespace RelationSql.Grammar

open RelationSql.Source (Span Token TokenKind)

variable {leaf : Tree → Prop} {name : String}

/-- The tree may become the next child of the node. -/
structure Fits (f : Frame) (t : Tree) : Prop where
  tier_lt : tier f.tag < outerTier t
  /-- The second operand of an `in` is a list. -/
  list : f.tag = .op .in_ → startsWithParen t = true

/-- The innermost open node and those below it hold conditions and wait for an operand. -/
inductive Waiting (leaf : Tree → Prop) (name : String) : Frame → List Frame → Prop where
  | filter {s : Span} : Waiting leaf name ⟨.filter, s, [.leaf .relation name]⟩ []
  | par {s : Span} {done : List Tree} {f : Frame} {below : List Frame} :
      Waiting leaf name f below → (∀ t ∈ done, Condition leaf t) →
      Waiting leaf name ⟨.par, s, done⟩ (f :: below)
  | binary {o : Operator} {s : Span} {l : Tree} {f : Frame} {below : List Frame} :
      Waiting leaf name f below → isBinary o = true → Condition leaf l →
      (∀ q ∈ spine l, operatorTier o ≤ operatorTier q) → tier f.tag < operatorTier o →
      (f.tag = .op .in_ → startsWithParen l = true) →
      Waiting leaf name ⟨.op o, s, [l]⟩ (f :: below)
  | lower {s : Span} {v : Tree} {f : Frame} {below : List Frame} :
      Waiting leaf name f below → Condition leaf v → (∀ q ∈ spine v, 29 ≤ operatorTier q) →
      tier f.tag < 29 → Waiting leaf name ⟨.op .between, s, [v]⟩ (f :: below)
  | upper {s : Span} {v lo : Tree} {f : Frame} {below : List Frame} :
      Waiting leaf name f below → Condition leaf v → (∀ q ∈ spine v, 29 ≤ operatorTier q) →
      Condition leaf lo → 29 < outerTier lo → (∀ q ∈ spine lo, 29 < operatorTier q) →
      tier f.tag < 29 → Waiting leaf name ⟨.op .between, s, [lo, v]⟩ (f :: below)
  | not {s : Span} {f : Frame} {below : List Frame} :
      Waiting leaf name f below → tier f.tag < 30 → Waiting leaf name ⟨.op .not, s, []⟩ (f :: below)

/-- What closing leaves: either it stopped at an open node, or all nodes were closed. -/
inductive Closing (leaf : Tree → Prop) (name : String) (p : Tag → Bool) (frames : List Frame)
    (root : List Tree) : List Frame × List Tree → Prop where
  | stopped {f : Frame} {below : List Frame} {t : Tree} :
      Waiting leaf name f below → Condition leaf t → Fits f t → p f.tag = false →
      (∀ q ∈ spine t, p (.op q) = true) →
      Closing leaf name p frames root ({ f with done := t :: f.done } :: below, root)
  | emptied {t : Tree} :
      Condition leaf t → p .filter = true → (∀ f ∈ frames, p f.tag = true) →
      Closing leaf name p frames root ([], .node .filter [.leaf .relation name, t] :: root)

/-- What closing leaves of the nodes below a closed one. -/
theorem Closing.cons {p : Tag → Bool} {frames : List Frame} {root : List Tree} {f : Frame}
    {out : List Frame × List Tree} (h : Closing leaf name p frames root out)
    (hf : p f.tag = true) : Closing leaf name p (f :: frames) root out := by
  cases h with
  | stopped hw ht hfits hp hspine => exact .stopped hw ht hfits hp hspine
  | emptied ht hp hall => exact .emptied ht hp (List.forall_mem_cons.2 ⟨hf, hall⟩)

/-- Every open node binds looser than a leaf. -/
theorem Waiting.tier_lt {f : Frame} {below : List Frame} (h : Waiting leaf name f below) :
    tier f.tag < 60 := by
  have hop : ∀ o, operatorTier o < 60 := fun o =>
    Int.lt_of_le_of_lt (operatorTier_bounds o).2 (by decide)
  cases h with
  | filter =>
    show (13 : Int) < 60
    decide
  | par =>
    show (-1 : Int) < 60
    decide
  | binary => exact hop _
  | lower => exact hop .between
  | upper => exact hop .between
  | not => exact hop .not

/-- A parenthesis fits into every open node. -/
theorem Waiting.fits_par {f : Frame} {below : List Frame} (h : Waiting leaf name f below)
    (ts : List Tree) : Fits f (.node .par ts) :=
  ⟨h.tier_lt, fun _ => rfl⟩

/-- The tier of `in` is no lower than that of any operator that insists on a looser node. -/
theorem ne_in_of_tier_lt {f : Frame} {k : Int} (h : tier f.tag < k) (hk : k ≤ 30) :
    f.tag ≠ .op .in_ := by
  intro heq
  rw [heq] at h
  have hlt : operatorTier .in_ < 30 := Int.lt_of_lt_of_le h hk
  exact absurd hlt (by decide)

/-- An operator node is a condition that fits into the node below the operator. -/
theorem Fits.node {o : Operator} {s : Span} {l t : Tree} {f : Frame}
    (hfits : Fits ⟨.op o, s, [l]⟩ t) (ho : isBinary o = true) (hl : Condition leaf l)
    (hleft : ∀ q ∈ spine l, operatorTier o ≤ operatorTier q) (hlt : tier f.tag < operatorTier o)
    (hlist : f.tag = .op .in_ → startsWithParen l = true) (ht : Condition leaf t) :
    Condition leaf (.node (.op o) [l, t]) ∧ Fits f (.node (.op o) [l, t]) := by
  obtain ⟨hnot, -⟩ := isBinary_iff.1 ho
  refine ⟨.binary ho hl hleft ht hfits.tier_lt ?_, ?_, ?_⟩
  · rintro rfl
    exact hfits.list rfl
  · rw [outerTier_op hnot]
    exact hlt
  · intro hf
    simpa [startsWithParen, hnot] using hlist hf

/-- **Closing keeps conditions.** A condition that fits into the innermost node is closed into a
condition that fits into the node where closing stops. -/
theorem Waiting.close {p : Tag → Bool} {f : Frame} {below : List Frame}
    (hw : Waiting leaf name f below) {t : Tree} (ht : Condition leaf t) (hfits : Fits f t)
    (hspine : ∀ q ∈ spine t, p (.op q) = true)
    {root : List Tree} {out : List Frame × List Tree}
    (h : Machine.closeFrames p [t] (f :: below) root = some out) :
    Closing leaf name p (f :: below) root out := by
  induction hw generalizing t with
  | @filter s =>
    cases hp : p .filter with
    | true =>
      rw [Machine.closeFrames_close hp _ _ _ rfl] at h
      cases h
      exact .emptied ht hp (by simpa using hp)
    | false =>
      rw [Machine.closeFrames_stop hp] at h
      cases h
      exact .stopped .filter ht hfits hp hspine
  | @par s done f below hw hdone ih =>
    cases hp : p .par with
    | true =>
      rw [Machine.closeFrames_close hp _ _ _ rfl] at h
      have hpar : Condition leaf (.node .par (t :: done).reverse) := by
        refine .par (by simp) ?_
        intro u hu
        rcases List.mem_cons.1 (List.mem_reverse.1 hu) with rfl | hu
        · exact ht
        · exact hdone u hu
      exact (ih hpar (hw.fits_par _) (by simp) h).cons hp
    | false =>
      rw [Machine.closeFrames_stop hp] at h
      cases h
      exact .stopped (.par hw hdone) ht hfits hp hspine
  | @binary o s l f below hw ho hl hleft hlt hlist ih =>
    cases hp : p (.op o) with
    | true =>
      obtain ⟨-, -, -, -, hbetween⟩ := isBinary_iff.1 ho
      rw [Machine.closeFrames_close hp _ _ _ (by simp [Frame.isComplete, hbetween])] at h
      obtain ⟨hnode, hfits'⟩ := hfits.node ho hl hleft hlt hlist ht
      have hspine' : ∀ q ∈ spine (.node (.op o) [l, t]), p (.op q) = true := by
        rw [spine_binary]
        exact List.forall_mem_cons.2 ⟨hp, hspine⟩
      exact (ih hnode hfits' hspine' h).cons hp
    | false =>
      rw [Machine.closeFrames_stop hp] at h
      cases h
      exact .stopped (.binary hw ho hl hleft hlt hlist) ht hfits hp hspine
  | @lower s v f below hw hv hvspine hlt ih =>
    cases hp : p (.op .between) with
    | true =>
      -- a `between` without its upper bound cannot be closed
      simp [Machine.closeFrames, hp, Frame.isComplete] at h
    | false =>
      rw [Machine.closeFrames_stop hp] at h
      cases h
      exact .stopped (.lower hw hv hvspine hlt) ht hfits hp hspine
  | @upper s v lo f below hw hv hvspine hlo hlotier hlospine hlt ih =>
    cases hp : p (.op .between) with
    | true =>
      rw [Machine.closeFrames_close hp _ _ _ rfl] at h
      have hnode : Condition leaf (.node (.op .between) [v, lo, t]) :=
        .between hv hvspine hlo hlotier hlospine ht hfits.tier_lt
      have hfits' : Fits f (.node (.op .between) [v, lo, t]) :=
        ⟨hlt, fun hf => absurd hf (ne_in_of_tier_lt hlt (by decide))⟩
      have hspine' : ∀ q ∈ spine (.node (.op .between) [v, lo, t]), p (.op q) = true := by
        rw [spine_between]
        exact List.forall_mem_cons.2 ⟨hp, hspine⟩
      exact (ih hnode hfits' hspine' h).cons hp
    | false =>
      rw [Machine.closeFrames_stop hp] at h
      cases h
      exact .stopped (.upper hw hv hvspine hlo hlotier hlospine hlt) ht hfits hp hspine
  | @not s f below hw hlt ih =>
    cases hp : p (.op .not) with
    | true =>
      rw [Machine.closeFrames_close hp _ _ _ rfl] at h
      have hnode : Condition leaf (.node (.op .not) [t]) := .not ht hfits.tier_lt
      have hfits' : Fits f (.node (.op .not) [t]) :=
        ⟨hlt, fun hf => absurd hf (ne_in_of_tier_lt hlt (by decide))⟩
      have hspine' : ∀ q ∈ spine (.node (.op .not) [t]), p (.op q) = true := by
        rw [spine_not]
        exact List.forall_mem_cons.2 ⟨hp, hspine⟩
      exact (ih hnode hfits' hspine' h).cons hp
    | false =>
      rw [Machine.closeFrames_stop hp] at h
      cases h
      exact .stopped (.not hw hlt) ht hfits hp hspine

/-- **The `and` that a `between` waits for closes its lower bound.** -/
theorem Waiting.upTo {f : Frame} {below : List Frame} (hw : Waiting leaf name f below) {t : Tree}
    (ht : Condition leaf t) (hfits : Fits f t) (hspine : ∀ q ∈ spine t, 29 < operatorTier q)
    (hand : Machine.waitsForAnd true (f :: below) = true) (root : List Tree) :
    ∃ s v lo g frames, Machine.closeFrames (fun tag => tag != .op .between) [t] (f :: below) root =
        some (⟨.op .between, s, [lo, v]⟩ :: g :: frames, root) ∧
      Waiting leaf name ⟨.op .between, s, [lo, v]⟩ (g :: frames) := by
  induction hw generalizing t with
  | filter => cases hand
  | par _ _ _ => cases hand
  | @binary o s l f below hw ho hl hleft hlt hlist ih =>
    obtain ⟨-, -, -, -, hbetween⟩ := isBinary_iff.1 ho
    rw [Machine.waitsForAnd, if_neg (by simpa using hbetween)] at hand
    split at hand
    · cases hand
    · next htier =>
      obtain ⟨hnode, hfits'⟩ := hfits.node ho hl hleft hlt hlist ht
      have hspine' : ∀ q ∈ spine (.node (.op o) [l, t]), 29 < operatorTier q := by
        rw [spine_binary]
        exact List.forall_mem_cons.2 ⟨Int.not_le.1 htier, hspine⟩
      obtain ⟨s', v, lo, g, frames, hclose, hwaiting⟩ := ih hnode hfits' hspine' hand
      refine ⟨s', v, lo, g, frames, ?_, hwaiting⟩
      rw [Machine.closeFrames_close (by simpa using hbetween) _ _ _
        (by simp [Frame.isComplete, hbetween])]
      exact hclose
  | @lower s v f below hw hv hvspine hlt ih =>
    refine ⟨s, v, t, f, below, Machine.closeFrames_stop (by simp) _ _ _, ?_⟩
    exact .upper hw hv hvspine ht hfits.tier_lt hspine hlt
  | upper => simp [Machine.waitsForAnd] at hand
  | not _ _ _ => cases hand

end RelationSql.Grammar
