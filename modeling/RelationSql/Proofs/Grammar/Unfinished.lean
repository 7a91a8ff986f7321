import RelationSql.Proofs.Grammar.Derived

/-!
# Unfinished derivations

While the machine reads the tokens of a condition, each open node is a rule of the grammar that lacks its last
premises: `Open` lists what was read in front of the missing operand. A tree that was derived over open nodes
(`Over`) can be closed into them, one rule at a time (`Over.up`), so whatever closing leaves was derived
as well (`Over.close`, `Over.upTo`).
-/

namespace RelationSql.Grammar

open RelationSql.Source (Span Token TokenKind)

variable {name : String} {tokens front rest words : List Token} {token : Token} {below frames : List Frame}
  {o : Operator} {k : Int} {n : Nat} {t u v : Tree} {f g : Frame} {p : Tag → Bool}

/-! ## Open nodes -/

/-- The tokens go on as required behind those in front. -/
def GoesOn (tokens front : List Token) (P : List Token → Prop) : Prop :=
  ∃ rest, front ++ rest = tokens ∧ P rest

theorem GoesOn.apply {P : List Token → Prop} (h : GoesOn tokens front P) (hrest : front ++ rest = tokens) :
    P rest := by
  obtain ⟨rest', hrest', hP⟩ := h
  rwa [List.append_cancel_left (hrest.trans hrest'.symm)]

/-- Over a node, the words are a first operand and its operator, which left negations open. -/
inductive Begun (o : Operator) (t : Tree) (f : Frame) (nots : List Frame) : List Token → Prop
  | mk {n : Nat} {words joint : List Token} (h : Derives (tier f.tag) n (.tree t) words)
      (hedge : ∀ q ∈ spine t, operatorTier o ≤ operatorTier q) (hground : ground (tier f.tag) n < operatorTier o)
      (hjoint : Coupling o n nots.length joint) (hnots : ∀ g ∈ nots, g.IsNegation) :
      Begun o t f nots (words ++ joint)

/-- The node waits for an operand behind the tokens in front. -/
inductive Open (name : String) (tokens : List Token) : Frame → List Frame → List Token → Prop
  | filter {s : Span} : Open name tokens ⟨.filter, s, [.leaf .relation name]⟩ [] []
  | before {o : Operator} {token : Token} {s : Span} {f : Frame} {below : List Frame} {front : List Token}
      (h : Open name tokens f below front) (ho : prefixOperator? token.kind = some o)
      (hunsigned : GoesOn tokens (front ++ [token]) fun rest =>
        token.kind = .symbol .minus → signedLiteral? token (following token rest) = none) :
      Open name tokens ⟨.op o, s, []⟩ (f :: below) (front ++ [token])
  | opening {token : Token} {s : Span} {f : Frame} {below : List Frame} {front : List Token}
      (h : Open name tokens f below front) (htoken : token.kind = .symbol .leftParen) :
      Open name tokens ⟨.par, s, []⟩ (f :: below) (front ++ [token])
  | comma {opening comma : Token} {s : Span} {done : List Tree} {f : Frame} {below : List Frame}
      {front words : List Token} (h : Open name tokens f below front)
      (hopening : opening.kind = .symbol .leftParen) (hdone : Derives (tier .par) 0 (.list done.reverse) words)
      (hcomma : comma.kind = .symbol .comma) :
      Open name tokens ⟨.par, s, done⟩ (f :: below) (front ++ (opening :: words ++ [comma]))
  | binary {o : Operator} {s : Span} {l : Tree} {f : Frame} {nots below : List Frame} {front words : List Token}
      (h : Open name tokens f below front) (ho : isBinary o = true) (hbegun : Begun o l f nots words)
      (hlist : GoesOn tokens (front ++ words) fun rest => o = .in_ → opensList rest) :
      Open name tokens ⟨.op o, s, [l]⟩ (nots ++ f :: below) (front ++ words)
  | lower {s : Span} {v : Tree} {f : Frame} {nots below : List Frame} {front words : List Token}
      (h : Open name tokens f below front) (hbegun : Begun .between v f nots words) :
      Open name tokens ⟨.op .between, s, [v]⟩ (nots ++ f :: below) (front ++ words)
  | upper {s : Span} {v lo : Tree} {and : Token} {f : Frame} {nots below : List Frame}
      {front words lower : List Token} (h : Open name tokens f below front)
      (hbegun : Begun .between v f nots words) (hlower : Derives (operatorTier .between) 0 (.tree lo) lower)
      (htight : ∀ q ∈ spine lo, operatorTier .between < operatorTier q) (hand : and.kind = .keyword .and) :
      Open name tokens ⟨.op .between, s, [lo, v]⟩ (nots ++ f :: below) (front ++ (words ++ (lower ++ [and])))

/-- The tree was derived over the innermost of these nodes that is no negation of its own, behind the tokens
in front. -/
inductive Over (name : String) (tokens : List Token) (t : Tree) : List Frame → List Token → Prop
  | mk {nots : List Frame} {f : Frame} {below : List Frame} {front words : List Token}
      (hopen : Open name tokens f below front) (hnots : ∀ g ∈ nots, g.IsNegation)
      (h : Derives (tier f.tag) nots.length (.tree t) words) : Over name tokens t (nots ++ f :: below) (front ++ words)

/-- A tree that was derived right over a node. -/
theorem Open.over (h : Open name tokens f below front) (ht : Derives (tier f.tag) 0 (.tree t) words) :
    Over name tokens t (f :: below) (front ++ words) :=
  @Over.mk _ _ _ [] _ _ _ _ h (by simp) ht

theorem following_append (token : Token) {words : List Token} (hne : words ≠ []) (rest : List Token) :
    following token (words ++ rest) = following token words := by
  obtain ⟨next, words, rfl⟩ := List.exists_cons_of_ne_nil hne
  rfl

theorem opensList_of_append_left (hne : words ≠ []) (h : opensList (words ++ rest)) : opensList words := by
  obtain ⟨next, words, rfl⟩ := List.exists_cons_of_ne_nil hne
  exact h

/-! ## Closing one node -/

/-- An operator in front of its operand is closed into its node. -/
theorem Open.up_before (h : Open name tokens f below front) (ho : prefixOperator? token.kind = some o)
    (hunsigned : GoesOn tokens (front ++ [token]) fun rest =>
      token.kind = .symbol .minus → signedLiteral? token (following token rest) = none)
    (ht : Derives (operatorTier o) 0 (.tree t) words) (hrest : front ++ [token] ++ words ++ rest = tokens) :
    Over name tokens (.node (.op o) [t]) (f :: below) (front ++ [token] ++ words) := by
  have hsigned : token.kind = .symbol .minus → signedLiteral? token (following token words) = none := by
    intro hminus
    rw [List.append_assoc] at hrest
    have hnext := hunsigned.apply hrest hminus
    rwa [following_append token ht.ne_nil] at hnext
  have hnode : Derives (tier f.tag) 0 (.tree (.node (.op o) [t])) (token :: words) := .before ho hsigned ht
  rw [List.append_assoc]
  exact h.over hnode

/-- An operator between its operands is closed into its node, over the negations it left open. -/
theorem Begun.up_binary {nots : List Frame} {l : Tree} {more : List Token} (hbegun : Begun o l f nots words)
    (h : Open name tokens f below front) (ho : isBinary o = true)
    (hlist : GoesOn tokens (front ++ words) fun rest => o = .in_ → opensList rest)
    (ht : Derives (operatorTier o) 0 (.tree t) more) (hrest : front ++ words ++ more ++ rest = tokens) :
    Over name tokens (.node (.op o) [l, t]) (nots ++ f :: below) (front ++ words ++ more) := by
  have hin : o = .in_ → opensList more := by
    intro heq
    rw [List.append_assoc] at hrest
    exact opensList_of_append_left ht.ne_nil (hlist.apply hrest heq)
  obtain ⟨hl, hedge, hground, hjoint, hnots⟩ := hbegun
  have hnode := Derives.binary ho hl hedge hground hjoint hin ht
  have hover := Over.mk h hnots hnode
  simpa using hover

/-- A `between` is closed into its node, over the negations it left open. -/
theorem Begun.up_between {nots : List Frame} {lo : Tree} {and : Token} {lower more : List Token}
    (hbegun : Begun .between v f nots words) (h : Open name tokens f below front)
    (hlower : Derives (operatorTier .between) 0 (.tree lo) lower)
    (htight : ∀ q ∈ spine lo, operatorTier .between < operatorTier q) (hand : and.kind = .keyword .and)
    (ht : Derives (operatorTier .between) 0 (.tree t) more) :
    Over name tokens (.node (.op .between) [v, lo, t]) (nots ++ f :: below)
      (front ++ (words ++ (lower ++ [and])) ++ more) := by
  obtain ⟨hv, hedge, hground, hjoint, hnots⟩ := hbegun
  have hnode := Derives.between hv hedge hground hjoint hlower htight hand ht
  have hover := Over.mk h hnots hnode
  simpa using hover

/-- **A node that is closed leaves its tree over the nodes below.** -/
theorem Over.up (h : Over name tokens t (g :: frames) front) (hrest : front ++ rest = tokens)
    (hpar : g.tag ≠ .par) (hfilter : g.tag ≠ .filter)
    (hcomplete : ({ g with done := t :: g.done } : Frame).isComplete = true) :
    Over name tokens ({ g with done := t :: g.done } : Frame).tree frames front ∧
      ∃ o, g.tag = .op o ∧ spine ({ g with done := t :: g.done } : Frame).tree = o :: spine t := by
  generalize hframes : g :: frames = all at h
  obtain @⟨nots, f, below, front, words, hopen, hnots, ht⟩ := h
  -- the node is one of the negations around the tree, or the rule that lacks the tree as its last premise
  cases nots with
  | cons not nots =>
    obtain ⟨rfl, rfl⟩ := List.cons.inj hframes
    obtain ⟨hg, hbelow⟩ := List.forall_mem_cons.1 hnots
    obtain ⟨tag, s, done⟩ := g
    obtain ⟨rfl, rfl⟩ := hg
    exact ⟨.mk hopen hbelow (.negation ht), .not, rfl, spine_not t⟩
  | nil =>
    obtain ⟨rfl, rfl⟩ := List.cons.inj hframes
    cases hopen with
    | filter => exact absurd rfl hfilter
    | opening => exact absurd rfl hpar
    | comma => exact absurd rfl hpar
    | before h ho hunsigned => exact ⟨h.up_before ho hunsigned ht hrest, _, rfl, spine_before _ t⟩
    | binary h ho hbegun hlist => exact ⟨hbegun.up_binary h ho hlist ht hrest, _, rfl, spine_binary _ _ t⟩
    | lower => cases hcomplete
    | upper h hbegun hlower htight hand =>
      exact ⟨hbegun.up_between h hlower htight hand ht, _, rfl, spine_between _ _ t⟩

/-! ## Closing -/

/-- What closing leaves: either it stopped at an open node, or all nodes were closed. -/
inductive Closes (name : String) (tokens : List Token) (p : Tag → Bool) (front : List Token) :
    List Frame × List Tree → Prop
  | stopped {f : Frame} {below : List Frame} {t : Tree} (h : Over name tokens t (f :: below) front)
      (hp : p f.tag = false) (hspine : ∀ q ∈ spine t, p (.op q) = true) :
      Closes name tokens p front ({ f with done := t :: f.done } :: below, [])
  | emptied {t : Tree} (h : Derives (tier .filter) 0 (.tree t) front) (hp : p .filter = true) :
      Closes name tokens p front ([], [.node .filter [.leaf .relation name, t]])

/-- Under the filter there is nothing. -/
theorem Over.filter (h : Over name tokens t (g :: frames) front) (hg : g.tag = .filter) :
    frames = [] ∧ g.done = [.leaf .relation name] ∧ Derives (tier .filter) 0 (.tree t) front := by
  generalize hframes : g :: frames = all at h
  obtain @⟨nots, f, below, front, words, hopen, hnots, ht⟩ := h
  cases nots with
  | cons not nots =>
    obtain ⟨rfl, rfl⟩ := List.cons.inj hframes
    rw [(hnots g List.mem_cons_self).tag] at hg
    cases hg
  | nil =>
    obtain ⟨rfl, rfl⟩ := List.cons.inj hframes
    cases hopen with
    | filter => exact ⟨rfl, rfl, ht⟩
    | _ => cases hg

/-- **Closing keeps derivations.** -/
theorem Over.close (h : Over name tokens t frames front) (hrest : front ++ rest = tokens)
    (hspine : ∀ q ∈ spine t, p (.op q) = true) (hpar : ∀ f ∈ frames, f.tag = .par → p .par = false)
    {out : List Frame × List Tree} (hclose : Machine.closeFrames p [t] frames [] = some out) :
    Closes name tokens p front out := by
  -- node by node: what is over one of them is over the next when that one is closed
  induction frames generalizing t with
  | nil =>
    generalize hnil : ([] : List Frame) = all at h
    obtain ⟨⟩ := h
    simp at hnil
  | cons g frames ih =>
    obtain ⟨hgpar, hpar⟩ := List.forall_mem_cons.1 hpar
    cases hp : p g.tag with
    | false =>
      rw [Machine.closeFrames_stop hp] at hclose
      cases hclose
      exact .stopped h hp hspine
    | true =>
      have hg : g.tag ≠ .par := by
        intro htag
        rw [htag, hgpar htag] at hp
        cases hp
      by_cases hcomplete : ({ g with done := t :: g.done } : Frame).isComplete = true
      · rw [Machine.closeFrames_close hp _ _ _ hcomplete] at hclose
        by_cases hfilter : g.tag = .filter
        · -- the filter is the last node, and it holds the relation only
          obtain ⟨rfl, hdone, ht⟩ := h.filter hfilter
          obtain ⟨tag, s, done⟩ := g
          obtain rfl := hfilter
          obtain rfl := hdone
          cases hclose
          exact .emptied ht hp
        · obtain ⟨hup, o, htag, hnode⟩ := h.up hrest hg hfilter hcomplete
          refine ih hup ?_ hpar hclose
          rw [hnode]
          rw [htag] at hp
          exact List.forall_mem_cons.2 ⟨hp, hspine⟩
      · simp [Machine.closeFrames, hp, hcomplete] at hclose

/-- The `and` of a `between` leaves its node waiting for the upper bound. -/
theorem Over.upper (h : Over name tokens t (g :: frames) front) (hg : g.tag = .op .between)
    (hlength : g.done.length = 1) (hspine : ∀ q ∈ spine t, operatorTier .between < operatorTier q)
    (htoken : token.kind = .keyword .and) :
    Open name tokens { g with done := t :: g.done } frames (front ++ [token]) := by
  generalize hframes : g :: frames = all at h
  obtain @⟨nots, f, below, front, words, hopen, hnots, ht⟩ := h
  cases nots with
  | cons not nots =>
    obtain ⟨rfl, rfl⟩ := List.cons.inj hframes
    rw [(hnots g List.mem_cons_self).tag] at hg
    cases hg
  | nil =>
    obtain ⟨rfl, rfl⟩ := List.cons.inj hframes
    cases hopen with
    | @lower s _ _ _ _ _ _ h hbegun =>
      have hupper := @Open.upper _ _ s _ _ _ _ _ _ _ _ _ h hbegun ht hspine htoken
      simpa using hupper
    | before => cases hlength
    | upper => cases hlength
    | binary h ho =>
      obtain ⟨-, -, -, -, hne⟩ := isBinary_iff.1 ho
      exact absurd (Tag.op.inj hg) hne
    | _ => cases hg

/-- **The `and` that a `between` waits for closes its lower bound.** -/
theorem Over.upTo (h : Over name tokens t frames front) (hrest : front ++ rest = tokens)
    (hspine : ∀ q ∈ spine t, operatorTier .between < operatorTier q)
    (hand : Machine.waitsForAnd true frames = true) (htoken : token.kind = .keyword .and) :
    ∃ f below, Machine.closeFrames (fun tag => tag != .op .between) [t] frames [] = some (f :: below, []) ∧
      Open name tokens f below (front ++ [token]) := by
  induction frames generalizing t with
  | nil => cases hand
  | cons g frames ih =>
    by_cases hbetween : g.tag = .op .between
    · rw [Machine.waitsForAnd, if_pos hbetween] at hand
      have hlength : g.done.length = 1 := by simpa using hand
      exact ⟨_, frames, Machine.closeFrames_stop (by simp [hbetween]) _ _ _,
        h.upper hbetween hlength hspine htoken⟩
    · rw [Machine.waitsForAnd, if_neg hbetween] at hand
      split at hand
      · cases hand
      · next htier =>
        -- a node above the `between` binds tighter, so it is no parenthesis, no filter and no other `between`
        have hcomplete : ({ g with done := t :: g.done } : Frame).isComplete = true := by
          simp [Frame.isComplete, hbetween]
        have hpar : g.tag ≠ .par := by
          intro htag
          rw [htag] at htier
          exact htier (by decide)
        have hfilter : g.tag ≠ .filter := by
          intro htag
          rw [htag] at htier
          exact htier (by decide)
        obtain ⟨hup, o, htag, hnode⟩ := h.up hrest hpar hfilter hcomplete
        have hspine' : ∀ q ∈ spine ({ g with done := t :: g.done } : Frame).tree,
            operatorTier .between < operatorTier q := by
          rw [hnode]
          rw [htag] at htier
          exact List.forall_mem_cons.2 ⟨Int.not_le.1 htier, hspine⟩
        obtain ⟨f, below, hclose, hopen⟩ := ih hup hspine' hand
        refine ⟨f, below, ?_, hopen⟩
        rw [Machine.closeFrames_close (by simpa using hbetween) _ _ _ hcomplete]
        exact hclose

end RelationSql.Grammar
