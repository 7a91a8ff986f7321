import RelationSql.Proofs.Grammar.Formed
import RelationSql.Proofs.Grammar.Shape

/-!
# Open nodes of a well-formed source

Every open node waits for one tree, which stands for a clause, an expression or a chain that has taken
an expression (`Slot`), and is then one of these itself. So the open nodes are a stack of slots, the
outermost of which stands outside and takes the clause of the source (`Awaits`). The steps of the machine
keep that stack. A tree may only reach a slot of another kind where `from` does not close a `having`; there
the expression becomes the outermost link of a chain.
-/

namespace RelationSql.Grammar

open RelationSql.Source (Span Token TokenKind)

/-! ## Slots -/

/-- The open node waits for a tree of the first kind and is of the second kind then. -/
inductive Slot : Frame → Role → Role → Prop where
  | link {tag : Tag} (htag : isLink tag = true) {span : Span} {t : Tree} (h : Formed True .clause t) :
      Slot ⟨tag, span, [t]⟩ .clause .clause
  | stolen {span : Span} {t : Tree} (h : Formed True .expression t) :
      Slot ⟨.from_, span, [t]⟩ .clause .hybrid
  | onward {tag : Tag} (htag : isLink tag = true) {span : Span} {t : Tree}
      (h : Formed True .hybrid t) : Slot ⟨tag, span, [t]⟩ .clause .hybrid
  | filter {span : Span} {t : Tree} (h : Formed True .clause t) :
      Slot ⟨.filter, span, [t]⟩ .expression .clause
  | having {r : Role} (hr : r ≠ .clause) {span : Span} {t : Tree} (h : Formed True .clause t) :
      Slot ⟨.having, span, [t]⟩ r .clause
  | enclosed {span : Span} : Slot ⟨.clausePar, span, []⟩ .clause .clause
  | parenthesis {span : Span} {ts : List Tree} (h : ∀ t ∈ ts, Formed True .expression t) :
      Slot ⟨.par, span, ts⟩ .expression .expression
  -- a `between` waits for its bounds one after the other
  | operator {o : Operator} {span : Span} {ts : List Tree}
      (hcount : ts.length + 1 = arity o ∨ o = .between ∧ ts.length = 1)
      (h : ∀ t ∈ ts, Formed True .expression t) : Slot ⟨.op o, span, ts⟩ .expression .expression

/-- The innermost open node waits for a tree of this kind. -/
inductive Awaits : Role → List Frame → Prop where
  | outside : Awaits .clause []
  | inside {f : Frame} {r o : Role} {frames : List Frame} (hf : Slot f r o) (h : Awaits o frames) :
      Awaits r (f :: frames)

/-- The machine waits for a tree of this kind, with no tree outside of its open nodes. -/
structure Machine.Waits (r : Role) (m : Machine) : Prop where
  frames : Awaits r m.frames
  root : m.root = []

variable {f : Frame} {frames frames' : List Frame} {r o : Role} {t u : Tree} {p : Tag → Bool}
  {m m' m₀ : Machine} {token : Token} {rest : List Token} {used : Bool} {least k : Int}

/-- **A complete node that has received its tree is what its slot says.** -/
theorem Slot.closes (hf : Slot f r o) (ht : Formed True r t)
    (hcomplete : ({ f with done := [t] ++ f.done } : Frame).isComplete = true) :
    Formed True o ({ f with done := [t] ++ f.done } : Frame).tree := by
  cases hf with
  | link htag h => exact .link htag h ht
  | stolen h => exact .stolen h ht
  | onward htag h => exact .onward htag h ht
  | filter h => exact .filter h ht
  | having hr h =>
    cases r with
    | clause => exact absurd rfl hr
    | expression => exact .having h ht
    | hybrid => exact .swallowed trivial h ht
  | enclosed => exact .enclosed ht
  | parenthesis h =>
    refine .parenthesis (by simp) fun u hu => ?_
    exact List.forall_mem_cons.2 ⟨ht, h⟩ u (List.mem_reverse.1 hu)
  | @operator o span ts hcount h =>
    refine .operator ?_ fun u hu => List.forall_mem_cons.2 ⟨ht, h⟩ u (List.mem_reverse.1 hu)
    rw [List.length_reverse]
    rcases hcount with hcount | ⟨rfl, hcount⟩
    · exact hcount
    · -- with its first bound only, it cannot be closed
      simp [Frame.isComplete, hcount] at hcomplete

/-- Clauses go behind links and into parentheses. -/
theorem Slot.tag_of_clause (hf : Slot f .clause o) : isLink f.tag = true ∨ f.tag = .clausePar := by
  cases hf with
  | link htag _ => exact .inl htag
  | onward htag _ => exact .inl htag
  | stolen => exact .inl rfl
  | enclosed => exact .inr rfl
  | having hr _ => exact absurd rfl hr

/-- Expressions go into conditions, parentheses and operators. -/
theorem Slot.tag_of_expression (hf : Slot f .expression o) :
    f.tag = .filter ∨ f.tag = .having ∨ f.tag = .par ∨ ∃ q, f.tag = .op q := by
  cases hf with
  | filter | having | parenthesis => simp
  | operator => simp

/-- Only a `having` waits for a chain with an expression in it. -/
theorem Slot.tag_of_hybrid (hf : Slot f .hybrid o) : f.tag = .having := by
  cases hf
  rfl

/-- Nothing that waits for a clause binds tighter than `from`. -/
theorem Slot.tier_of_clause (hf : Slot f .clause o) : tier f.tag ≤ 11 := by
  rcases hf.tag_of_clause with h | h
  · rcases isLink_iff.1 h with h | h | h <;> rw [h] <;> decide
  · rw [h]
    decide

/-- Calls and intervals bind tighter than all that waits for an expression. -/
theorem Slot.tier_of_expression (hf : Slot f .expression o) : tier f.tag ≤ 38 := by
  rcases hf.tag_of_expression with h | h | h | ⟨q, h⟩
  · rw [h]
    decide
  · rw [h]
    decide
  · rw [h]
    decide
  · rw [h]
    exact (operatorTier_bounds q).2

/-- What binds tighter than a condition and waits for an expression is one itself. -/
theorem Slot.expression_of_op (hf : Slot f .expression o) (htag : 13 < tier f.tag) :
    o = .expression := by
  cases hf with
  | parenthesis | operator => rfl
  | filter => exact absurd (show (13 : Int) < 13 from htag) (by decide)
  | having => exact absurd (show (13 : Int) < 2 from htag) (by decide)

/-- Only expressions go into expressions. -/
theorem Slot.ne_expression (hf : Slot f r o) (hr : r ≠ .expression) : o ≠ .expression := by
  cases hf with
  | parenthesis | operator => exact absurd rfl hr
  | _ => simp

/-- Where an operator looser than `from` waits for an expression outside of all parentheses of one, it is
a `having`, and takes a chain as well. -/
theorem Awaits.hybrid (h : Awaits .expression frames) (hstop : ∀ f ∈ frames.head?, tier f.tag < 11)
    (hparen : ∀ f ∈ frames.head?, f.tag ≠ .par) : Awaits .hybrid frames := by
  cases h with
  | @inside f _ _ _ hf h =>
    have htier : tier f.tag < 11 := hstop f rfl
    cases hf with
    | filter => exact absurd (show (13 : Int) < 11 from htier) (by decide)
    | having _ ht => exact .inside (.having (by simp) ht) h
    | parenthesis => exact absurd rfl (hparen _ rfl)
    | @operator q _ _ _ _ =>
      have hop := (operatorTier_bounds q).1
      change operatorTier q < 11 at htier
      omega

/-! ## Machines with a new tree -/

/-- The innermost open node has received a tree of the kind it waited for. -/
inductive Machine.Received (r : Role) : Machine → Prop where
  | mk {m : Machine} {t : Tree} (hm : m.Waits r) (ht : Formed True r t) : Received r (m.append t)

/-- What was read last is a tree of this kind, or a node that will be one when it is closed, and that
every tier up to `k` closes. -/
inductive Machine.Ends (r : Role) (k : Int) : Machine → Prop where
  | received {m : Machine} {t : Tree} (hm : m.Waits r) (ht : Formed True r t) : Ends r k (m.append t)
  | standing {m : Machine} {f : Frame} (hm : m.Waits r) (ht : Formed True r f.tree)
      (hcomplete : f.isComplete = true) (htier : k ≤ tier f.tag) : Ends r k (m.push f)

/-- Closing has led to a machine with a new tree in front of a node that stays open. -/
structure Machine.Stopped (p : Tag → Bool) (r : Role) (t : Tree) (m₀ m : Machine) : Prop where
  waits : m₀.Waits r
  formed : Formed True r t
  eq : m = m₀.append t
  stop : ∀ f ∈ m₀.frames.head?, p f.tag = false

theorem Machine.Received.ends (h : m.Received r) (k : Int) : m.Ends r k := by
  cases h with
  | mk hm ht => exact .received hm ht

theorem Machine.Ends.mono {k' : Int} (h : m.Ends r k) (hk : k' ≤ k) : m.Ends r k' := by
  cases h with
  | received hm ht => exact .received hm ht
  | standing hm ht hcomplete htier => exact .standing hm ht hcomplete (Int.le_trans hk htier)

theorem Machine.Waits.expecting (h : m.Waits r) (next : Expect) : (m.expecting next).Waits r :=
  ⟨h.frames, h.root⟩

theorem Machine.Waits.push (h : m.Waits o) (hf : Slot f r o) : (m.push f).Waits r :=
  ⟨.inside hf h.frames, h.root⟩

theorem Machine.Received.expecting (h : m.Received r) (next : Expect) :
    (m.expecting next).Received r := by
  cases h with
  | mk hm ht =>
    rw [← append_expecting]
    exact .mk (hm.expecting next) ht

theorem Machine.Ends.expecting (h : m.Ends r k) (next : Expect) : (m.expecting next).Ends r k := by
  cases h with
  | received hm ht => exact ((Machine.Received.mk hm ht).expecting next).ends k
  | standing hm ht hcomplete htier => exact .standing (hm.expecting next) ht hcomplete htier

/-! ## Closing -/

/-- Closing from a tree that the innermost open node receives. What closed nodes keep of the kind of the
tree, `P`, the newest tree has. -/
theorem closeFrames_stopped {P : Role → Prop} {expects : Expect} {root root' : List Tree}
    (hP : ∀ {f r o}, Slot f r o → p f.tag = true → P r → P o)
    (h : Machine.closeFrames p [t] frames root = some (frames', root')) (hframes : Awaits r frames)
    (hroot : root = []) (ht : Formed True r t) (hr : P r) :
    ∃ r' u m₀, Machine.Stopped p r' u m₀ ⟨expects, frames', root'⟩ ∧ m₀.expects = expects ∧ P r' := by
  induction hframes generalizing t with
  | outside =>
    cases h
    subst hroot
    exact ⟨.clause, t, ⟨expects, [], []⟩, ⟨⟨.outside, rfl⟩, ht, rfl, by simp⟩, rfl, hr⟩
  | @inside f r o frames hf hbelow ih =>
    rw [Machine.closeFrames] at h
    split at h
    · next hp =>
      split at h
      · next hcomplete => exact ih h (hf.closes ht hcomplete) (hP hf hp hr)
      · cases h
    · next hp =>
      cases h
      refine ⟨r, t, ⟨expects, f :: frames, root⟩, ⟨⟨.inside hf hbelow, hroot⟩, ht, rfl, ?_⟩, rfl, hr⟩
      rintro g ⟨⟩
      exact eq_false_of_ne_true hp

/-- **Closing stops at a node that waits for the newest tree.** -/
theorem Machine.Ends.closeWhile {P : Role → Prop} (hm : m.Ends r k)
    (hk : ∀ tag, k ≤ tier tag → p tag = true)
    (hP : ∀ {f r o}, Slot f r o → p f.tag = true → P r → P o) (hr : P r)
    (h : m.closeWhile? p = some m') :
    ∃ r' u m₀, Machine.Stopped p r' u m₀ m' ∧ m₀.expects = m.expects ∧ P r' := by
  cases hm with
  | @received m t hm ht =>
    rw [closeWhile?_append] at h
    obtain ⟨⟨frames', root'⟩, hclose, rfl⟩ := Option.map_eq_some_iff.1 h
    obtain ⟨r', u, m₀, hstopped, hexpects, hr'⟩ := closeFrames_stopped hP hclose hm.frames hm.root ht hr
    exact ⟨r', u, m₀, hstopped, hexpects.trans (expects_append m t).symm, hr'⟩
  | @standing m f hm ht hcomplete htier =>
    have hpush := closeWhile?_push (m := m) (hk _ htier) hcomplete m.expects
    change (m.push f).closeWhile? p = ((m.append f.tree).expecting m.expects).closeWhile? p at hpush
    rw [hpush, ← append_expecting, closeWhile?_append] at h
    obtain ⟨⟨frames', root'⟩, hclose, rfl⟩ := Option.map_eq_some_iff.1 h
    exact closeFrames_stopped hP hclose hm.frames hm.root ht hr

/-- Closing down to a tier. -/
theorem Machine.Ends.closeTier {P : Role → Prop} {span : Span} (hm : m.Ends r k) (hk : least ≤ k)
    (hP : ∀ {f r o}, Slot f r o → least ≤ tier f.tag → P r → P o) (hr : P r)
    (h : m.closeTier least span = .ok m') :
    ∃ r' u m₀, Machine.Stopped (fun tag => decide (least ≤ tier tag)) r' u m₀ m' ∧
      m₀.expects = m.expects ∧ P r' := by
  refine hm.closeWhile ?_ ?_ hr (ok_of_orNear h)
  · exact fun tag htag => decide_eq_true (Int.le_trans hk htag)
  · exact fun hf hp => hP hf (of_decide_eq_true hp)

/-- Opening a node over the newest tree. -/
theorem Machine.Ends.openOver {P : Role → Prop} {tag : Tag} {next : Expect} {span : Span}
    (hm : m.Ends r k) (hk : tier tag ≤ k)
    (hP : ∀ {f r o}, Slot f r o → tier tag ≤ tier f.tag → P r → P o) (hr : P r)
    (h : m.openOver tag next span = .ok m') :
    ∃ r' u m₀ m₁, Machine.Stopped (fun below => decide (tier tag ≤ tier below)) r' u m₀ m₁ ∧
      m.closeTier (tier tag) span = .ok m₁ ∧ P r' ∧
      m' = (m₀.push ⟨tag, span, [u]⟩).expecting next := by
  obtain ⟨m₁, hclose, h⟩ := bind_eq_ok h
  obtain ⟨⟨t, m₂⟩, htake, h⟩ := bind_eq_ok h
  cases h
  obtain ⟨r', u, m₀, hstopped, -, hr'⟩ := hm.closeTier hk hP hr hclose
  have htaken := ok_of_orNear htake
  rw [hstopped.eq, takeLast?_append] at htaken
  cases htaken
  exact ⟨r', _, _, m₁, hstopped, hclose, hr', rfl⟩

/-- Wrapping the newest tree. -/
theorem Machine.Ends.wrapLast {P : Role → Prop} {tag : Tag} {more : List Tree} {span : Span}
    (hm : m.Ends r k) (hk : tier tag ≤ k)
    (hP : ∀ {f r o}, Slot f r o → tier tag ≤ tier f.tag → P r → P o) (hr : P r)
    (h : m.wrapLast tag more span = .ok m') :
    ∃ r' u, ∃ m₀ : Machine, m₀.Waits r' ∧ Formed True r' u ∧ m₀.expects = m.expects ∧ P r' ∧
      m' = m₀.append (.node tag (u :: more)) := by
  obtain ⟨m₁, hclose, h⟩ := bind_eq_ok h
  obtain ⟨⟨t, m₂⟩, htake, h⟩ := bind_eq_ok h
  cases h
  obtain ⟨r', u, m₀, hstopped, hexpects, hr'⟩ := hm.closeTier hk hP hr hclose
  have htaken := ok_of_orNear htake
  rw [hstopped.eq, takeLast?_append] at htaken
  cases htaken
  exact ⟨r', _, _, hstopped.waits, hstopped.formed, hexpects, hr', rfl⟩

/-! ### Parentheses around the newest tree -/

/-- Closing that leaves parentheses open does not change the innermost one. -/
theorem paren_closeFrames {new root root' : List Tree} (hp : ∀ tag, tag.isParen = true → p tag = false)
    (h : Machine.closeFrames p new frames root = some (frames', root')) :
    (frames'.find? fun f => f.tag.isParen).map Frame.tag =
      (frames.find? fun f => f.tag.isParen).map Frame.tag := by
  induction frames generalizing new with
  | nil =>
    cases h
    rfl
  | cons f frames ih =>
    rw [Machine.closeFrames] at h
    split at h
    · next hpf =>
      split at h
      · have hparen : f.tag.isParen = false := by
          cases hparen : f.tag.isParen with
          | false => rfl
          | true =>
            rw [hp _ hparen] at hpf
            cases hpf
        rw [ih h, List.find?_cons, hparen]
      · cases h
    · cases h
      rw [List.find?_cons, List.find?_cons]
      dsimp only
      split <;> rfl

/-- A closing that stops at the parenthesis of an expression has stopped inside it. -/
theorem Machine.Stopped.insideExpression (h : Machine.Stopped p r t m₀ m')
    (hclose : m.closeWhile? p = some m') (hp : ∀ tag, tag.isParen = true → p tag = false)
    (hhead : ∃ f ∈ m₀.frames.head?, f.tag = .par) : m.insideExpression = true := by
  obtain ⟨⟨frames', root'⟩, hframes, rfl⟩ := Option.map_eq_some_iff.1 hclose
  obtain ⟨f, hf, htag⟩ := hhead
  have hparen : (frames'.find? fun f => f.tag.isParen).map Frame.tag = some .par := by
    obtain ⟨below, hbelow⟩ : ∃ below, m₀.frames = f :: below := List.head?_eq_some_iff.1 hf
    have heq : frames' = (m₀.append t).frames := congrArg Machine.frames h.eq
    rw [heq, Machine.append, hbelow, List.find?_cons]
    simp [htag, Tag.isParen]
  rw [paren_closeFrames hp hframes] at hparen
  rw [Machine.insideExpression, Machine.paren?]
  obtain ⟨g, hg, htag'⟩ := Option.map_eq_some_iff.1 hparen
  rw [hg]
  simp [htag']

end RelationSql.Grammar
