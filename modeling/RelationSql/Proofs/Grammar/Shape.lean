import RelationSql.Proofs.Grammar.Moves

/-!
# The shape of parsed trees

A parsed tree has two properties that its rendering relies on (`Shaped`): right below a node that
binds at least as tightly as `and` no looser operator stands, and behind the relation of a list clause
there are only plain items. The machine keeps them by what it opens on what (`OnTop`): a looser
operator is never opened above a tighter one, and nothing is ever opened above a list.
-/

namespace RelationSql.Grammar

open RelationSql.Source (Span Token TokenKind)

/-! ## Trees -/

/-- Does an operator bind at least as tightly as `and`? -/
def bindsTight : Tag → Bool
  | .op o => !isLoose o
  | _ => false

/-- Is this the tag of a clause with a list of names or numbers? -/
def isList : Tag → Bool
  | .order | .group | .limit | .offset | .paginate => true
  | _ => false

/-- An entry in the list of a clause. -/
inductive IsItem : Tree → Prop where
  | field (name : String) : IsItem (.leaf .field name)
  | param (name : String) : IsItem (.leaf .param name)
  | integer (digits : String) : IsItem (.leaf .integer digits)
  | asc (name : String) : IsItem (.node .asc [.leaf .field name])
  | desc (name : String) : IsItem (.node .desc [.leaf .field name])

/-- Tight nodes have no loose child, and clauses with a list have only items behind their relation. -/
inductive Shaped : Tree → Prop where
  | atom (text : String) : Shaped (.atom text)
  | node {tag : Tag} {ts : List Tree} (children : ∀ t ∈ ts, Shaped t)
      (tight : bindsTight tag = true → ∀ t ∈ ts, isLooseTree t = false)
      (items : isList tag = true → ∀ t ∈ ts.tail, IsItem t) : Shaped (.node tag ts)

theorem Shaped.child {tag : Tag} {ts : List Tree} (h : Shaped (.node tag ts)) {t : Tree} (ht : t ∈ ts) :
    Shaped t := by
  cases h with
  | node children => exact children t ht

theorem shaped_leaf (tag : Tag) (hlist : isList tag = false) (text : String) :
    Shaped (.leaf tag text) := by
  refine .node ?_ ?_ ?_
  · simpa using Shaped.atom text
  · intro _ t ht
    obtain rfl := List.mem_singleton.1 ht
    rfl
  · simp [hlist]

/-- Nodes around a tree that are neither tight nor a list. -/
theorem Shaped.wrapped {tag : Tag} (htight : bindsTight tag = false) (hlist : isList tag = false)
    {ts : List Tree} (h : ∀ t ∈ ts, Shaped t) : Shaped (.node tag ts) :=
  .node h (by simp [htight]) (by simp [hlist])

theorem IsItem.shaped {t : Tree} (h : IsItem t) : Shaped t := by
  have hfield := shaped_leaf .field rfl
  cases h with
  | field name => exact hfield name
  | param name => exact shaped_leaf _ rfl name
  | integer digits => exact shaped_leaf _ rfl digits
  | asc name => exact .wrapped rfl rfl (by simpa using hfield name)
  | desc name => exact .wrapped rfl rfl (by simpa using hfield name)

theorem IsItem.not_loose {t : Tree} (h : IsItem t) : isLooseTree t = false := by
  cases h <;> rfl

/-- What binds at least as tightly as `and` is not loose. -/
theorem isLooseTag_of_le_tier {tag : Tag} (h : 27 ≤ tier tag) : isLooseTag tag = false := by
  cases tag with
  | op o => exact decide_eq_false (Int.not_lt.2 h)
  | _ => rfl

theorem tier_of_isLooseTag {tag : Tag} (h : isLooseTag tag = true) : tier tag < 27 := by
  cases tag with
  | op o => exact of_decide_eq_true h
  | _ => cases h

theorem le_tier_of_bindsTight {tag : Tag} (h : bindsTight tag = true) : 27 ≤ tier tag := by
  cases tag with
  | op o =>
    show 27 ≤ operatorTier o
    simpa [bindsTight, isLoose] using h
  | _ => cases h

theorem tier_of_isList {tag : Tag} (h : isList tag = true) : tier tag = 2 := by
  cases tag <;> first | rfl | cases h

/-! ## Open nodes -/

/-- The children of an open node are what the node may have. -/
structure Frame.Fits (f : Frame) : Prop where
  children : ∀ t ∈ f.done, Shaped t
  tight : bindsTight f.tag = true → ∀ t ∈ f.done, isLooseTree t = false
  items : isList f.tag = true → ∀ t ∈ f.done.dropLast, IsItem t

/-- A node that fits closes to a shaped tree. -/
theorem Frame.Fits.shaped {f : Frame} (hf : f.Fits) : Shaped f.tree := by
  refine .node ?_ ?_ ?_
  · exact fun t ht => hf.children t (List.mem_reverse.1 ht)
  · exact fun htight t ht => hf.tight htight t (List.mem_reverse.1 ht)
  · intro hlist t ht
    rw [List.tail_reverse, List.mem_reverse] at ht
    exact hf.items hlist t ht

/-- The tag of the innermost open node, if there is one, satisfies `P`. -/
def Innermost (P : Tag → Prop) : List Frame → Prop
  | [] => True
  | f :: _ => P f.tag

/-- The innermost open node is no list. -/
def NoList (frames : List Frame) : Prop :=
  Innermost (fun tag => isList tag = false) frames

/-- The innermost open node may have a child that is loose or not. -/
def Admits (loose : Bool) (frames : List Frame) : Prop :=
  Innermost (fun tag => bindsTight tag = true → loose = false) frames

/-- Every open node fits, and may become a child of the one below it. -/
def Stacked : List Frame → Prop
  | [] => True
  | f :: frames => f.Fits ∧ NoList frames ∧ Admits (isLooseTag f.tag) frames ∧ Stacked frames

variable {m m' : Machine} {f : Frame} {frames frames' : List Frame} {root root' : List Tree}
  {t u : Tree} {tag : Tag} {p : Tag → Bool} {P Q : Tag → Prop} {token : Token} {rest : List Token}
  {used : Bool}

theorem Innermost.imp (h : Innermost P frames) (hPQ : ∀ tag, P tag → Q tag) : Innermost Q frames := by
  cases frames with
  | nil => trivial
  | cons f frames => exact hPQ _ h

theorem innermost_of_forall (h : ∀ tag, P tag) (frames : List Frame) : Innermost P frames := by
  cases frames with
  | nil => trivial
  | cons f frames => exact h _

/-- Every node admits what is not loose. -/
theorem admits_false (frames : List Frame) : Admits false frames :=
  innermost_of_forall (fun _ _ => rfl) frames

/-- A tree that goes to the innermost open node. -/
theorem Stacked.received (h : Stacked frames) (ht : Shaped t) (hopen : NoList frames)
    (hloose : Admits (isLooseTree t) frames) : Stacked (received t frames) := by
  cases frames with
  | nil => trivial
  | cons f frames =>
    obtain ⟨hf, hbelow⟩ := h
    refine ⟨⟨?_, ?_, ?_⟩, hbelow⟩
    · exact List.forall_mem_cons.2 ⟨ht, hf.children⟩
    · exact fun htight => List.forall_mem_cons.2 ⟨hloose htight, hf.tight htight⟩
    · intro hlist
      rw [show isList f.tag = false from hopen] at hlist
      cases hlist

/-! ## Machines -/

/-- The finished and the open nodes of the machine are shaped. -/
structure Machine.Kept (m : Machine) : Prop where
  frames : Stacked m.frames
  root : ∀ t ∈ m.root, Shaped t

/-- What closing leaves behind: the machine is kept, and the newest tree is the newest one from
before or a node that was closed. -/
structure Closed (p : Tag → Bool) (m m' : Machine) : Prop extends m'.Kept where
  expects : m'.expects = m.expects
  noList : NoList m'.frames
  stopped : Innermost (fun tag => p tag = false) m'.frames
  newest : ∀ u, m'.last? = some u → m.last? = some u ∨ ∃ tag ts, u = .node tag ts ∧ p tag = true

/-- Closing from a tree that the innermost open node receives. -/
theorem closed_of_received {expects : Expect} (h : Machine.closeFrames p [t] frames root =
    some (frames', root')) (hstack : Stacked frames) (hroot : ∀ u ∈ root, Shaped u)
    (ht : Shaped t) (hopen : NoList frames) (hloose : Admits (isLooseTree t) frames) :
    (⟨expects, frames', root'⟩ : Machine).Kept ∧ NoList frames' ∧
      Innermost (fun tag => p tag = false) frames' ∧
      ∀ u, (⟨expects, frames', root'⟩ : Machine).last? = some u →
        u = t ∨ ∃ tag ts, u = .node tag ts ∧ p tag = true := by
  induction frames generalizing t with
  | nil =>
    cases h
    refine ⟨⟨trivial, List.forall_mem_cons.2 ⟨ht, hroot⟩⟩, trivial, trivial, ?_⟩
    rintro u ⟨⟩
    exact Or.inl rfl
  | cons f frames ih =>
    have hkept := hstack.received ht hopen hloose
    rw [Machine.closeFrames] at h
    split at h
    · next hp =>
      split at h
      · -- the closed node goes on to the node below
        obtain ⟨hf, hopen, hadmits, hbelow⟩ := hkept
        obtain ⟨hkept', hopen', hstop, hnewest⟩ := ih h hbelow hf.shaped hopen hadmits
        refine ⟨hkept', hopen', hstop, fun u hu => ?_⟩
        rcases hnewest u hu with rfl | hclosed
        · exact Or.inr ⟨f.tag, _, rfl, hp⟩
        · exact Or.inr hclosed
      · cases h
    · next hp =>
      cases h
      refine ⟨⟨hkept, hroot⟩, hopen, eq_false_of_ne_true hp, ?_⟩
      rintro u ⟨⟩
      exact Or.inl rfl

/-- **Closing keeps the machine**, if it closes the list that may be innermost. -/
theorem Machine.Kept.closeWhile (hm : m.Kept)
    (hlist : Innermost (fun tag => isList tag = true → p tag = true) m.frames)
    (h : m.closeWhile? p = some m') : Closed p m m' := by
  obtain ⟨expects, frames, root⟩ := m
  obtain ⟨hstack, hroot⟩ := hm
  obtain ⟨⟨frames', root'⟩, hclose, rfl⟩ := Option.map_eq_some_iff.1 h
  cases frames with
  | nil =>
    cases hclose
    exact ⟨⟨trivial, hroot⟩, rfl, trivial, trivial, fun u hu => Or.inl hu⟩
  | cons f frames =>
    rw [Machine.closeFrames] at hclose
    split at hclose
    · next hp =>
      split at hclose
      · obtain ⟨hf, hopen, hadmits, hbelow⟩ := hstack
        obtain ⟨hkept, hopen', hstop, hnewest⟩ := closed_of_received hclose
          hbelow hroot hf.shaped hopen hadmits
        refine ⟨hkept, rfl, hopen', hstop, fun u hu => Or.inr ?_⟩
        rcases hnewest u hu with rfl | hclosed
        · exact ⟨f.tag, _, rfl, hp⟩
        · exact hclosed
      · cases hclose
    · next hp =>
      cases hclose
      refine ⟨⟨hstack, hroot⟩, rfl, ?_, eq_false_of_ne_true hp, fun u hu => Or.inl hu⟩
      show isList f.tag = false
      cases hf : isList f.tag with
      | false => rfl
      | true => exact absurd (hlist hf) hp

/-! ## Moves -/

/-- What taking off the newest tree leaves. -/
theorem Machine.Kept.takeLast (hm : m.Kept) (hopen : NoList m.frames)
    (h : m.takeLast? = some (t, m')) : m'.Kept ∧ Shaped t ∧ m.last? = some t ∧
      m'.expects = m.expects ∧ ∀ P, Innermost P m.frames → Innermost P m'.frames := by
  obtain ⟨expects, frames, root⟩ := m
  obtain ⟨hstack, hroot⟩ := hm
  unfold Machine.takeLast? at h
  cases frames with
  | nil =>
    cases root with
    | nil => cases h
    | cons u root =>
      cases h
      rw [List.forall_mem_cons] at hroot
      exact ⟨⟨trivial, hroot.2⟩, hroot.1, rfl, rfl, fun P hP => hP⟩
  | cons f frames =>
    obtain ⟨tag, span, done⟩ := f
    cases done with
    | nil => cases h
    | cons u done =>
      cases h
      obtain ⟨hf, hbelow⟩ := hstack
      have hchildren := List.forall_mem_cons.1 hf.children
      refine ⟨⟨⟨⟨hchildren.2, ?_, ?_⟩, hbelow⟩, hroot⟩, hchildren.1, rfl, rfl, fun P hP => hP⟩
      · exact fun htight => (List.forall_mem_cons.1 (hf.tight htight)).2
      · intro hlist
        rw [show isList tag = false from hopen] at hlist
        cases hlist

/-- What is expected next does not matter. -/
theorem Machine.Kept.expecting (hm : m.Kept) (next : Expect) : (m.expecting next).Kept :=
  ⟨hm.frames, hm.root⟩

/-- Adding a tree to a node that admits it. -/
theorem Machine.Kept.append (hm : m.Kept) (ht : Shaped t) (hopen : NoList m.frames)
    (hloose : Admits (isLooseTree t) m.frames) : (m.append t).Kept := by
  obtain ⟨expects, frames, root⟩ := m
  obtain ⟨hstack, hroot⟩ := hm
  cases frames with
  | nil => exact ⟨trivial, List.forall_mem_cons.2 ⟨ht, hroot⟩⟩
  | cons f frames => exact ⟨hstack.received ht hopen hloose, hroot⟩

theorem last?_append (m : Machine) (t : Tree) : (m.append t).last? = some t := by
  obtain ⟨expects, frames, root⟩ := m
  cases frames <;> rfl

theorem expects_append (m : Machine) (t : Tree) : (m.append t).expects = m.expects := by
  obtain ⟨expects, frames, root⟩ := m
  cases frames <;> rfl

theorem innermost_append (h : Innermost P m.frames) (t : Tree) : Innermost P (m.append t).frames := by
  obtain ⟨expects, frames, root⟩ := m
  cases frames with
  | nil => exact h
  | cons f frames => exact h

/-- What closing to a tier leaves has the tier below it. -/
theorem Machine.Kept.closeTier {least : Int} {span : Span} (hm : m.Kept)
    (hlist : Innermost (fun tag => isList tag = true → least ≤ tier tag) m.frames)
    (h : m.closeTier least span = .ok m') : Closed (fun tag => decide (least ≤ tier tag)) m m' :=
  hm.closeWhile (hlist.imp fun _ htag hlist => decide_eq_true (htag hlist)) (ok_of_orNear h)

/-- **Opening a node over the newest tree keeps the machine.** -/
theorem Machine.Kept.openOver {next : Expect} {span : Span} (hm : m.Kept)
    (hlist : Innermost (fun below => isList below = true → tier tag ≤ tier below) m.frames)
    (hnewest : bindsTight tag = true → ∀ u, m.last? = some u → isLooseTree u = false)
    (h : m.openOver tag next span = .ok m') :
    m'.Kept ∧ m'.expects = next ∧ ∃ t below, m'.frames = ⟨tag, span, [t]⟩ :: below := by
  obtain ⟨m₁, hclose, h⟩ := bind_eq_ok h
  obtain ⟨⟨t, m₂⟩, htake, h⟩ := bind_eq_ok h
  cases h
  have hclosed := hm.closeTier hlist hclose
  obtain ⟨hkept, ht, hlast, -, hinnermost⟩ :=
    hclosed.toKept.takeLast hclosed.noList (ok_of_orNear htake)
  have hloose : bindsTight tag = true → isLooseTree t = false := by
    intro htight
    rcases hclosed.newest t hlast with hold | ⟨tag', ts, rfl, htag⟩
    · exact hnewest htight t hold
    · exact isLooseTag_of_le_tier
        (Int.le_trans (le_tier_of_bindsTight htight) (of_decide_eq_true htag))
  have hadmits : Admits (isLooseTag tag) m₂.frames := by
    refine hinnermost _ (hclosed.stopped.imp fun below hbelow htight => ?_)
    cases htag : isLooseTag tag with
    | false => rfl
    | true =>
      -- a tight node would have been closed
      have hlt := Int.not_le.1 (of_decide_eq_false hbelow)
      have hle := le_tier_of_bindsTight htight
      have hloose := tier_of_isLooseTag htag
      omega
  refine ⟨⟨⟨⟨?_, ?_, ?_⟩, hinnermost _ hclosed.noList, hadmits, hkept.frames⟩, hkept.root⟩, rfl, t,
    _, rfl⟩
  · simpa using ht
  · simpa using hloose
  · simp

/-- **Wrapping the newest tree keeps the machine.** -/
theorem Machine.Kept.wrapLast {more : List Tree} {span : Span} (hm : m.Kept)
    (hopen : NoList m.frames) (htight : bindsTight tag = false) (hlist : isList tag = false)
    (hloose : isLooseTag tag = false) (hmore : ∀ t ∈ more, Shaped t)
    (h : m.wrapLast tag more span = .ok m') : m'.Kept ∧ m'.expects = m.expects ∧
      NoList m'.frames ∧ ∃ t, m'.last? = some (.node tag (t :: more)) := by
  obtain ⟨m₁, hclose, h⟩ := bind_eq_ok h
  obtain ⟨⟨t, m₂⟩, htake, h⟩ := bind_eq_ok h
  cases h
  have hclosed := hm.closeTier (hopen.imp fun below hbelow => by simp [hbelow]) hclose
  obtain ⟨hkept, ht, -, hexpects, hinnermost⟩ :=
    hclosed.toKept.takeLast hclosed.noList (ok_of_orNear htake)
  have hnode : Shaped (.node tag (t :: more)) :=
    .wrapped htight hlist (List.forall_mem_cons.2 ⟨ht, hmore⟩)
  have hopen' : NoList m₂.frames := hinnermost _ hclosed.noList
  have hadmits : Admits (isLooseTree (.node tag (t :: more))) m₂.frames := by
    rw [isLooseTree, hloose]
    exact admits_false _
  refine ⟨hkept.append hnode hopen' hadmits, ?_, innermost_append hopen' _, t, last?_append _ _⟩
  rw [← hclosed.expects, ← hexpects]
  exact expects_append _ _

/-! ## Steps -/

/-- What the machine expects agrees with the innermost open node and the newest tree. -/
def Machine.Ready (m : Machine) : Prop :=
  match m.expects with
  | .relation | .afterRelation | .operand => NoList m.frames
  | .afterOperand => NoList m.frames ∧ ∀ t, m.last? = some t → isLooseTree t = false
  | .orderItem | .orderSeparator => ∃ f below, m.frames = f :: below ∧ isList f.tag = true
  | .afterOrderItem => ∃ f below name done, m.frames = f :: below ∧ isList f.tag = true ∧
      f.done = .leaf .field name :: done
  | _ => True

/-- The invariant of the machine. -/
structure Machine.Sound (m : Machine) : Prop extends m.Kept where
  ready : m.Ready

/-- May a node with the tag expect this after its first child? -/
def opens : Tag → Expect → Bool
  | .op _, .operand | .filter, .operand | .having, .operand => true
  | .from_, .relation | .clauseOr, .relation | .clauseAnd, .relation => true
  | .order, .orderItem | .group, .groupItem => true
  | .limit, .limitValue | .offset, .offsetValue | .paginate, .pageName => true
  | _, _ => false

/-- A node that was opened over a tree. -/
theorem Machine.Kept.opened {next : Expect} {span : Span} (hm : m.Kept)
    (hnext : opens tag next = true)
    (hlist : Innermost (fun below => isList below = true → tier tag ≤ tier below) m.frames)
    (hnewest : bindsTight tag = true → ∀ u, m.last? = some u → isLooseTree u = false)
    (h : m.openOver tag next span = .ok m') : m'.Sound := by
  obtain ⟨hkept, hexpects, t, below, hframes⟩ := hm.openOver hlist hnewest h
  refine ⟨hkept, ?_⟩
  obtain ⟨expects, frames, root⟩ := m'
  change expects = next at hexpects
  change frames = _ at hframes
  subst hexpects hframes
  unfold opens at hnext
  split at hnext <;> first | (cases hnext; done) | trivial | exact rfl | exact ⟨_, _, rfl, rfl⟩

/-- A clause closes the list in front of it. -/
theorem le_tier_of_isList {least : Int} (h : least ≤ 2) (tag : Tag) (hlist : isList tag = true) :
    least ≤ tier tag := by
  rw [tier_of_isList hlist]
  exact h

theorem afterParen_cases (tag : Tag) :
    afterParen tag = .afterRelation ∨ afterParen tag = .afterOperand := by
  unfold afterParen
  split
  · exact Or.inl rfl
  · exact Or.inr rfl

/-- A closing parenthesis. -/
theorem Machine.Kept.closeParen (hm : m.Kept) (h : m.closeParen token = .ok (m', used)) :
    m'.Sound := by
  obtain ⟨m₁, hclose, h⟩ := bind_eq_ok h
  have hclosed := hm.closeTier (innermost_of_forall (le_tier_of_isList (by decide)) _) hclose
  obtain ⟨expects, frames, root⟩ := m₁
  cases frames with
  | nil => cases h
  | cons f frames =>
    obtain ⟨⟨⟨hf, hopen, -, hbelow⟩, hroot⟩, -, -, -, -⟩ := hclosed
    simp only at h
    split at h
    · next hparen =>
      cases h
      rw [Bool.and_eq_true] at hparen
      have hloose : isLooseTree f.tree = false := by
        obtain ⟨tag, opened, done⟩ := f
        cases tag with
        | op o => cases hparen.1
        | _ => rfl
      have hadmits : Admits (isLooseTree f.tree) frames := hloose ▸ admits_false frames
      have hkept : (⟨afterParen f.tag, frames, root⟩ : Machine).Kept := ⟨hbelow, hroot⟩
      have hopen' := innermost_append (m := ⟨afterParen f.tag, frames, root⟩) hopen f.tree
      refine ⟨hkept.append hf.shaped hopen hadmits, ?_⟩
      have hlast := last?_append ⟨afterParen f.tag, frames, root⟩ f.tree
      show (Machine.append f.tree ⟨afterParen f.tag, frames, root⟩).Ready
      rw [Machine.Ready, expects_append]
      rcases afterParen_cases f.tag with hafter | hafter
      · rw [hafter] at hopen' ⊢
        exact hopen'
      · rw [hafter] at hopen' hlast ⊢
        refine ⟨hopen', fun t ht => ?_⟩
        rw [hlast] at ht
        cases ht
        exact hloose
    · cases h

/-- The clauses with the words that start them. -/
theorem clauseOf?_spec {next : Token} {expects : Expect} {both : Bool}
    (h : Machine.clauseOf? token next = .ok (tag, expects, both)) :
    opens tag expects = true ∧ tier tag = 2 ∧ bindsTight tag = false := by
  unfold Machine.clauseOf? at h
  split at h
  · cases h; exact ⟨rfl, rfl, rfl⟩
  · cases h; exact ⟨rfl, rfl, rfl⟩
  · cases h; exact ⟨rfl, rfl, rfl⟩
  · cases h; exact ⟨rfl, rfl, rfl⟩
  · split at h
    · cases h; exact ⟨rfl, rfl, rfl⟩
    · cases h
  · split at h
    · cases h; exact ⟨rfl, rfl, rfl⟩
    · cases h
  · cases h

/-- A clause or a closing parenthesis. -/
theorem Machine.Kept.clause (hm : m.Kept) (h : m.clause token rest = .ok (m', used)) :
    m'.Sound := by
  unfold Machine.clause at h
  split at h
  · exact hm.closeParen h
  · split at h
    · cases h
    · split at h
      · cases h
      · next tag next both hclause =>
        obtain ⟨hnext, htier, htight⟩ := clauseOf?_spec hclause
        obtain ⟨m₁, hopen, h⟩ := bind_eq_ok h
        cases h
        refine hm.opened hnext ?_ (by simp [htight]) hopen
        exact innermost_of_forall (le_tier_of_isList (Int.le_of_eq htier)) _

/-! ### Relations -/

/-- A node without children fits. -/
theorem fits_nil (tag : Tag) (span : Span) : Frame.Fits ⟨tag, span, []⟩ :=
  ⟨by simp, by simp, by simp⟩

/-- Opening a node on its own. -/
theorem Machine.Kept.push (hm : m.Kept) (hf : f.Fits) (hopen : NoList m.frames)
    (hloose : isLooseTag f.tag = false) : (m.push f).Kept := by
  refine ⟨⟨hf, hopen, ?_, hm.frames⟩, hm.root⟩
  rw [hloose]
  exact admits_false _

/-- A relation. -/
theorem Machine.Kept.relation (hm : m.Kept) (hexpects : m.expects = .relation)
    (hopen : NoList m.frames) (h : m.relation token = .ok (m', used)) : m'.Sound := by
  unfold Machine.relation at h
  split at h
  · next name hname =>
    obtain ⟨m₁, hclose, h⟩ := bind_eq_ok h
    cases h
    have hclosed := hm.closeTier (hopen.imp fun tag htag => by simp [htag]) hclose
    have hf : Frame.Fits ⟨.relation, token.span, [.atom name]⟩ :=
      ⟨by simpa using Shaped.atom name, nofun, nofun⟩
    exact ⟨(hclosed.toKept.push hf hclosed.noList rfl).expecting _, rfl⟩
  · cases h
    refine ⟨hm.push (fits_nil _ _) hopen rfl, ?_⟩
    show Machine.Ready (m.push _)
    rw [Machine.Ready, show (m.push ⟨.clausePar, token.span, []⟩).expects = m.expects from rfl, hexpects]
    exact rfl
  · cases h

/-- What may follow a relation. -/
theorem Machine.Kept.afterRelation (hm : m.Kept) (hopen : NoList m.frames)
    (h : m.afterRelation token rest = .ok (m', used)) : m'.Sound := by
  have hopened : ∀ {tag : Tag} {next : Expect}, opens tag next = true → bindsTight tag = false →
      m.openOver tag next token.span >>= one = .ok (m', used) → m'.Sound := by
    intro tag next hnext htight h
    obtain ⟨m₁, hstep, h⟩ := bind_eq_ok h
    cases h
    exact hm.opened hnext (hopen.imp fun _ htag => by simp [htag]) (by simp [htight]) hstep
  unfold Machine.afterRelation at h
  split at h
  · unfold Machine.scope at h
    split at h
    · next name hname =>
      obtain ⟨m₁, hwrap, h⟩ := bind_eq_ok h
      cases h
      have hname : ∀ t ∈ [Tree.atom name], Shaped t := by simpa using Shaped.atom name
      obtain ⟨hkept, -, hopen', -⟩ := hm.wrapLast hopen rfl rfl rfl hname hwrap
      exact ⟨hkept.expecting _, hopen'⟩
    · cases h
  · exact hopened rfl rfl h
  · exact hopened rfl rfl h
  · exact hopened rfl rfl h
  · exact hopened rfl rfl h
  · exact hm.clause h

/-! ### Expressions -/

/-- A finished operand. -/
theorem Machine.Kept.addOperand (hm : m.Kept) (hopen : NoList m.frames) (ht : Shaped t)
    (hloose : isLooseTree t = false) : (m.addOperand t).Sound := by
  have hkept := hm.append ht hopen (hloose ▸ admits_false m.frames)
  refine ⟨hkept.expecting _, innermost_append hopen t, fun u hu => ?_⟩
  have hlast : (m.addOperand t).last? = some t := last?_append m t
  rw [hlast] at hu
  cases hu
  exact hloose

/-- An operand or what stands in front of one. -/
theorem Machine.Kept.operand (hm : m.Kept) (hexpects : m.expects = .operand)
    (hopen : NoList m.frames) (h : m.operand token rest = .ok (m', used)) : m'.Sound := by
  have hpushed : ∀ {tag : Tag}, isLooseTag tag = false → isList tag = false →
      (m.push ⟨tag, token.span, []⟩).Sound := by
    intro tag htag hlist
    refine ⟨hm.push (fits_nil _ _) hopen htag, ?_⟩
    rw [Machine.Ready, show (m.push ⟨tag, token.span, []⟩).expects = m.expects from rfl, hexpects]
    exact hlist
  have hopened : m.openOperand token = .ok (m', used) → m'.Sound := by
    intro h
    unfold Machine.openOperand at h
    split at h
    · cases h
      exact hpushed rfl rfl
    · split at h
      · next o ho =>
        cases h
        refine hpushed ?_ rfl
        -- no operator in front of an operand is loose
        unfold prefixOperator? at ho
        split at ho <;> cases ho <;> rfl
      · cases h
  have hleaf : ∀ (tag : Tag) (text : String), isList tag = false → isLooseTag tag = false →
      (m.addOperand (.leaf tag text)).Sound :=
    fun tag text hlist hloose => hm.addOperand hopen (shaped_leaf tag hlist text) hloose
  unfold Machine.operand at h
  split at h
  · cases h; exact hleaf _ _ rfl rfl
  · cases h; exact hleaf _ _ rfl rfl
  · cases h; exact hleaf _ _ rfl rfl
  · cases h; exact hleaf _ _ rfl rfl
  · cases h; exact hleaf _ _ rfl rfl
  · cases h
    exact hm.addOperand hopen (.wrapped rfl rfl (by simp)) rfl
  · split at h
    · next literal hliteral =>
      cases h
      unfold signedLiteral? at hliteral
      split at hliteral
      · split at hliteral
        · cases hliteral; exact hleaf _ _ rfl rfl
        · cases hliteral; exact hleaf _ _ rfl rfl
        · cases hliteral
      · cases hliteral
    · exact hopened h
  · exact hopened h

/-- An operator over the newest operand. -/
theorem Machine.Sound.operator {o : Operator} (hm : m.Sound) (hexpects : m.expects = .afterOperand)
    (h : m.openOver (.op o) .operand token.span >>= one = .ok (m', used)) : m'.Sound := by
  have hready := hm.ready
  rw [Machine.Ready, hexpects] at hready
  obtain ⟨m₁, hopen, h⟩ := bind_eq_ok h
  cases h
  exact hm.toKept.opened rfl (hready.1.imp fun _ htag => by simp [htag]) (fun _ => hready.2) hopen

/-- A negated operator over the newest operand. -/
theorem Machine.Sound.negated (hm : m.Sound) (hexpects : m.expects = .afterOperand)
    (h : m.negated token rest = .ok (m', used)) : m'.Sound := by
  have hready := hm.ready
  rw [Machine.Ready, hexpects] at hready
  unfold Machine.negated at h
  simp only at h
  split at h
  · cases h
  · next o hneg =>
    split at h
    · cases h
    · obtain ⟨m₁, hclose, h⟩ := bind_eq_ok h
      obtain ⟨⟨t, m₂⟩, htake, h⟩ := bind_eq_ok h
      cases h
      obtain ⟨htier, -, -, -⟩ := negatable?_spec hneg
      have hclosed := hm.toKept.closeTier (hready.1.imp fun _ htag => by simp [htag]) hclose
      obtain ⟨hkept, ht, hlast, -, hinnermost⟩ :=
        hclosed.toKept.takeLast hclosed.noList (ok_of_orNear htake)
      have hloose : isLooseTree t = false := by
        rcases hclosed.newest t hlast with hold | ⟨tag, ts, rfl, htag⟩
        · exact hready.2 t hold
        · have hle := of_decide_eq_true htag
          exact isLooseTag_of_le_tier (by omega)
      have hnot := hkept.push (fits_nil (.op .not) token.span) (hinnermost _ hclosed.noList) rfl
      have hf : Frame.Fits ⟨.op o, (following token rest).span, [t]⟩ :=
        ⟨by simpa using ht, fun _ => by simpa using hloose, nofun⟩
      have htight : (27 : Int) ≤ tier (.op o) := by
        show 27 ≤ operatorTier o
        omega
      have hop := hnot.push hf rfl (isLooseTag_of_le_tier htight)
      exact ⟨hop.expecting _, rfl⟩

/-- Closing with an operand to come. -/
theorem Machine.Sound.closed {span : Span} (hm : m.Sound) (hexpects : m.expects = .afterOperand)
    {m₁ : Machine} (h : orNear span (m.closeWhile? p) = .ok m₁) : (m₁.expecting .operand).Sound := by
  have hready := hm.ready
  rw [Machine.Ready, hexpects] at hready
  have hclosed := hm.toKept.closeWhile (hready.1.imp fun _ htag => by simp [htag]) (ok_of_orNear h)
  exact ⟨hclosed.toKept.expecting _, hclosed.noList⟩

/-- A function or an interval around the newest operand. -/
theorem Machine.Sound.wrapped {more : List Tree} {span : Span} (hm : m.Sound)
    (hexpects : m.expects = .afterOperand) (htag : tag = .function ∨ tag = .interval)
    (hmore : ∀ t ∈ more, Shaped t) (h : m.wrapLast tag more span = .ok m') : m'.Sound := by
  have hready := hm.ready
  rw [Machine.Ready, hexpects] at hready
  have htags : bindsTight tag = false ∧ isList tag = false ∧ isLooseTag tag = false := by
    rcases htag with rfl | rfl <;> exact ⟨rfl, rfl, rfl⟩
  obtain ⟨htight, hlist, hloose⟩ := htags
  obtain ⟨hkept, hexpects', hopen, t, hlast⟩ :=
    hm.toKept.wrapLast hready.1 htight hlist hloose hmore h
  refine ⟨hkept, ?_⟩
  rw [Machine.Ready, hexpects', hexpects]
  refine ⟨hopen, fun u hu => ?_⟩
  rw [hlast] at hu
  cases hu
  exact hloose

/-- **What may follow an operand.** -/
theorem Machine.Sound.afterOperand (hm : m.Sound) (hexpects : m.expects = .afterOperand)
    (h : m.afterOperand token rest = .ok (m', used)) : m'.Sound := by
  have hinfix : m.infixOrClause token rest = .ok (m', used) → m'.Sound := by
    intro h
    unfold Machine.infixOrClause at h
    split at h
    · exact hm.operator hexpects h
    · exact hm.toKept.clause h
  unfold Machine.afterOperand at h
  split at h
  · split at h
    · obtain ⟨m₁, hclose, h⟩ := bind_eq_ok h
      cases h
      exact hm.closed hexpects hclose
    · exact hinfix h
  · exact hm.negated hexpects h
  · exact hm.operator hexpects h
  · exact hm.operator hexpects h
  · split at h
    · exact hm.operator hexpects h
    · cases h
  · split at h
    · cases h
    · have hready := hm.ready
      rw [Machine.Ready, hexpects] at hready
      obtain ⟨m₁, hopen, h⟩ := bind_eq_ok h
      cases h
      exact hm.toKept.opened rfl (hready.1.imp fun _ htag => by simp [htag])
        (by simp [bindsTight]) hopen
  · unfold Machine.method at h
    split at h
    · next name hname =>
      obtain ⟨m₁, hwrap, h⟩ := bind_eq_ok h
      cases h
      exact hm.wrapped hexpects (Or.inl rfl) (by simpa using shaped_leaf .method rfl name) hwrap
    · cases h
  · unfold Machine.comma at h
    split at h
    · obtain ⟨m₁, hclose, h⟩ := bind_eq_ok h
      cases h
      exact hm.closed hexpects hclose
    · cases h
  · unfold Machine.interval at h
    split at h
    · next unit hunit =>
      split at h
      · obtain ⟨m₁, hwrap, h⟩ := bind_eq_ok h
        cases h
        exact hm.wrapped hexpects (Or.inr rfl) (by simpa using Shaped.atom unit) hwrap
      · cases h
    · cases h
  · exact hinfix h

/-! ### Clauses -/

/-- An item that goes to the list it belongs to. -/
theorem Machine.Kept.item (hm : m.Kept) (ht : IsItem t) : (m.append t).Kept := by
  obtain ⟨expects, frames, root⟩ := m
  obtain ⟨hstack, hroot⟩ := hm
  cases frames with
  | nil => exact ⟨trivial, List.forall_mem_cons.2 ⟨ht.shaped, hroot⟩⟩
  | cons f frames =>
    obtain ⟨hf, hbelow⟩ := hstack
    refine ⟨⟨⟨?_, ?_, ?_⟩, hbelow⟩, hroot⟩
    · exact List.forall_mem_cons.2 ⟨ht.shaped, hf.children⟩
    · exact fun htight => List.forall_mem_cons.2 ⟨ht.not_loose, hf.tight htight⟩
    · intro hlist
      obtain ⟨tag, span, done⟩ := f
      cases done with
      | nil => simp
      | cons u done => exact List.forall_mem_cons.2 ⟨ht, hf.items hlist⟩

/-- A direction takes the field in front of it and closes nothing. -/
theorem wrapLast_direction {expects : Expect} {done : List Tree} {span : Span} (htier : tier tag = 10)
    (hlist : isList f.tag = true) :
    (⟨expects, { f with done := t :: done } :: frames, root⟩ : Machine).wrapLast tag [] span =
      .ok ⟨expects, { f with done := .node tag [t] :: done } :: frames, root⟩ := by
  have hstop : ¬ (10 : Int) ≤ tier f.tag := by
    rw [tier_of_isList hlist]
    decide
  have hclose : (⟨expects, { f with done := t :: done } :: frames, root⟩ : Machine).closeTier
      (tier tag) span = .ok ⟨expects, { f with done := t :: done } :: frames, root⟩ := by
    simp [Machine.closeTier, Machine.closeWhile?, Machine.closeFrames, htier, hstop, orNear]
  simp only [Machine.wrapLast, hclose, bind, Except.bind]
  rfl

/-- A direction after a field. -/
theorem Machine.Sound.direction (hm : m.Sound) (hexpects : m.expects = .afterOrderItem)
    (htag : tag = .asc ∨ tag = .desc) {span : Span}
    (h : (do let m ← m.wrapLast tag [] span; one (m.expecting .orderSeparator)) = .ok (m', used)) :
    m'.Sound := by
  obtain ⟨⟨hstack, hroot⟩, hready⟩ := hm
  rw [Machine.Ready, hexpects] at hready
  obtain ⟨⟨_, opened, done⟩, below, name, fields, hframes, hlist, rfl⟩ := hready
  obtain ⟨m₁, hwrap, h⟩ := bind_eq_ok h
  cases h
  obtain ⟨expects, frames, root⟩ := m
  change frames = _ at hframes
  subst hframes
  have htier : tier tag = 10 := by
    rcases htag with rfl | rfl <;> rfl
  have hitem : IsItem (.node tag [.leaf .field name]) := by
    rcases htag with rfl | rfl
    · exact .asc name
    · exact .desc name
  rw [wrapLast_direction (f := ⟨_, opened, _⟩) htier hlist] at hwrap
  cases hwrap
  obtain ⟨hf, hbelow⟩ := hstack
  have hchildren := List.forall_mem_cons.1 hf.children
  refine ⟨⟨⟨⟨?_, ?_, ?_⟩, hbelow⟩, hroot⟩, ⟨_, _, rfl, hlist⟩⟩
  · exact List.forall_mem_cons.2 ⟨hitem.shaped, hchildren.2⟩
  · exact fun htight =>
      List.forall_mem_cons.2 ⟨hitem.not_loose, (List.forall_mem_cons.1 (hf.tight htight)).2⟩
  · intro hlist
    have hitems := hf.items hlist
    cases fields with
    | nil => simp
    | cons u fields =>
      rw [List.dropLast_cons_cons, List.forall_mem_cons] at hitems ⊢
      exact ⟨hitem, hitems.2⟩

/-- **One step keeps the invariant.** -/
theorem Machine.Sound.step (hm : m.Sound) (h : m.step token rest = .ok (m', used)) : m'.Sound := by
  have hready := hm.ready
  unfold Machine.Ready at hready
  have hclause : ∀ allowed next, (next = .limitValue ∨ next = .groupItem ∨
      next = .orderItem ∧ m.expects = .orderSeparator) →
      m.separatorOrClause allowed next token rest = .ok (m', used) → m'.Sound := by
    intro allowed next hnext h
    unfold Machine.separatorOrClause at h
    split at h
    · cases h
      refine ⟨hm.toKept.expecting _, ?_⟩
      rcases hnext with rfl | rfl | ⟨rfl, hexpects⟩
      · trivial
      · trivial
      · rw [hexpects] at hready
        exact hready
    · exact hm.toKept.clause h
  have hvalue : ∀ next, (next = .afterLimit ∨ next = .clauseEnd) →
      m.clauseValue next token = .ok (m', used) → m'.Sound := by
    intro next hnext h
    unfold Machine.clauseValue at h
    split at h
    · cases h
      refine ⟨(hm.toKept.item (.integer _)).expecting _, ?_⟩
      rcases hnext with rfl | rfl <;> trivial
    · cases h
  unfold Machine.step at h
  split at h
  · next hexpects =>
    rw [hexpects] at hready
    exact hm.toKept.relation hexpects hready h
  · next hexpects =>
    rw [hexpects] at hready
    exact hm.toKept.afterRelation hready h
  · next hexpects =>
    rw [hexpects] at hready
    exact hm.toKept.operand hexpects hready h
  · next hexpects => exact hm.afterOperand hexpects h
  · exact hvalue _ (Or.inl rfl) h
  · exact hclause _ _ (Or.inl rfl) h
  · exact hvalue _ (Or.inr rfl) h
  · unfold Machine.clauseName at h
    split at h
    · cases h
      exact ⟨(hm.toKept.item (.param _)).expecting _, trivial⟩
    · cases h
  · next hexpects =>
    rw [hexpects] at hready
    unfold Machine.clauseName at h
    split at h
    · next name hname =>
      cases h
      obtain ⟨f, below, hframes, hlist⟩ := hready
      refine ⟨(hm.toKept.item (.field name)).expecting _, ?_⟩
      refine ⟨{ f with done := .leaf .field name :: f.done }, below, name, f.done, ?_, hlist, rfl⟩
      simp [Machine.append, Machine.expecting, hframes]
    · cases h
  · next hexpects =>
    unfold Machine.afterOrderItem at h
    split at h
    · exact hm.direction hexpects (Or.inl rfl) h
    · exact hm.direction hexpects (Or.inr rfl) h
    · cases h
      rw [hexpects] at hready
      obtain ⟨f, below, -, -, hframes, hlist, -⟩ := hready
      exact ⟨hm.toKept.expecting _, f, below, hframes, hlist⟩
    · exact hm.toKept.clause h
  · next hexpects => exact hclause _ _ (Or.inr (Or.inr ⟨rfl, hexpects⟩)) h
  · unfold Machine.clauseName at h
    split at h
    · cases h
      exact ⟨(hm.toKept.item (.field _)).expecting _, trivial⟩
    · cases h
  · exact hclause _ _ (Or.inr (Or.inl rfl)) h
  · exact hm.toKept.clause h

/-! ## Runs -/

/-- At the end of the source. -/
theorem Machine.Sound.finish (hm : m.Sound) (h : m.finish token = .ok t) : Shaped t := by
  unfold Machine.finish at h
  split at h
  · split at h
    · cases h
    · obtain ⟨m₁, hclose, h⟩ := bind_eq_ok h
      cases h
      have hclosed := hm.toKept.closeWhile (p := fun _ => true)
        (innermost_of_forall (fun _ _ => rfl) _) (ok_of_orNear hclose)
      exact .wrapped rfl rfl fun t ht => hclosed.root t (List.mem_reverse.1 ht)
  · cases h

/-- **A run from a machine with the invariant yields a shaped tree.** -/
theorem Machine.Sound.run {tokens : List Token} (hm : m.Sound) (h : runTokens m tokens = .ok t) :
    Shaped t := by
  fun_induction runTokens m tokens with
  | case1 => cases h
  | case2 => cases h
  | case3 m token rest hkind => exact hm.finish h
  | case4 => cases h
  | case5 m token rest next hstep _ _ ih => exact ih (hm.step hstep) h
  | case6 m token next _ _ hstep ih => exact ih (hm.step hstep) h
  | case7 m token next following rest _ _ hstep ih => exact ih (hm.step hstep) h

/-- **Every parsed tree is shaped.** -/
theorem shaped_of_parse {source : String} {tree : Tree} (h : parse source = .ok tree) :
    Shaped tree := by
  unfold parse at h
  split at h
  · next tree' hrun =>
    cases h
    exact Machine.Sound.run (m := .start) ⟨⟨trivial, by simp [Machine.start]⟩, trivial⟩ hrun
  · cases h

end RelationSql.Grammar
