import RelationSql.Proofs.Grammar.Slots

/-!
# Parsed trees are well-formed

What the machine expects next says what the innermost open node waits for or has just received
(`Machine.Built`). Every step keeps that, in each of the states and for each token (`Machine.Built.step`),
so every source that is parsed has a well-formed tree (`formed_of_parse`).
-/

namespace RelationSql.Grammar

open RelationSql.Source (Span Token TokenKind)

/-! ## The invariant -/

/-- The innermost open node is a clause with these entries behind its relation, the newest first. -/
inductive Machine.Listing (P : Tag → List Tree → Prop) : Machine → Prop where
  | mk {m : Machine} {tag : Tag} {span : Span} {entries : List Tree} {t : Tree} (hm : m.Waits .clause)
      (ht : Formed True .clause t) (h : P tag entries) :
      Listing P (m.push ⟨tag, span, entries ++ [t]⟩)

/-- The numbers that a limit has so far. -/
def Counts (least most : Nat) (tag : Tag) (entries : List Tree) : Prop :=
  tag = .limit ∧ least ≤ entries.length ∧ entries.length ≤ most ∧ ∀ t ∈ entries, IsCount t

/-- The fields that an order has so far. -/
def Orderings (tag : Tag) (entries : List Tree) : Prop :=
  tag = .order ∧ ∀ t ∈ entries, IsOrdering t

/-- The fields that an order has so far, the newest without a direction. -/
def OrderingsField (tag : Tag) (entries : List Tree) : Prop :=
  Orderings tag entries ∧ ∃ t more, entries = t :: more ∧ IsField t

/-- The fields that a group has so far. -/
def Fields (tag : Tag) (entries : List Tree) : Prop :=
  tag = .group ∧ ∀ t ∈ entries, IsField t

/-- An offset with its number, or pages with their parameter. -/
def Finished (tag : Tag) (entries : List Tree) : Prop :=
  (tag = .offset ∧ ∃ t, entries = [t] ∧ IsCount t) ∨
    (tag = .paginate ∧ ∃ name, entries = [.leaf .param name] ∧ IsName name)

/-- **What the machine expects is what its innermost open node waits for.** -/
def Machine.Built (m : Machine) : Prop :=
  match m.expects with
  | .relation => m.Waits .clause
  | .afterRelation => m.Ends .clause 13
  | .operand => m.Waits .expression
  | .afterOperand => m.Received .expression
  | .limitValue => m.Listing (Counts 0 1)
  | .afterLimit => m.Listing (Counts 1 2)
  | .offsetValue => m.Listing fun tag entries => tag = .offset ∧ entries = []
  | .pageName => m.Listing fun tag entries => tag = .paginate ∧ entries = []
  | .orderItem => m.Listing Orderings
  | .afterOrderItem => m.Listing OrderingsField
  | .orderSeparator => m.Listing fun tag entries => Orderings tag entries ∧ entries ≠ []
  | .groupItem => m.Listing Fields
  | .afterGroupItem => m.Listing fun tag entries => Fields tag entries ∧ entries ≠ []
  | .clauseEnd => m.Listing Finished

variable {m m' : Machine} {r : Role} {t u : Tree} {tag : Tag} {token : Token} {rest : List Token}
  {used : Bool} {k : Int} {P Q : Tag → List Tree → Prop}

theorem built_start : Machine.start.Built :=
  (⟨.outside, rfl⟩ : Machine.start.Waits .clause)

/-! ## Lists -/

/-- The next entry of a list. -/
theorem Machine.Listing.append (h : m.Listing P) (hPQ : ∀ tag entries, P tag entries → Q tag (t :: entries)) :
    (m.append t).Listing Q := by
  cases h with
  | mk hm ht h => exact .mk hm ht (hPQ _ _ h)

theorem Machine.Listing.imp (h : m.Listing P) (hPQ : ∀ tag entries, P tag entries → Q tag entries) :
    m.Listing Q := by
  cases h with
  | mk hm ht h => exact .mk hm ht (hPQ _ _ h)

theorem Machine.Listing.expecting (h : m.Listing P) (next : Expect) : (m.expecting next).Listing P := by
  cases h with
  | mk hm ht h => exact .mk (hm.expecting next) ht h

/-- A list whose entries make a clause is one when it is closed. -/
theorem Machine.Listing.ends (h : m.Listing P)
    (hP : ∀ tag entries t, P tag entries → Formed True .clause t →
      Formed True .clause (.node tag (t :: entries.reverse)) ∧ tier tag = 2) :
    m.Ends .clause 2 := by
  cases h with
  | @mk m tag span entries t hm ht h =>
    obtain ⟨hformed, htier⟩ := hP _ _ t h ht
    refine .standing hm ?_ ?_ (Int.le_of_eq htier.symm)
    · rw [Frame.tree, List.reverse_append]
      exact hformed
    · cases tag with
      | op o =>
        have hop := (operatorTier_bounds o).1
        change operatorTier o = 2 at htier
        omega
      | _ => rfl

theorem Counts.formed {entries : List Tree} (h : Counts 1 2 tag entries) (ht : Formed True .clause t) :
    Formed True .clause (.node tag (t :: entries.reverse)) ∧ tier tag = 2 := by
  obtain ⟨rfl, hleast, hmost, hcounts⟩ := h
  refine ⟨.limit ht ?_ fun u hu => hcounts u (List.mem_reverse.1 hu), rfl⟩
  rw [List.length_reverse]
  omega

theorem Orderings.formed {entries : List Tree} (h : Orderings tag entries) (hne : entries ≠ [])
    (ht : Formed True .clause t) :
    Formed True .clause (.node tag (t :: entries.reverse)) ∧ tier tag = 2 := by
  obtain ⟨rfl, hitems⟩ := h
  exact ⟨.order ht (by simpa using hne) fun u hu => hitems u (List.mem_reverse.1 hu), rfl⟩

theorem Fields.formed {entries : List Tree} (h : Fields tag entries) (hne : entries ≠ [])
    (ht : Formed True .clause t) :
    Formed True .clause (.node tag (t :: entries.reverse)) ∧ tier tag = 2 := by
  obtain ⟨rfl, hitems⟩ := h
  exact ⟨.group ht (by simpa using hne) fun u hu => hitems u (List.mem_reverse.1 hu), rfl⟩

theorem Finished.formed {entries : List Tree} (h : Finished tag entries) (ht : Formed True .clause t) :
    Formed True .clause (.node tag (t :: entries.reverse)) ∧ tier tag = 2 := by
  rcases h with ⟨rfl, u, rfl, hu⟩ | ⟨rfl, name, rfl, hname⟩
  · exact ⟨.offset ht hu, rfl⟩
  · exact ⟨.paginate ht hname, rfl⟩

/-- **Where a source may end, what was read last ends.** An operand may stand where a clause does not. -/
theorem Machine.Built.ends (h : m.Built) (hend : m.expects.acceptsEnd = true) : ∃ r, m.Ends r 2 := by
  obtain ⟨expects, frames, root⟩ := m
  cases expects with
  | afterRelation => exact ⟨_, Machine.Ends.mono h (by decide)⟩
  | afterOperand => exact ⟨_, Machine.Received.ends h 2⟩
  | afterLimit => exact ⟨_, Machine.Listing.ends h fun _ _ _ h ht => h.formed ht⟩
  | afterOrderItem =>
    refine ⟨_, Machine.Listing.ends h fun _ entries _ h ht => h.1.formed ?_ ht⟩
    obtain ⟨-, u, more, rfl, -⟩ := h
    simp
  | orderSeparator => exact ⟨_, Machine.Listing.ends h fun _ _ _ h ht => h.1.formed h.2 ht⟩
  | afterGroupItem => exact ⟨_, Machine.Listing.ends h fun _ _ _ h ht => h.1.formed h.2 ht⟩
  | clauseEnd => exact ⟨_, Machine.Listing.ends h fun _ _ _ h ht => h.formed ht⟩
  | _ => cases hend

/-! ## Clauses -/

/-- What a clause word opens. -/
theorem Machine.Waits.clause_opened (hm : m.Waits .clause) (ht : Formed True .clause t) {next : Token}
    {expects : Expect} {both : Bool} (h : Machine.clauseOf? token next = .ok (tag, expects, both))
    (span : Span) : ((m.push ⟨tag, span, [t]⟩).expecting expects).Built := by
  have hlisting {P : Tag → List Tree → Prop} (hP : P tag []) :
      ((m.push ⟨tag, span, [] ++ [t]⟩).expecting expects).Listing P :=
    .mk (hm.expecting expects) ht hP
  unfold Machine.clauseOf? at h
  split at h
  · cases h
    exact hlisting ⟨rfl, by simp, by simp, by simp⟩
  · cases h
    exact hlisting ⟨rfl, rfl⟩
  · cases h
    exact hlisting ⟨rfl, rfl⟩
  · cases h
    exact (hm.push (.having (by simp) ht)).expecting _
  · split at h
    · cases h
      exact hlisting ⟨rfl, by simp⟩
    · cases h
  · split at h
    · cases h
      exact hlisting ⟨rfl, by simp⟩
    · cases h
  · cases h

/-- Outside of the parentheses of an expression, closing down to the tier of a clause leaves a clause. -/
theorem clause_of_stopped {m₀ m₁ : Machine}
    (h : Machine.Stopped (fun tag => decide ((2 : Int) ≤ tier tag)) r t m₀ m₁)
    (hclose : m.closeWhile? (fun tag => decide ((2 : Int) ≤ tier tag)) = some m₁)
    (hinside : m.insideExpression = false) : r = .clause := by
  have hstop {f : Frame} (hf : f ∈ m₀.frames.head?) : tier f.tag < 2 :=
    Int.not_le.1 (of_decide_eq_false (h.stop f hf))
  have hparens (tag : Tag) (htag : tag.isParen = true) : decide ((2 : Int) ≤ tier tag) = false := by
    rcases (by simpa [Tag.isParen] using htag : tag = .par ∨ tag = .clausePar) with rfl | rfl <;> rfl
  have hframes := h.waits.frames
  revert hframes hstop
  cases hlist : m₀.frames with
  | nil =>
    intro _ hframes
    cases hframes
    rfl
  | cons f below =>
    intro hstop hframes
    have htier : tier f.tag < 2 := hstop rfl
    cases hframes with
    | inside hf hbelow =>
      cases r with
      | clause => rfl
      | hybrid =>
        rw [hf.tag_of_hybrid] at htier
        exact absurd htier (by decide)
      | expression =>
        exfalso
        rcases hf.tag_of_expression with htag | htag | htag | ⟨q, htag⟩
        · rw [htag] at htier
          exact absurd htier (by decide)
        · rw [htag] at htier
          exact absurd htier (by decide)
        · have hpar := h.insideExpression hclose hparens ⟨f, by rw [hlist]; rfl, htag⟩
          rw [hinside] at hpar
          cases hpar
        · rw [htag] at htier
          have hop := (operatorTier_bounds q).1
          change operatorTier q < 2 at htier
          omega

/-- A closing parenthesis closes the node that has received the newest tree, if that is a parenthesis. -/
theorem closeParen_of_closeTier {m₀ : Machine} {f : Frame} {below : List Frame}
    (hclose : m.closeTier parenTier token.span = .ok (m₀.append u)) (hframes : m₀.frames = f :: below) :
    m.closeParen token =
      if f.tag.isParen then
        one (({ m₀ with frames := below }.expecting (afterParen f.tag)).append
          ({ f with done := [u] ++ f.done } : Frame).tree)
      else reject token := by
  obtain ⟨expects, frames, root⟩ := m₀
  obtain rfl : frames = f :: below := hframes
  rw [Machine.closeParen, hclose]
  simp [Machine.append, bind, Except.bind]

/-- A closing parenthesis leaves what stands in it, as a clause or an expression. -/
theorem Machine.Ends.closeParen (hm : m.Ends r 2) (h : m.closeParen token = .ok (m', used)) :
    m'.Built := by
  obtain ⟨m₁, hclose, hone⟩ := bind_eq_ok h
  obtain ⟨r', u, m₀, ⟨⟨hframes, hroot⟩, hu, rfl, -⟩, -, -⟩ :=
    hm.closeTier (P := fun _ => True) (by decide) (fun _ _ _ => trivial) trivial hclose
  cases hlist : m₀.frames with
  | nil =>
    obtain ⟨expects, frames, root⟩ := m₀
    obtain rfl : frames = [] := hlist
    cases hone
  | cons f below =>
    rw [closeParen_of_closeTier hclose hlist] at h
    rw [hlist] at hframes
    cases hframes with
    | inside hf hbelow =>
      split at h
      · next hparen =>
        cases h
        have hwaits := Machine.Waits.mk (m := { m₀ with frames := below }) hbelow hroot
        have hformed := hf.closes hu
        rw [append_expecting]
        cases hf with
        | enclosed => exact Machine.Ends.expecting (.received hwaits (hformed rfl)) .afterRelation
        | parenthesis => exact Machine.Received.expecting (.mk hwaits (hformed rfl)) .afterOperand
        | link htag _ => rcases isLink_iff.1 htag with rfl | rfl | rfl <;> cases hparen
        | onward htag _ => rcases isLink_iff.1 htag with rfl | rfl | rfl <;> cases hparen
        | _ => cases hparen
      · cases h

/-- **A clause or a closing parenthesis**, wherever a source may end. -/
theorem Machine.Ends.clause (hm : m.Ends r 2) (h : m.clause token rest = .ok (m', used)) : m'.Built := by
  unfold Machine.clause at h
  split at h
  · exact hm.closeParen h
  · split at h
    · cases h
    · next hinside =>
      split at h
      · cases h
      · next tag next both hclause =>
        obtain ⟨m₁, hopen, h⟩ := bind_eq_ok h
        cases h
        obtain ⟨-, htier, -⟩ := clauseOf?_spec hclause
        obtain ⟨r', u, m₀, m₂, hstopped, hclose, -, rfl⟩ := hm.openOver (P := fun _ => True)
          (Int.le_of_eq htier) (fun _ _ _ => trivial) trivial hopen
        rw [htier] at hstopped hclose
        obtain rfl := clause_of_stopped hstopped (ok_of_orNear hclose) (eq_false_of_ne_true hinside)
        exact hstopped.waits.clause_opened hstopped.formed hclause _

/-! ## Relations -/

/-- A relation. -/
theorem Machine.Waits.relation (hm : m.Waits .clause) (hexpects : m.expects = .relation)
    (htoken : IsProper token.kind) (h : m.relation token = .ok (m', used)) : m'.Built := by
  unfold Machine.relation at h
  split at h
  · next name hname =>
    obtain ⟨m₁, hclose, h⟩ := bind_eq_ok h
    cases h
    have hstop : ∀ f ∈ m.frames.head?, decide (tier .relation ≤ tier f.tag) = false := by
      intro f hf
      have hframes := hm.frames
      obtain ⟨below, hbelow⟩ := List.head?_eq_some_iff.1 hf
      rw [hbelow] at hframes
      cases hframes with
      | inside hslot _ =>
        have htier := hslot.tier_of_clause
        rw [decide_eq_false_iff_not]
        show ¬ (13 : Int) ≤ tier f.tag
        omega
    have hsame := ok_of_orNear hclose
    rw [closeWhile?_of_stop hstop] at hsame
    cases hsame
    rw [hname] at htoken
    exact Machine.Ends.standing (hm.expecting _) (.relation htoken) rfl (Int.le_refl _)
  · cases h
    show Machine.Built (m.push _)
    rw [Machine.Built, show (m.push ⟨.clausePar, token.span, []⟩).expects = m.expects from rfl, hexpects]
    exact hm.push .enclosed
  · cases h

/-- A link takes the clause in front of it, or a chain that has taken an expression. -/
theorem Machine.Ends.link (hm : m.Ends .clause 13) (htag : isLink tag = true)
    (h : m.openOver tag .relation token.span >>= one = .ok (m', used)) : m'.Built := by
  obtain ⟨m₁, hopen, h⟩ := bind_eq_ok h
  cases h
  have htier : tier tag ≤ 13 := by
    rcases isLink_iff.1 htag with rfl | rfl | rfl <;> decide
  obtain ⟨r', u, m₀, -, ⟨hwaits, hu, -, -⟩, -, hr, rfl⟩ := hm.openOver
    (P := fun r => r ≠ .expression) htier (fun hf _ hr => hf.ne_expression hr) (by simp) hopen
  cases r' with
  | clause => exact (hwaits.push (.link htag hu)).expecting _
  | hybrid => exact (hwaits.push (.onward htag hu)).expecting _
  | expression => exact absurd rfl hr

/-- What may follow a relation. -/
theorem Machine.Ends.afterRelation (hm : m.Ends .clause 13)
    (hrest : ∀ next ∈ rest, IsProper next.kind)
    (h : m.afterRelation token rest = .ok (m', used)) : m'.Built := by
  -- nothing that binds as tightly as a scope has a relation in it
  have hclause {k : Int} (hk : 11 < k) {f : Frame} {r o : Role} (hf : Slot f r o) (htier : k ≤ tier f.tag)
      (hr : r = .clause) : o = .clause := by
    subst hr
    have hle := hf.tier_of_clause
    omega
  unfold Machine.afterRelation at h
  split at h
  · next hin =>
    unfold Machine.scope at h
    split at h
    · next name hname =>
      obtain ⟨m₁, hwrap, h⟩ := bind_eq_ok h
      cases h
      obtain ⟨r', u, m₀, hwaits, hu, -, rfl, rfl⟩ := hm.wrapLast (P := fun r => r = .clause) (by decide)
        (fun hf => hclause (by decide) hf) rfl hwrap
      have hproper : IsName name := by
        cases rest with
        | nil =>
          rw [following, hin] at hname
          cases hname
        | cons next rest =>
          have hnext := hrest next List.mem_cons_self
          rw [show next.kind = .name name from hname] at hnext
          exact hnext
      exact Machine.Ends.expecting (.received hwaits (.scope hu hproper)) .afterRelation
    · cases h
  · obtain ⟨m₁, hopen, h⟩ := bind_eq_ok h
    cases h
    obtain ⟨r', u, m₀, -, ⟨hwaits, hu, -, -⟩, -, rfl, rfl⟩ := hm.openOver (P := fun r => r = .clause)
      (Int.le_refl _) (fun hf => hclause (by decide) hf) rfl hopen
    exact (hwaits.push (.filter hu)).expecting _
  · exact hm.link rfl h
  · exact hm.link rfl h
  · exact hm.link rfl h
  · exact (hm.mono (by decide)).clause h

/-! ## Expressions -/

/-- A finished operand. -/
theorem Machine.Waits.addOperand (hm : m.Waits .expression) (ht : Formed True .expression t) :
    (m.addOperand t).Built :=
  (Machine.Received.mk hm ht).expecting .afterOperand

/-- A parenthesis or an operator in front of its operand. -/
theorem Machine.Waits.openOperand (hm : m.Waits .expression) (hexpects : m.expects = .operand)
    (h : m.openOperand token = .ok (m', used)) : m'.Built := by
  have hpushed {tag : Tag} (hslot : Slot ⟨tag, token.span, []⟩ .expression .expression) :
      (m.push ⟨tag, token.span, []⟩).Built := by
    rw [Machine.Built, show (m.push ⟨tag, token.span, []⟩).expects = m.expects from rfl, hexpects]
    exact hm.push hslot
  unfold Machine.openOperand at h
  split at h
  · cases h
    exact hpushed (.parenthesis (by simp))
  · split at h
    · next o ho =>
      cases h
      refine hpushed (.operator (.inl ?_) (by simp))
      unfold prefixOperator? at ho
      split at ho <;> cases ho <;> rfl
    · cases h

/-- The number after a minus that touches it. -/
theorem isNumber_of_signedLiteral? {minus next : Token} (hnext : IsProper next.kind)
    (h : signedLiteral? minus next = some t) : IsNumber t := by
  unfold signedLiteral? at h
  split at h
  · split at h
    · next digits hkind =>
      cases h
      rw [hkind] at hnext
      exact .integer (.inr ⟨digits, hnext, rfl⟩)
    · next digits hkind =>
      cases h
      rw [hkind] at hnext
      exact .real (.inr ⟨digits, hnext, rfl⟩)
    · cases h
  · cases h

/-- An operand or what may stand in front of one. -/
theorem Machine.Waits.operand (hm : m.Waits .expression) (hexpects : m.expects = .operand)
    (htoken : IsProper token.kind) (hrest : ∀ next ∈ rest, IsProper next.kind)
    (h : m.operand token rest = .ok (m', used)) : m'.Built := by
  unfold Machine.operand at h
  split at h
  · next hkind =>
    cases h
    rw [hkind] at htoken
    exact hm.addOperand (.number (.integer (.inl htoken)))
  · next hkind =>
    cases h
    rw [hkind] at htoken
    exact hm.addOperand (.number (.real (.inl htoken)))
  · cases h
    exact hm.addOperand (.string _)
  · cases h
    exact hm.addOperand (.template _)
  · next hkind =>
    cases h
    rw [hkind] at htoken
    exact hm.addOperand (.leaf htoken)
  · cases h
    exact hm.addOperand .null
  · split at h
    · next literal hliteral =>
      cases h
      have hnext : IsProper (following token rest).kind := by
        cases rest with
        | nil => exact htoken
        | cons next rest => exact hrest next List.mem_cons_self
      exact hm.addOperand (.number (isNumber_of_signedLiteral? hnext hliteral))
    · exact hm.openOperand hexpects h
  · exact hm.openOperand hexpects h

/-- What binds tighter than a condition takes the expression in front of it. -/
theorem Machine.Received.taken {least : Int} {span : Span} {m₁ m₂ : Machine}
    (hm : m.Received .expression) (hleast : 13 < least) (hclose : m.closeTier least span = .ok m₁)
    (htake : orNear span m₁.takeLast? = .ok (t, m₂)) :
    m₂.Waits .expression ∧ Formed True .expression t := by
  obtain ⟨r', u, m₀, ⟨hwaits, hu, rfl, -⟩, -, rfl⟩ := (hm.ends least).closeTier
    (P := fun r => r = .expression) (Int.le_refl _)
    (fun hf htier hr => by subst hr; exact hf.expression_of_op (Int.lt_of_lt_of_le hleast htier))
    rfl hclose
  have htaken := ok_of_orNear htake
  rw [takeLast?_append] at htaken
  cases htaken
  exact ⟨hwaits, hu⟩

theorem lt_operatorTier (o : Operator) : 13 < operatorTier o :=
  Int.lt_of_lt_of_le (by decide) (operatorTier_bounds o).1

/-- The slot of an operator behind its first operand. -/
theorem Slot.behind {o : Operator} (ho : arity o ≠ 1) (ht : Formed True .expression t) (span : Span) :
    Slot ⟨.op o, span, [t]⟩ .expression .expression := by
  refine .operator ?_ (by simpa using ht)
  cases o <;> first | exact .inl rfl | exact .inr ⟨rfl, rfl⟩ | exact absurd rfl ho

/-- An operator between operands. -/
theorem Machine.Received.operator {o : Operator} (hm : m.Received .expression) (ho : arity o ≠ 1)
    (h : m.openOver (.op o) .operand token.span >>= one = .ok (m', used)) : m'.Built := by
  obtain ⟨m₁, hopen, h⟩ := bind_eq_ok h
  cases h
  obtain ⟨m₂, hclose, hopen⟩ := bind_eq_ok hopen
  obtain ⟨⟨t, m₃⟩, htake, hopen⟩ := bind_eq_ok hopen
  cases hopen
  obtain ⟨hwaits, ht⟩ := hm.taken (lt_operatorTier o) hclose htake
  exact (hwaits.push (.behind ho ht _)).expecting _

/-- A negated operator. -/
theorem Machine.Received.negated (hm : m.Received .expression)
    (h : m.negated token rest = .ok (m', used)) : m'.Built := by
  unfold Machine.negated at h
  simp only at h
  split at h
  · cases h
  · next o hneg =>
    split at h
    · cases h
    · obtain ⟨m₁, hclose, h⟩ := bind_eq_ok h
      obtain ⟨⟨t, m₂⟩, htake, h⟩ := bind_eq_ok h
      cases h
      have ho : arity o ≠ 1 := by
        unfold Machine.negatable? at hneg
        split at hneg <;> cases hneg <;> decide
      obtain ⟨hwaits, ht⟩ := hm.taken (lt_operatorTier o) hclose htake
      have hnot := hwaits.push (f := ⟨.op .not, token.span, []⟩) (.operator (.inl rfl) (by simp))
      exact (hnot.push (.behind ho ht _)).expecting _

/-- A call or an interval closes nothing and takes the newest expression. -/
theorem Machine.Received.wrapLast {tag : Tag} {more : List Tree} {span : Span}
    (hm : m.Received .expression) (htag : 38 < tier tag) (h : m.wrapLast tag more span = .ok m') :
    ∃ t, m.last? = some t ∧ Formed True .expression t ∧
      (Formed True .expression (.node tag (t :: more)) → m'.Received .expression) ∧
        m'.expects = m.expects := by
  cases hm with
  | @mk m t hm ht =>
    have hstop : ∀ f ∈ (m.append t).frames.head?, decide (tier tag ≤ tier f.tag) = false := by
      refine head?_frames_append (P := fun below => decide (tier tag ≤ tier below) = false) ?_ t
      intro f hf
      obtain ⟨below, hbelow⟩ := List.head?_eq_some_iff.1 hf
      have hframes := hm.frames
      rw [hbelow] at hframes
      cases hframes with
      | inside hslot _ =>
        have htier := hslot.tier_of_expression
        rw [decide_eq_false_iff_not]
        omega
    have hclose : (m.append t).closeTier (tier tag) span = .ok (m.append t) := by
      rw [Machine.closeTier, closeWhile?_of_stop hstop]
      rfl
    rw [Machine.wrapLast, hclose] at h
    simp only [bind, Except.bind, takeLast?_append, orNear] at h
    cases h
    refine ⟨t, last?_append m t, ht, fun hformed => .mk hm hformed, ?_⟩
    rw [expects_append, expects_append]

/-- A point and the method after it. -/
theorem Machine.Received.method (hm : m.Received .expression) (hexpects : m.expects = .afterOperand)
    (htoken : ∀ name, token.kind ≠ .name name) (hrest : ∀ next ∈ rest, IsProper next.kind)
    (h : m.method token (following token rest) = .ok (m', used)) : m'.Built := by
  unfold Machine.method at h
  split at h
  · next name hname =>
    obtain ⟨m₁, hwrap, h⟩ := bind_eq_ok h
    cases h
    obtain ⟨t, -, ht, hreceived, hexpects'⟩ := hm.wrapLast (by decide) hwrap
    have hproper : IsName name := by
      cases rest with
      | nil => exact absurd hname (htoken name)
      | cons next rest =>
        have hnext := hrest next List.mem_cons_self
        rw [show next.kind = .name name from hname] at hnext
        exact hnext
    rw [Machine.Built, hexpects', hexpects]
    exact hreceived (.call ht hproper)
  · cases h

/-- A unit after a number. -/
theorem Machine.Received.interval {word : String} (hm : m.Received .expression)
    (hexpects : m.expects = .afterOperand) (h : m.interval word token = .ok (m', used)) :
    m'.Built := by
  unfold Machine.interval at h
  split at h
  · next unit hunit =>
    split at h
    · next hnumber =>
      obtain ⟨m₁, hwrap, h⟩ := bind_eq_ok h
      cases h
      obtain ⟨t, hlast, ht, hreceived, hexpects'⟩ := hm.wrapLast (by decide) hwrap
      have htags : t.tag? = some .integer ∨ t.tag? = some .real := by
        simpa [Machine.lastIsNumber, hlast] using hnumber
      have hnumber : IsNumber t := by
        cases ht with
        | number h => exact h
        | field h =>
          cases h
          rcases htags with htag | htag <;> cases htag
        | _ => rcases htags with htag | htag <;> cases htag
      rw [Machine.Built, hexpects', hexpects]
      exact hreceived (.interval hnumber (List.mem_of_find?_eq_some hunit))
    · cases h
  · cases h

/-- A comma behind an operand of a parenthesis. -/
theorem Machine.Received.comma (hm : m.Received .expression) (h : m.comma token = .ok (m', used)) :
    m'.Built := by
  unfold Machine.comma at h
  split at h
  · next hinside =>
    obtain ⟨m₁, hclose, h⟩ := bind_eq_ok h
    cases h
    have hwhile := ok_of_orNear hclose
    obtain ⟨r', u, m₀, hstopped, -, -⟩ := (hm.ends 0).closeWhile (P := fun _ => True)
      (fun tag htag => by rw [bne_iff_ne]; rintro rfl; exact absurd htag (by decide))
      (fun _ _ _ => trivial) trivial hwhile
    obtain ⟨⟨hframes, hroot⟩, hu, rfl, hstop⟩ := hstopped
    obtain ⟨expects, frames, root⟩ := m₀
    obtain rfl : root = [] := hroot
    cases hframes with
    | outside =>
      -- the parenthesis would have been closed
      obtain ⟨⟨kept, left⟩, hkept, heq⟩ := Option.map_eq_some_iff.1 hwhile
      obtain rfl : kept = [] := congrArg Machine.frames heq
      obtain ⟨f, hfind, htag⟩ := (Option.any_eq_true _ _).1 hinside
      have hclosed := forall_of_closeFrames hkept f (List.mem_of_find?_eq_some hfind)
      simp only [beq_iff_eq] at htag
      simp [htag] at hclosed
    | @inside f _ _ below hf hbelow =>
      have htag : f.tag = .par := by simpa using hstop f rfl
      cases hf with
      | parenthesis hts =>
        exact Machine.Waits.mk (.inside (.parenthesis (List.forall_mem_cons.2 ⟨hu, hts⟩)) hbelow) rfl
      | link hlink _ => rcases isLink_iff.1 hlink with rfl | rfl | rfl <;> cases htag
      | onward hlink _ => rcases isLink_iff.1 hlink with rfl | rfl | rfl <;> cases htag
      | _ => cases htag
  · cases h

/-- What the `and` of a `between` leaves open is that `between`, with its value and its first bound. -/
theorem between_of_closeFrames {above : Bool} {new root root' : List Tree} {frames kept : List Frame}
    (hwaits : Machine.waitsForAnd above frames = true) (hnew : new.length = if above then 1 else 0)
    (h : Machine.closeFrames (fun tag => tag != .op .between) new frames root = some (kept, root')) :
    ∃ f below, kept = f :: below ∧ f.tag = .op .between ∧ f.done.length = 2 := by
  induction frames generalizing above new with
  | nil => cases hwaits
  | cons f frames ih =>
    rw [Machine.closeFrames] at h
    rw [Machine.waitsForAnd] at hwaits
    split at h
    · next hp =>
      rw [if_neg (by simpa using hp)] at hwaits
      split at hwaits
      · cases hwaits
      · split at h
        · exact ih hwaits rfl h
        · cases h
    · next hp =>
      cases h
      have htag : f.tag = .op .between := by simpa using hp
      rw [if_pos htag, beq_iff_eq] at hwaits
      refine ⟨_, _, rfl, htag, ?_⟩
      rw [List.length_append, hnew, Nat.add_comm]
      exact hwaits

/-- The `and` of a `between`, behind its first bound. -/
theorem Machine.Received.betweenAnd (hm : m.Received .expression) (hwaits : m.pendingBetween = true)
    (h : m.betweenAnd token = .ok (m', used)) : m'.Built := by
  obtain ⟨m₁, hclose, h⟩ := bind_eq_ok h
  cases h
  have hwhile := ok_of_orNear hclose
  obtain ⟨r', u, m₀, hstopped, -, -⟩ := (hm.ends 60).closeWhile (P := fun _ => True)
    (fun tag htag => by rw [bne_iff_ne]; rintro rfl; exact absurd htag (by decide))
    (fun _ _ _ => trivial) trivial hwhile
  obtain ⟨⟨kept, left⟩, hkept, heq⟩ := Option.map_eq_some_iff.1 hwhile
  obtain ⟨g, below', rfl, htag, hlength⟩ := between_of_closeFrames hwaits rfl hkept
  obtain ⟨⟨hframes, hroot⟩, hu, rfl, -⟩ := hstopped
  obtain ⟨expects, frames, root⟩ := m₀
  obtain rfl : root = [] := hroot
  have hlist : g :: below' = (Machine.append u ⟨expects, frames, []⟩).frames :=
    congrArg Machine.frames heq
  cases hframes with
  | outside => cases hlist
  | inside hf hbelow =>
    cases hlist
    cases hf with
    | @operator o span ts _ hts =>
      obtain rfl : o = .between := Tag.op.inj htag
      refine Machine.Waits.mk (.inside (.operator (.inl ?_) (List.forall_mem_cons.2 ⟨hu, hts⟩)) hbelow) rfl
      exact congrArg (· + 1) hlength
    | link hlink _ => rcases isLink_iff.1 hlink with rfl | rfl | rfl <;> cases htag
    | onward hlink _ => rcases isLink_iff.1 hlink with rfl | rfl | rfl <;> cases htag
    | _ => cases htag

/-- **A `from` behind an expression.** It closes conditions and takes the clause in front of them, but
does not close a `having`, whose expression it takes instead. -/
theorem Machine.Received.from_ (hm : m.Received .expression) (hinside : m.insideExpression = false)
    (h : m.openOver .from_ .relation token.span >>= one = .ok (m', used)) : m'.Built := by
  obtain ⟨m₁, hopen, h⟩ := bind_eq_ok h
  cases h
  obtain ⟨r', u, m₀, m₂, hstopped, hclose, -, rfl⟩ := (hm.ends 11).openOver (P := fun _ => True)
    (Int.le_refl _) (fun _ _ _ => trivial) trivial hopen
  have hwaits := hstopped.waits
  have hu := hstopped.formed
  cases r' with
  | clause => exact (hwaits.push (.link rfl hu)).expecting _
  | hybrid => exact (hwaits.push (.onward rfl hu)).expecting _
  | expression =>
    have hhybrid : m₀.Waits .hybrid := by
      refine ⟨hwaits.frames.hybrid ?_ ?_, hwaits.root⟩
      · exact fun f hf => Int.not_le.1 (of_decide_eq_false (hstopped.stop f hf))
      · intro f hf htag
        have hparens (tag : Tag) (htag : tag.isParen = true) :
            decide (tier .from_ ≤ tier tag) = false := by
          rcases (by simpa [Tag.isParen] using htag : tag = .par ∨ tag = .clausePar) with rfl | rfl <;> rfl
        have hpar := hstopped.insideExpression (ok_of_orNear hclose) hparens ⟨f, hf, htag⟩
        rw [hinside] at hpar
        cases hpar
    exact (hhybrid.push (.stolen hu)).expecting _

/-- What may follow an operand. -/
theorem Machine.Received.afterOperand (hm : m.Received .expression)
    (hexpects : m.expects = .afterOperand) (hrest : ∀ next ∈ rest, IsProper next.kind)
    (h : m.afterOperand token rest = .ok (m', used)) : m'.Built := by
  have hinfix : m.infixOrClause token rest = .ok (m', used) → m'.Built := by
    intro h
    unfold Machine.infixOrClause at h
    split at h
    · next o ho =>
      refine hm.operator ?_ h
      unfold infixOperator? at ho
      split at ho <;> cases ho <;> decide
    · exact (hm.ends 2).clause h
  unfold Machine.afterOperand at h
  split at h
  · split at h
    · next hwaits => exact hm.betweenAnd hwaits h
    · exact hinfix h
  · exact hm.negated h
  · exact hm.operator (by decide) h
  · exact hm.operator (by decide) h
  · split at h
    · exact hm.operator (by decide) h
    · cases h
  · split at h
    · cases h
    · next hinside => exact hm.from_ (eq_false_of_ne_true hinside) h
  · next hkind => exact hm.method hexpects (fun name => by simp [hkind]) hrest h
  · exact hm.comma h
  · exact hm.interval hexpects h
  · exact hinfix h

/-! ## Entries of clauses -/

/-- An entry of a clause. -/
theorem Machine.Listing.entry {next : Expect} (hm : m.Listing P)
    (hP : ∀ tag entries, P tag entries → Q tag (t :: entries)) :
    ((m.append t).expecting next).Listing Q :=
  (hm.append hP).expecting next

/-- The number of a limit or an offset. -/
theorem Machine.Listing.value {next : Expect} (hm : m.Listing P) (htoken : IsProper token.kind)
    (hP : ∀ t tag entries, IsCount t → P tag entries → Q tag (t :: entries))
    (h : m.clauseValue next token = .ok (m', used)) : m'.Listing Q ∧ m'.expects = next := by
  unfold Machine.clauseValue at h
  split at h
  · next digits hkind =>
    cases h
    rw [hkind] at htoken
    exact ⟨hm.entry fun tag entries => hP _ tag entries (.mk htoken), rfl⟩
  · cases h

/-- The name in a clause. -/
theorem Machine.Listing.name {next : Expect} {leaf : Tag} (hm : m.Listing P)
    (htoken : IsProper token.kind)
    (hP : ∀ name tag entries, IsName name → P tag entries → Q tag (.leaf leaf name :: entries))
    (h : m.clauseName leaf next token = .ok (m', used)) : m'.Listing Q ∧ m'.expects = next := by
  unfold Machine.clauseName at h
  split at h
  · next name hkind =>
    cases h
    rw [hkind] at htoken
    exact ⟨hm.entry fun tag entries => hP _ tag entries htoken, rfl⟩
  · cases h

/-- A direction behind a field. -/
theorem Machine.Listing.direction {span : Span} (hm : m.Listing OrderingsField)
    (htag : ∀ t, IsField t → IsOrdering (.node tag [t])) (htier : tier tag = 10)
    (h : m.wrapLast tag [] span = .ok m') :
    m'.Listing fun tag entries => Orderings tag entries ∧ entries ≠ [] := by
  cases hm with
  | @mk m below opened entries t hm ht h' =>
    obtain ⟨⟨rfl, hitems⟩, u, more, rfl, hu⟩ := h'
    rw [List.forall_mem_cons] at hitems
    have hwrap : (m.push ⟨.order, opened, u :: more ++ [t]⟩).wrapLast tag [] span =
        .ok (m.push ⟨.order, opened, .node tag [u] :: more ++ [t]⟩) :=
      @wrapLast_direction ⟨.order, opened, []⟩ m.frames m.root u tag m.expects (more ++ [t]) span htier rfl
    rw [hwrap] at h
    cases h
    exact .mk hm ht ⟨⟨rfl, List.forall_mem_cons.2 ⟨htag u hu, hitems.2⟩⟩, by simp⟩

/-- A list that makes a clause may be followed by another clause. -/
theorem Machine.Built.clause (hm : m.Built) (hend : m.expects.acceptsEnd = true)
    (h : m.clause token rest = .ok (m', used)) : m'.Built := by
  obtain ⟨r, hends⟩ := hm.ends hend
  exact hends.clause h

/-- A limit with one number admits another one. -/
theorem Machine.Listing.oneMore (hm : m.Listing (Counts 1 2)) (hfirst : m.hasFirstLimit = true) :
    m.Listing (Counts 0 1) := by
  cases hm with
  | mk hm ht h =>
    obtain ⟨rfl, -, -, hcounts⟩ := h
    have hlength := hfirst
    simp only [Machine.hasFirstLimit, Machine.push, List.head?_cons, Option.any_some,
      Bool.and_eq_true, beq_iff_eq, List.length_append, List.length_singleton] at hlength
    exact .mk hm ht ⟨rfl, by omega, by omega, hcounts⟩

/-! ## Steps and runs -/

/-- What may follow the numbers of a limit. -/
theorem Machine.Listing.afterLimit (hm : m.Listing (Counts 1 2)) (hexpects : m.expects = .afterLimit)
    (h : m.separatorOrClause m.hasFirstLimit .limitValue token rest = .ok (m', used)) : m'.Built := by
  unfold Machine.separatorOrClause at h
  split at h
  · next hfirst =>
    cases h
    exact (hm.oneMore hfirst.2).expecting .limitValue
  · refine Machine.Built.clause ?_ (by rw [hexpects]; rfl) h
    rw [Machine.Built, hexpects]
    exact hm

/-- What may follow a field of an order. -/
theorem Machine.Listing.afterOrderItem (hm : m.Listing OrderingsField)
    (hexpects : m.expects = .afterOrderItem) (h : m.afterOrderItem token rest = .ok (m', used)) :
    m'.Built := by
  unfold Machine.afterOrderItem at h
  split at h
  · obtain ⟨m₁, hwrap, h⟩ := bind_eq_ok h
    cases h
    exact (hm.direction (fun _ => .asc) rfl hwrap).expecting .orderSeparator
  · obtain ⟨m₁, hwrap, h⟩ := bind_eq_ok h
    cases h
    exact (hm.direction (fun _ => .desc) rfl hwrap).expecting .orderSeparator
  · cases h
    exact (hm.imp fun _ _ h => h.1).expecting .orderItem
  · refine Machine.Built.clause ?_ (by rw [hexpects]; rfl) h
    rw [Machine.Built, hexpects]
    exact hm

/-- A comma behind a field, or a clause behind the list. -/
theorem Machine.Built.separatorOrClause {next : Expect} (hm : m.Built)
    (hend : m.expects.acceptsEnd = true) (hnext : (m.expecting next).Built)
    (h : m.separatorOrClause true next token rest = .ok (m', used)) : m'.Built := by
  unfold Machine.separatorOrClause at h
  split at h
  · cases h
    exact hnext
  · exact hm.clause hend h

/-- **A step keeps what the machine has built.** -/
theorem Machine.Built.step (hm : m.Built) (htoken : IsProper token.kind)
    (hrest : ∀ next ∈ rest, IsProper next.kind) (h : m.step token rest = .ok (m', used)) : m'.Built := by
  have hbuilt := hm
  unfold Machine.Built at hm
  unfold Machine.step at h
  cases hexpects : m.expects with
  | relation =>
    rw [hexpects] at h hm
    exact hm.relation hexpects htoken h
  | afterRelation =>
    rw [hexpects] at h hm
    exact hm.afterRelation hrest h
  | operand =>
    rw [hexpects] at h hm
    exact hm.operand hexpects htoken hrest h
  | afterOperand =>
    rw [hexpects] at h hm
    exact hm.afterOperand hexpects hrest h
  | limitValue =>
    rw [hexpects] at h hm
    obtain ⟨hlist, hnext⟩ := hm.value (Q := Counts 1 2) htoken
      (fun t tag entries ht ⟨htag, hleast, hmost, hcounts⟩ =>
        ⟨htag, Nat.succ_le_succ hleast, Nat.succ_le_succ hmost, List.forall_mem_cons.2 ⟨ht, hcounts⟩⟩) h
    rw [Machine.Built, hnext]
    exact hlist
  | afterLimit =>
    rw [hexpects] at h hm
    exact hm.afterLimit hexpects h
  | offsetValue =>
    rw [hexpects] at h hm
    obtain ⟨hlist, hnext⟩ := hm.value (Q := Finished) htoken
      (fun t tag entries ht ⟨htag, hentries⟩ => .inl ⟨htag, t, by rw [hentries], ht⟩) h
    rw [Machine.Built, hnext]
    exact hlist
  | pageName =>
    rw [hexpects] at h hm
    obtain ⟨hlist, hnext⟩ := hm.name (Q := Finished) htoken
      (fun name tag entries hname ⟨htag, hentries⟩ => .inr ⟨htag, name, by rw [hentries], hname⟩) h
    rw [Machine.Built, hnext]
    exact hlist
  | orderItem =>
    rw [hexpects] at h hm
    obtain ⟨hlist, hnext⟩ := hm.name (Q := OrderingsField) htoken
      (fun name tag entries hname ⟨htag, hitems⟩ =>
        ⟨⟨htag, List.forall_mem_cons.2 ⟨.field (.mk hname), hitems⟩⟩, _, _, rfl, .mk hname⟩) h
    rw [Machine.Built, hnext]
    exact hlist
  | afterOrderItem =>
    rw [hexpects] at h hm
    exact hm.afterOrderItem hexpects h
  | orderSeparator =>
    rw [hexpects] at h hm
    have hnext : (m.expecting .orderItem).Built := (hm.imp fun _ _ h => h.1).expecting _
    exact hbuilt.separatorOrClause (by rw [hexpects]; rfl) hnext h
  | groupItem =>
    rw [hexpects] at h hm
    obtain ⟨hlist, hnext⟩ := hm.name (Q := fun tag entries => Fields tag entries ∧ entries ≠ []) htoken
      (fun name tag entries hname ⟨htag, hitems⟩ =>
        ⟨⟨htag, List.forall_mem_cons.2 ⟨.mk hname, hitems⟩⟩, by simp⟩) h
    rw [Machine.Built, hnext]
    exact hlist
  | afterGroupItem =>
    rw [hexpects] at h hm
    have hnext : (m.expecting .groupItem).Built := (hm.imp fun _ _ h => h.1).expecting _
    exact hbuilt.separatorOrClause (by rw [hexpects]; rfl) hnext h
  | clauseEnd =>
    rw [hexpects] at h hm
    exact hbuilt.clause (by rw [hexpects]; rfl) h

/-- Where every tag is closed, what was read last is the whole clause. -/
theorem Machine.Ends.closeAll (hm : m.Ends r 2) (h : m.closeWhile? (fun _ => true) = some m') :
    ∃ t, m' = ⟨m.expects, [], [t]⟩ ∧ Formed True .clause t := by
  obtain ⟨r', t, m₀, ⟨⟨hframes, hroot⟩, ht, rfl, hstop⟩, hexpects, -⟩ := hm.closeWhile
    (P := fun _ => True) (fun _ _ => rfl) (fun _ _ _ => trivial) trivial h
  obtain ⟨expects, frames, root⟩ := m₀
  obtain rfl : root = [] := hroot
  obtain rfl : expects = m.expects := hexpects
  cases hframes with
  | outside => exact ⟨t, rfl, ht⟩
  | inside hf hbelow => exact absurd (hstop _ rfl) (by simp)

/-- The end of the source. -/
theorem Machine.Built.finish {last : Token} {tree : Tree} (hm : m.Built) (h : m.finish last = .ok tree) :
    FormedSource True tree := by
  unfold Machine.finish at h
  split at h
  · next hend =>
    split at h
    · cases h
    · obtain ⟨m₁, hclose, h⟩ := bind_eq_ok h
      cases h
      rcases Bool.or_eq_true_iff.1 hend with hend | hempty
      · obtain ⟨r, hends⟩ := hm.ends hend
        obtain ⟨t, rfl, ht⟩ := hends.closeAll (ok_of_orNear hclose)
        exact .clause ht
      · -- nothing was read
        obtain ⟨expects, frames, root⟩ := m
        simp only [Bool.and_eq_true, List.isEmpty_iff] at hempty
        obtain ⟨⟨-, rfl⟩, rfl⟩ := hempty
        cases hclose
        exact .empty
  · cases h

/-- **A run keeps what the machine has built, to the tree of the source.** -/
theorem Machine.Built.run {tokens : List Token} {tree : Tree} (hm : m.Built)
    (htokens : ∀ token ∈ tokens, IsProper token.kind) (h : runTokens m tokens = .ok tree) :
    FormedSource True tree := by
  fun_induction runTokens m tokens with
  | case1 => cases h
  | case2 => cases h
  | case3 m token rest hfinish => exact hm.finish h
  | case4 => cases h
  | case5 m token rest next hstep _ _ ih =>
    rw [List.forall_mem_cons] at htokens
    exact ih (hm.step htokens.1 htokens.2 hstep) htokens.2 h
  | case6 m token next _ _ hstep ih =>
    rw [List.forall_mem_cons] at htokens
    exact ih (hm.step htokens.1 htokens.2 hstep) htokens.2 h
  | case7 m token next following rest _ _ hstep ih =>
    rw [List.forall_mem_cons] at htokens
    exact ih (hm.step htokens.1 htokens.2 hstep) (List.forall_mem_cons.1 htokens.2).2 h

/-- **Every source that is parsed has a well-formed tree**, but for chains that have taken the expression
of a `having`. -/
theorem formed_of_parse {source : String} {tree : Tree} (h : parse source = .ok tree) :
    FormedSource True tree := by
  unfold parse at h
  split at h
  · next hparse =>
    cases h
    exact built_start.run (fun _ => isProper_of_mem_lex) hparse
  · cases h

end RelationSql.Grammar
