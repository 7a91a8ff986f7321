import RelationSql.Proofs.Walk.Ends

/-!
# What expressions weigh

A well-formed expression is rendered as a text that weighs what its tree says, in front of which a minus
stands just if the tree says so (`speaks_of_formed`). The weight of a node is put together from the weights
of its operands; an operator that is negated in its place renders the operands of its operand itself, so
the induction carries the operands of operators along (`Gauge.Voiced`).
-/

namespace RelationSql

open Grammar WalkM RelationSql.Part RelationSql.Fragment

/-- An operator has as many operands as it takes, all of them expressions. -/
theorem Grammar.Formed.operands {swallows : Prop} {o : Operator} {ts : List Tree}
    (h : Formed swallows .expression (.node (.op o) ts)) :
    ts.length = arity o ∧ ∀ t ∈ ts, Formed swallows .expression t := by
  cases h with
  | field h => cases h
  | number h => cases h
  | operator hcount h => exact ⟨hcount, h⟩

/-! ## Weights of nodes -/

namespace Scale

variable {W : Type} [AddCommMonoid W] {scale : Scale W}

@[simp] theorem weighAll_nil : scale.weighAll [] = 0 := by
  rw [weighAll]

@[simp] theorem weighAll_cons (t : Tree) (ts : List Tree) :
    scale.weighAll (t :: ts) = scale.weigh t + scale.weighAll ts := by
  rw [weighAll]

theorem weighAll_eq_sum (ts : List Tree) : scale.weighAll ts = (ts.map scale.weigh).sum := by
  induction ts with
  | nil => simp
  | cons t ts ih => simp [ih]

@[simp] theorem weigh_atom (text : String) : scale.weigh (.atom text) = 0 := by
  rw [weigh]

theorem weigh_link {tag : Tag} (h : isLink tag = true) (ts : List Tree) : scale.weigh (.node tag ts) = 0 := by
  rcases isLink_iff.1 h with rfl | rfl | rfl <;> simp [weigh, isLink]

theorem weigh_operator {o : Operator} (h : o ≠ .changeSign) (ts : List Tree) :
    scale.weigh (.node (.op o) ts) = scale.weighAll ts := by
  rw [weigh]
  · rfl
  · rintro _ ⟨⟩
  · exact fun _ heq _ => h (Tag.op.inj heq)

theorem weigh_two {o : Operator} (h : o ≠ .changeSign) (t u : Tree) :
    scale.weigh (.node (.op o) [t, u]) = scale.weigh t + scale.weigh u := by
  rw [weigh_operator h, weighAll_cons, weighAll_cons, weighAll_nil, add_zero]

theorem weigh_three {o : Operator} (h : o ≠ .changeSign) (t u v : Tree) :
    scale.weigh (.node (.op o) [t, u, v]) = scale.weigh t + (scale.weigh u + scale.weigh v) := by
  rw [weigh_operator h, weighAll_cons, weighAll_cons, weighAll_cons, weighAll_nil, add_zero]

theorem weigh_changeSign (t : Tree) :
    scale.weigh (.node (.op .changeSign) [t]) = scale.weigh t + if t.leads then scale.clash else 0 := by
  rw [weigh]

theorem weigh_par (ts : List Tree) : scale.weigh (.node .par ts) = scale.weighAll ts := by
  simp [weigh, isLink]

end Scale

namespace Gauge

open Scale

variable {W : Type} [AddCommMonoid W] {g : Gauge W}

/-! ## Steps of an expression -/

variable (host : Host) (atEnd : WalkM Unit)

/-- The expression is rendered as a text that weighs what its tree says. -/
def Speaking (g : Gauge W) (t : Tree) : Prop :=
  ∀ l, g.Runs l l (renderWith host atEnd t) (g.Speaks (g.weigh t) t.leads)

/-- The expression weighs what its tree says, and so do the operands of an operator. -/
structure Voiced (g : Gauge W) (t : Tree) : Prop where
  speaks : g.Speaking host atEnd t
  operands : ∀ o ts, t = .node (.op o) ts → ∀ u ∈ ts, g.Speaking host atEnd u

variable {host atEnd} {t u v : Tree} {l : Ledger W} (hg : g.Lawful) (h : host.Weighed g)

theorem Voiced.of_other (hspeaks : g.Speaking host atEnd t)
    (hother : ∀ o ts, t ≠ .node (.op o) ts) : g.Voiced host atEnd t :=
  ⟨hspeaks, fun o ts heq => absurd heq (hother o ts)⟩

/-- The texts of expressions, rendered one after the other. -/
theorem runs_renderAll {ts : List Tree} (hts : ∀ t ∈ ts, g.Speaking host atEnd t) :
    g.Runs l l (renderAll (ofTrees (renderNode host atEnd) ts))
      (List.Forall₂ g.weighs (ts.map g.weigh)) := by
  induction ts with
  | nil => exact .pure .nil
  | cons t ts ih =>
    rw [List.forall_mem_cons] at hts
    refine (hts.1 l).bind fun text htext => ?_
    exact (ih hts.2).bind fun texts htexts => .pure (.cons htext.weighs htexts)

include hg

/-- Two operands with an operator between them. -/
theorem runs_infix {operator : String} (hoperator : g.weighs 0 (" " ++ operator ++ " "))
    (ht : g.Speaking host atEnd t) (hu : g.Speaking host atEnd u) :
    g.Runs l l (do
      let left ← renderWith host atEnd t
      let right ← renderWith host atEnd u
      return Expression.infixText left operator right) (g.Speaks (g.weigh t + g.weigh u) t.leads) := by
  refine (ht l).bind fun left hleft => (hu l).bind fun right hright => .pure ?_
  exact hg.speaks_infix hoperator hleft hright.weighs

/-- A value between two bounds. -/
theorem runs_bounds {word : String} (hword : Lacks reserved word) (ht : g.Speaking host atEnd t)
    (hu : g.Speaking host atEnd u) (hv : g.Speaking host atEnd v) :
    g.Runs l l (do
      let value ← renderWith host atEnd t
      let low ← renderWith host atEnd u
      let high ← renderWith host atEnd v
      return value ++ word ++ low ++ " AND " ++ high)
      (g.Speaks (g.weigh t + (g.weigh u + g.weigh v)) t.leads) := by
  refine (ht l).bind fun value hvalue => (hu l).bind fun low hlow => (hv l).bind fun high hhigh => ?_
  have hbounds := hg.append _ _ _ _ (hg.append_light (hg.light_append (hg.word hword) hlow.weighs)
    (hg.word (show Lacks reserved " AND " by decide))) hhigh.weighs
  have hsplit : value ++ word ++ low ++ " AND " ++ high = value ++ (word ++ low ++ " AND " ++ high) := by
    simp only [String.append_assoc]
  rw [hsplit]
  exact .pure (hg.speaks_append hvalue hbounds)

/-- A negation in front of its operand. -/
theorem runs_not (ht : g.Speaking host atEnd t) :
    g.Runs l l (do return "NOT " ++ (← renderWith host atEnd t)) (g.Speaks (g.weigh t) false) := by
  refine (ht l).bind fun text htext => .pure ?_
  exact hg.speaks_behind (hg.isClass.word (by decide)) (by decide) htext.weighs

/-- Expressions between parentheses. -/
theorem runs_parenthesised {ts : List Tree} (hts : ∀ t ∈ ts, g.Speaking host atEnd t) :
    g.Runs l l (Expression.parenthesised (ofTrees (renderNode host atEnd) ts))
      (g.Speaks (g.weighAll ts) false) := by
  refine (runs_renderAll hts).bind fun texts htexts => .pure ?_
  have hjoined := hg.append_light (hg.joinWith (hg.word (show Lacks reserved "," by decide)) htexts)
    (hg.word (show Lacks reserved ")" by decide))
  rw [weighAll_eq_sum]
  have hsplit (text : String) : "(" ++ text ++ ")" = "(" ++ (text ++ ")") := by
    rw [String.append_assoc]
  rw [hsplit]
  exact hg.speaks_behind (hg.isClass.word (by decide)) (by decide) hjoined

/-! ## Operators -/

omit hg in
/-- What is not negated in its place is negated in front. -/
theorem negation_of_not_placed {tag : Tag} (hplaced : Tree.leads.isPlaced t = false) :
    Expression.negation tag [ofTree (renderNode host atEnd) t] =
      (do return "NOT " ++ (← renderWith host atEnd t)) := by
  cases t with
  | atom text => rfl
  | node tag' ts =>
    cases tag' with
    | op o' =>
      have hnot : o'.isPlaced = false := hplaced
      rcases ts with _ | ⟨a, _ | ⟨b, _ | ⟨c, _ | _⟩⟩⟩ <;> cases o' <;>
        first | rfl | exact absurd hnot (by decide)
    | _ => rfl

/-- A negation. What is negated in its place starts with the first operand of its operand. -/
theorem speaking_negation {o : Operator} (ho : o = .not ∨ o = .bang)
    (hformed : Formed g.swallows .expression t) (ht : g.Voiced host atEnd t) :
    g.Speaking host atEnd (.node (.op o) [t]) := by
  intro l
  have hne : o ≠ .changeSign := by
    rcases ho with rfl | rfl <;> decide
  have hsteps : renderWith host atEnd (.node (.op o) [t]) =
      Expression.negation (.op o) [ofTree (renderNode host atEnd) t] := by
    rcases ho with rfl | rfl <;> rfl
  have hleads : (Tree.node (.op o) [t]).leads = (Tree.leads.isPlaced t && t.leads) := by
    rcases ho with rfl | rfl <;> rw [Tree.leads]
  rw [hsteps, hleads, weigh_operator hne, weighAll_cons, weighAll_nil, add_zero]
  by_cases hplaced : Tree.leads.isPlaced t = true
  · rw [hplaced, Bool.true_and]
    obtain ⟨tag, ts, rfl, -⟩ := hformed.tag?_of_expression
    cases tag with
    | op o' =>
      obtain ⟨hcount, -⟩ := hformed.operands
      have hoperands := ht.operands o' ts rfl
      have hin (hin : o' = .like ∨ o' = .regexp ∨ o' = .in_) : g.Runs l l
          (Expression.negation (.op o) [ofTree (renderNode host atEnd) (.node (.op o') ts)])
          (g.Speaks (g.weigh (.node (.op o') ts)) (Tree.node (.op o') ts).leads) := by
        obtain ⟨a, b, rfl⟩ := List.length_eq_two.1 (hcount.trans (by rcases hin with rfl | rfl | rfl <;> rfl))
        simp only [List.forall_mem_cons] at hoperands
        have hword : Lacks reserved (" " ++ ("NOT " ++ o'.sql) ++ " ") := by
          rcases hin with rfl | rfl | rfl <;> decide
        have hinfix := runs_infix hg (hg.word hword) hoperands.1 hoperands.2.1 (l := l)
        rcases hin with rfl | rfl | rfl <;>
          · rw [weigh_two (by decide)]
            exact hinfix
      have hplaced : o'.isPlaced = true := hplaced
      cases o' with
      | between =>
        obtain ⟨a, b, c, rfl⟩ := List.length_eq_three.1 hcount
        simp only [List.forall_mem_cons] at hoperands
        rw [weigh_three (by decide)]
        exact runs_bounds hg (by decide) hoperands.1 hoperands.2.1 hoperands.2.2.1
      | like => exact hin (.inl rfl)
      | regexp => exact hin (.inr (.inl rfl))
      | in_ => exact hin (.inr (.inr rfl))
      | _ => exact absurd hplaced (by decide)
    | _ => cases hplaced
  · rw [Bool.not_eq_true] at hplaced
    rw [negation_of_not_placed hplaced, hplaced, Bool.false_and]
    exact runs_not hg ht.speaks

/-- An alternative, in parentheses of its own. -/
theorem speaking_or (ht : g.Speaking host atEnd t) (hu : g.Speaking host atEnd u) :
    g.Speaking host atEnd (.node (.op .or) [t, u]) := by
  intro l
  refine (ht l).bind fun left hleft => (hu l).bind fun right hright => .pure ?_
  have hor : g.weighs 0 " OR " := hg.word (by decide)
  have hboth := hg.append _ _ _ _ (hg.append_light hleft.weighs hor) hright.weighs
  have hclosed := hg.append_light hboth (hg.word (show Lacks reserved ")" by decide))
  have hsplit : "(" ++ left ++ " OR " ++ right ++ ")" = "(" ++ (left ++ " OR " ++ right ++ ")") := by
    simp only [String.append_assoc]
  rw [hsplit, weigh_two (by decide)]
  exact hg.speaks_behind (hg.isClass.word (by decide)) (by decide) hclosed

theorem speaking_changeSign (ht : g.Speaking host atEnd t) :
    g.Speaking host atEnd (.node (.op .changeSign) [t]) := by
  intro l
  rw [weigh_changeSign]
  exact (ht l).bind fun text htext => .pure (hg.speaks_minus htext)

theorem speaking_between (ht : g.Speaking host atEnd t) (hu : g.Speaking host atEnd u)
    (hv : g.Speaking host atEnd v) : g.Speaking host atEnd (.node (.op .between) [t, u, v]) := by
  intro l
  rw [weigh_three (by decide)]
  exact runs_bounds hg (by decide) ht hu hv

include h in
/-- An equality is told by the domain, or rendered like any other operator. -/
theorem speaking_equal (hformed : Formed g.swallows .expression t)
    (hformed' : Formed g.swallows .expression u)
    (ht : g.Speaking host atEnd t) (hu : g.Speaking host atEnd u) :
    g.Speaking host atEnd (.node (.op .equal) [t, u]) := by
  intro l
  have hequal : g.Runs l l
      (host.equal (ofTree (renderNode host atEnd) t).tree (ofTree (renderNode host atEnd) u).tree)
      fun text => ∀ told ∈ text, g.Speaks (g.weigh t + g.weigh u) t.leads told := by
    rw [tree_ofTree, tree_ofTree]
    exact h.equal l t u hformed hformed'
  rw [weigh_two (by decide)]
  refine (hequal.bind fun text htext => ?_ : g.Runs l l (_ >>= _) _)
  cases text with
  | some text => exact .pure (htext text rfl)
  | none => exact runs_infix hg (hg.operator .equal) ht hu

/-- The operators between two operands that are rendered in one way. -/
theorem speaking_binary {o : Operator} (hcount : arity o = 2) (hor : o ≠ .or) (hequal : o ≠ .equal)
    (ht : g.Speaking host atEnd t) (hu : g.Speaking host atEnd u) :
    g.Speaking host atEnd (.node (.op o) [t, u]) := by
  intro l
  have hne : o ≠ .changeSign := by
    rintro rfl
    cases hcount
  have hinfix := runs_infix hg (hg.operator o) ht hu (l := l)
  rw [weigh_two hne]
  cases o <;> first | exact hinfix | exact absurd rfl hor | exact absurd rfl hequal | cases hcount

include h in
/-- **An operator weighs what its operands weigh.** The tilde is refused. -/
theorem speaking_operator {o : Operator} {ts : List Tree} (hcount : ts.length = arity o)
    (hformed : ∀ t ∈ ts, Formed g.swallows .expression t) (hts : ∀ t ∈ ts, g.Voiced host atEnd t) :
    g.Speaking host atEnd (.node (.op o) ts) := by
  rcases ts with _ | ⟨a, _ | ⟨b, _ | ⟨c, _ | _⟩⟩⟩
  · cases o <;> cases hcount
  · rw [List.forall_mem_singleton] at hformed hts
    cases o with
    | not => exact speaking_negation hg (.inl rfl) hformed hts
    | bang => exact speaking_negation hg (.inr rfl) hformed hts
    | changeSign => exact speaking_changeSign hg hts.speaks
    | invertBits => exact fun l => .throw hg (.inl rfl)
    | _ => cases hcount
  · rw [List.forall_mem_cons, List.forall_mem_singleton] at hformed hts
    by_cases hor : o = .or
    · subst hor
      exact speaking_or hg hts.1.speaks hts.2.speaks
    · by_cases hequal : o = .equal
      · subst hequal
        exact speaking_equal hg h hformed.1 hformed.2 hts.1.speaks hts.2.speaks
      · exact speaking_binary hg hcount.symm hor hequal hts.1.speaks hts.2.speaks
  · obtain rfl : o = .between := by
      cases o <;> first | rfl | cases hcount
    simp only [List.forall_mem_cons] at hts
    exact speaking_between hg hts.1.speaks hts.2.1.speaks hts.2.2.1.speaks
  · cases o <;> simp [arity] at hcount

/-! ## Other expressions -/

/-- Parentheses. An alternative brings its own. -/
theorem speaking_par {ts : List Tree} (hts : ∀ t ∈ ts, g.Speaking host atEnd t) :
    g.Speaking host atEnd (.node .par ts) := by
  intro l
  rw [weigh_par]
  have hlist := runs_parenthesised hg hts (l := l)
  rcases ts with _ | ⟨t, _ | ⟨u, ts⟩⟩
  · exact hlist
  · have ht := hts t (by simp) l
    have hsteps : renderWith host atEnd (.node .par [t]) =
        if Expression.isDisjunction (ofTree (renderNode host atEnd) t) then renderWith host atEnd t
        else Expression.parenthesised (ofTrees (renderNode host atEnd) [t]) := rfl
    rw [hsteps]
    split
    · next hor =>
      rw [Expression.isDisjunction, tree_ofTree, beq_iff_eq] at hor
      have hleads : t.leads = false := by
        obtain ⟨text⟩ | ⟨tag, us⟩ := t
        · cases hor
        · cases hor
          cases us <;> rfl
      rw [hleads] at ht
      simpa [Tree.leads] using ht
    · exact hlist
  · exact hlist

include h in
theorem speaking_call {name : String} (hname : IsName name) (ht : g.Speaking host atEnd t) :
    g.Speaking host atEnd (.node .function [t, .leaf .method name]) := by
  intro l
  refine (ht l).bind fun argument hargument => ?_
  have hmethod : g.Runs l l (renderChild .function
      (ofTrees (renderNode host atEnd) [t, .leaf .method name]) 1) fun method => method = name :=
    fun _ hw => ⟨rfl, hw⟩
  refine hmethod.bind fun method heq => ?_
  subst heq
  refine (h.function l _ _ argument method hargument hname).bind fun text htext => ?_
  cases text with
  | some text =>
    refine .pure ?_
    have hweigh : g.weigh (.node .function [t, .leaf .method method]) = g.weigh t := by
      simp [weigh, isLink, Tree.leaf]
    rw [hweigh]
    exact htext text rfl
  | none => exact .throw hg trivial

/-! ### Leaves -/

omit hg in
theorem weigh_leaf {tag : Tag} (htag : tag = .field ∨ tag = .integer ∨ tag = .real ∨ tag = .string)
    (text : String) : g.weigh (.leaf tag text) = 0 := by
  rcases htag with rfl | rfl | rfl | rfl <;> simp [weigh, isLink, Tree.leaf]

include h in
theorem speaking_field (ht : IsField t) : g.Speaking host atEnd t := by
  intro l
  obtain ⟨hname⟩ := ht
  rw [weigh_leaf (.inl rfl)]
  exact (h.resolveField hg (hg.isClass.word hname.lacks)).imp fun text htext =>
    hg.speaks_name htext.1 htext.2

/-- A number starts with a minus or is a name. -/
theorem speaks_number {number : String → Prop}
    (hnumber : ∀ text, number text → Lacks reserved text ∧ text ≠ "")
    {text : String} (htext : IsSigned number text) :
    g.Speaks 0 (text.toList.head? == some '-') text := by
  have hdigits {digits : String} (h : number digits) : g.Speaks 0 false digits :=
    hg.speaks_name (hg.isClass.word (hnumber digits h).1) fun _ => (hnumber digits h).2
  rcases htext with htext | ⟨digits, hnumber, rfl⟩
  · have hhead : (text.toList.head? == some '-') = false := by
      rw [beq_eq_false_iff_ne]
      exact fun hhead => (hnumber text htext).1 '-' (by decide) (List.mem_of_head? hhead)
    rw [hhead]
    exact hdigits htext
  · simpa using hg.speaks_minus (hdigits hnumber)

theorem speaking_number (ht : IsNumber t) : g.Speaking host atEnd t := by
  intro l
  cases ht with
  | @integer text htext =>
    rw [weigh_leaf (.inr (.inl rfl))]
    exact .pure (speaks_number hg (fun _ => IsInteger.lacks) htext)
  | @real text htext =>
    rw [weigh_leaf (.inr (.inr (.inl rfl)))]
    exact .pure (speaks_number hg (fun _ => IsReal.lacks) htext)

theorem speaking_interval {unit : String} (ht : IsNumber t) (hunit : unit ∈ intervalUnits) :
    g.Speaking host atEnd (.node .interval [t, .atom unit]) := by
  intro l
  have hunits : ∀ unit ∈ intervalUnits, Lacks reserved unit := by decide
  have hzero : g.weigh t = 0 := by
    cases ht
    · exact weigh_leaf (.inr (.inl rfl)) _
    · exact weigh_leaf (.inr (.inr (.inl rfl))) _
  have hweigh : g.weigh (.node .interval [t, .atom unit]) = 0 := by
    simp [weigh, isLink, hzero]
  refine (speaking_number hg ht l).bind fun value hvalue => .pure ?_
  rw [hzero] at hvalue
  have hblank : g.weighs 0 " " := hg.word (by decide)
  have hbehind := hg.append_light (hg.append_light hvalue.weighs hblank)
    (hg.name _ (hg.isClass.upper (hg.isClass.word (hunits unit hunit))))
  have hsplit : "INTERVAL " ++ value ++ " " ++ Text.upper unit =
      "INTERVAL " ++ (value ++ " " ++ Text.upper unit) := by
    simp only [String.append_assoc]
  show g.Speaks _ _ ("INTERVAL " ++ value ++ " " ++ Text.upper unit)
  rw [hweigh, hsplit]
  exact hg.speaks_behind (hg.isClass.word (by decide)) (by decide) hbehind

/-! ## Expressions -/

include h in
/-- The text of a well-formed expression, and the texts of the operands of an operator. -/
theorem voiced_of_formed {role : Role} (ht : Formed g.swallows role t) (hrole : role = .expression) :
    g.Voiced host atEnd t := by
  induction ht with
  | field ht =>
    refine .of_other (speaking_field hg h ht) fun o ts heq => ?_
    subst heq
    cases ht
  | number ht =>
    refine .of_other (speaking_number hg ht) fun o ts heq => ?_
    subst heq
    cases ht
  | string content =>
    refine .of_other (fun l => ?_) (by rintro o ts ⟨⟩)
    rw [weigh_leaf (.inr (.inr (.inr rfl)))]
    exact h.quoteLiteral hg content
  | template content =>
    refine .of_other (fun l => ?_) (by rintro o ts ⟨⟩)
    have hweigh : g.weigh (.leaf .dstring content) = g.template content := by
      rw [Tree.leaf, weigh]
    rw [hweigh]
    exact h.template hg content
  | null =>
    refine .of_other (fun l => .pure ?_) (by rintro o ts ⟨⟩)
    have hweigh : g.weigh (.node .null []) = 0 := by
      simp [weigh, isLink]
    rw [hweigh]
    exact hg.speaks_name (hg.isClass.word (by decide)) fun _ => by decide
  | parenthesis _ _ ih =>
    exact .of_other (speaking_par hg fun t ht => (ih t ht rfl).speaks) (by rintro o ts ⟨⟩)
  | operator hcount hformed ih =>
    refine ⟨speaking_operator hg h hcount hformed fun t ht => ih t ht rfl, ?_⟩
    rintro o ts ⟨⟩ u hu
    exact (ih u hu rfl).speaks
  | call _ hname ih => exact .of_other (speaking_call hg h hname (ih rfl).speaks) (by rintro o ts ⟨⟩)
  | interval ht hunit => exact .of_other (speaking_interval hg ht hunit) (by rintro o ts ⟨⟩)
  | _ => cases hrole

include h in
/-- **A well-formed expression is rendered as a text that weighs what its tree says**, and starts with a
minus just if the tree says so. -/
theorem speaking_of_formed (ht : Formed g.swallows .expression t) : g.Speaking host atEnd t :=
  (voiced_of_formed hg h ht rfl).speaks

end Gauge

end RelationSql
