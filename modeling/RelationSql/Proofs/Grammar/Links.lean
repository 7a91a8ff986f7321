import RelationSql.Grammar.Parse

/-!
# Chains of relations

A chain `first from … from last` is parsed into nested `from` nodes, the outermost relation deepest on
the left (`parse_links`). A scope behind `in` belongs to the relation right before it.
-/

namespace RelationSql.Grammar

open RelationSql.Source (Span Token TokenKind)

/-- A relation of a chain and the scope that is asked for behind it. -/
structure Link where
  relation : String
  scope : Option String
  deriving DecidableEq, Repr

/-- The tree of one relation. -/
def Link.tree : Link → Tree
  | ⟨relation, none⟩ => .leaf .relation relation
  | ⟨relation, some scope⟩ => .node .scope [.leaf .relation relation, .atom scope]

/-- The tokens of one relation. -/
def Link.kinds : Link → List TokenKind
  | ⟨relation, none⟩ => [.name relation]
  | ⟨relation, some scope⟩ => [.name relation, .keyword .in_, .name scope]

/-- The tokens of a chain, from its outermost relation to its innermost. -/
def chainKinds (first : Link) (more : List Link) : List TokenKind :=
  first.kinds ++ more.flatMap fun link => .keyword .from_ :: link.kinds

/-- The tree of a chain. -/
def chainTree (first : Link) (more : List Link) : Tree :=
  more.foldl (fun outer link => .node .from_ [outer, link.tree]) first.tree

/-! ## Reading a chain -/

/-- The machine has read a relation that closes to the tree, with nothing around it. -/
structure Machine.Holds (m : Machine) (t : Tree) : Prop where
  expects : m.expects = .afterRelation
  paren : m.paren? = none
  closes : ∀ p : Tag → Bool, (∀ tag, tier .from_ ≤ tier tag → p tag = true) →
    m.closeWhile? p = some ⟨.afterRelation, [], [t]⟩

/-- The node that is open in front of the next relation: the `from` behind the chain so far. -/
def openFrom : Option (Span × Tree) → List Frame
  | none => []
  | some (span, outer) => [⟨.from_, span, [outer]⟩]

/-- A relation behind the chain so far. -/
def behind : Option (Span × Tree) → Tree → Tree
  | none, t => t
  | some (_, outer), t => .node .from_ [outer, t]

/-- A relation that is still open, behind the chain so far. -/
theorem holds_relation (before : Option (Span × Tree)) (relation : String) (span : Span) :
    Machine.Holds ⟨.afterRelation, ⟨.relation, span, [.atom relation]⟩ :: openFrom before, []⟩
      (behind before (.leaf .relation relation)) := by
  refine ⟨rfl, ?_, fun p hp => ?_⟩
  · cases before <;> rfl
  · have hrelation := hp .relation (by decide)
    have hfrom := hp .from_ (by decide)
    cases before <;>
      simp [Machine.closeWhile?, Machine.closeFrames, openFrom, behind, hrelation, hfrom,
        Frame.isComplete, Frame.tree, Tree.leaf]

/-- A finished relation behind the chain so far. -/
theorem holds_append (before : Option (Span × Tree)) (t : Tree) :
    (Machine.append t ⟨.afterRelation, openFrom before, []⟩).Holds (behind before t) := by
  refine ⟨?_, ?_, fun p hp => ?_⟩
  · cases before <;> rfl
  · cases before <;> rfl
  · have hfrom := hp .from_ (by decide)
    cases before <;>
      simp [Machine.closeWhile?, Machine.closeFrames, Machine.append, openFrom, behind, hfrom,
        Frame.isComplete, Frame.tree]

/-- One relation is read. -/
theorem runTokens_link (link : Link) (before : Option (Span × Tree)) {tokens : List Token}
    (htokens : tokens.map Token.kind = link.kinds) (rest : List Token) :
    ∃ m : Machine, m.Holds (behind before link.tree) ∧
      runTokens ⟨.relation, openFrom before, []⟩ (tokens ++ rest) = runTokens m rest := by
  obtain ⟨relation, scope⟩ := link
  cases scope with
  | none =>
    obtain ⟨⟨kind, span⟩, more, rfl, hkind, hmore⟩ := List.map_eq_cons_iff.1 htokens
    obtain rfl := List.map_eq_nil_iff.1 hmore
    obtain rfl : kind = .name relation := hkind
    refine ⟨_, holds_relation before relation span, ?_⟩
    cases before <;> rfl
  | some scope =>
    obtain ⟨⟨kind, span⟩, more, rfl, hkind, hmore⟩ := List.map_eq_cons_iff.1 htokens
    obtain ⟨⟨kind', span'⟩, last, rfl, hkind', hlast⟩ := List.map_eq_cons_iff.1 hmore
    obtain ⟨⟨kind'', span''⟩, none, rfl, hkind'', hnone⟩ := List.map_eq_cons_iff.1 hlast
    obtain rfl := List.map_eq_nil_iff.1 hnone
    obtain rfl : kind = .name relation := hkind
    obtain rfl : kind' = .keyword .in_ := hkind'
    obtain rfl : kind'' = .name scope := hkind''
    refine ⟨_, holds_append before (.node .scope [.leaf .relation relation, .atom scope]), ?_⟩
    cases before <;> rfl

/-- The relations behind an open chain are read. -/
theorem runTokens_links {more : List Link} :
    ∀ {t : Tree} {m : Machine} {tokens : List Token} {last : Token}, m.Holds t →
    tokens.map Token.kind = (more.flatMap fun link => .keyword .from_ :: link.kinds) →
    last.kind = .finish →
    runTokens m (tokens ++ [last]) =
      .ok (.node .query [more.foldl (fun outer link => .node .from_ [outer, link.tree]) t]) := by
  induction more with
  | nil =>
    intro t m tokens last hm htokens hlast
    obtain rfl := List.map_eq_nil_iff.1 htokens
    have hclose := hm.closes (fun _ => true) fun _ _ => rfl
    simp only [List.nil_append, runTokens, hlast, Machine.finish, hm.expects, hm.paren, hclose,
      orNear, List.foldl_nil]
    rfl
  | cons link more ih =>
    intro t m tokens last hm htokens hlast
    obtain ⟨⟨kind, span⟩, rest, rfl, hkind, hrest⟩ := List.map_eq_cons_iff.1 htokens
    obtain rfl : kind = .keyword .from_ := hkind
    obtain ⟨here, later, rfl, hhere, hlater⟩ := List.map_eq_append_iff.1 hrest
    have hopen : runTokens m (⟨.keyword .from_, span⟩ :: (here ++ (later ++ [last]))) =
        runTokens ⟨.relation, openFrom (some (span, t)), []⟩ (here ++ (later ++ [last])) := by
      have hclose := hm.closes (fun tag => decide (tier .from_ ≤ tier tag)) fun _ htag => by
        simpa using htag
      have hstep (next : List Token) : m.step ⟨.keyword .from_, span⟩ next =
          .ok (⟨.relation, openFrom (some (span, t)), []⟩, false) := by
        simp only [Machine.step, hm.expects, Machine.afterRelation, Machine.openOver,
          Machine.closeTier, hclose, orNear]
        rfl
      simp only [runTokens, hstep]
    obtain ⟨m', hm', hrun⟩ := runTokens_link link (some (span, t)) hhere (later ++ [last])
    rw [List.cons_append, List.append_assoc, hopen, hrun, ih hm' hlater hlast]
    rfl

/-- **A chain of relations is parsed into nested `from` nodes**, however it is spaced. -/
theorem parse_links {source : String} {first : Link} {more : List Link}
    (h : (Source.lex source).map Token.kind = chainKinds first more ++ [.finish]) :
    parse source = .ok (.node .query [chainTree first more]) := by
  obtain ⟨tokens, ends, hsource, htokens, hends⟩ := List.map_eq_append_iff.1 h
  obtain ⟨last, none, rfl, hlast, hnone⟩ := List.map_eq_cons_iff.1 hends
  obtain rfl := List.map_eq_nil_iff.1 hnone
  obtain ⟨here, later, rfl, hhere, hlater⟩ := List.map_eq_append_iff.1 htokens
  obtain ⟨m, hm, hrun⟩ := runTokens_link first none hhere (later ++ [last])
  have hrun' : runTokens .start (here ++ (later ++ [last])) = runTokens m (later ++ [last]) := hrun
  rw [parse, hsource, parseTokens, List.append_assoc, hrun', runTokens_links hm hlater hlast]
  rfl

end RelationSql.Grammar
