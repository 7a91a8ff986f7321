import RelationSql.Proofs.Grammar.Atoms
import RelationSql.Proofs.Grammar.Formed

/-!
# The names of a source

The names in the tree of a source are the names among its words, in their order (`parse_names`). A name
behind a number is a unit, and no name; what stands between quotes is none either.

The names are part of the atoms, but atoms do not tell names from texts, so the run of the machine is
followed once more, with an eye on the tags. What stands in front of a word is known from the run over the
atoms (`Machine.Behind`).
-/

namespace RelationSql

open RelationSql.Source (Token TokenKind)

/-! ## Names of trees -/

/-- Are the atoms of such a node names? Those of a literal are not, and those of an interval are a number
and a unit. -/
def Tag.holdsNames : Tag → Bool
  | .integer | .real | .string | .dstring | .interval => false
  | _ => true

namespace Tree

mutual

/-- The names in a tree from left to right. -/
def names : Tree → List String
  | .atom text => [text]
  | .node tag children => if tag.holdsNames then namesAll children else []

/-- The names in a list of trees from left to right. -/
def namesAll : List Tree → List String
  | [] => []
  | tree :: trees => tree.names ++ namesAll trees

end

@[simp] theorem names_atom (text : String) : (atom text).names = [text] := by rw [names]

theorem names_node {tag : Tag} (h : tag.holdsNames = true) (children : List Tree) :
    (node tag children).names = namesAll children := by rw [names, if_pos h]

theorem names_literal {tag : Tag} (h : tag.holdsNames = false) (children : List Tree) :
    (node tag children).names = [] := by
  rw [names, h]
  rfl

@[simp] theorem namesAll_nil : namesAll [] = [] := by rw [namesAll]

@[simp] theorem namesAll_cons (tree : Tree) (trees : List Tree) :
    namesAll (tree :: trees) = tree.names ++ namesAll trees := by rw [namesAll]

@[simp] theorem namesAll_append (trees more : List Tree) :
    namesAll (trees ++ more) = namesAll trees ++ namesAll more := by
  induction trees with
  | nil => simp
  | cons tree trees ih => simp [ih]

theorem names_leaf {tag : Tag} (h : tag.holdsNames = true) (text : String) : (leaf tag text).names = [text] := by
  rw [leaf, names_node h]
  simp

end Tree

/-! ## Names among words -/

namespace Source

/-- The name that a word is behind another one. -/
def nameOf (before : Option TokenKind) : TokenKind → List String
  | .name name => if (before.bind TokenKind.digits?).isSome then [] else [name]
  | _ => []

/-- The names among the words behind a word. -/
def namesFrom (before : Option TokenKind) : List Token → List String
  | [] => []
  | token :: rest => nameOf before token.kind ++ namesFrom (some token.kind) rest

/-- The names that stand in a source, from left to right. -/
def identifiers (source : String) : List String :=
  namesFrom none (lex source)

theorem nameOf_name {before : Option TokenKind} (h : (before.bind TokenKind.digits?).isSome = false)
    (name : String) : nameOf before (.name name) = [name] := by
  rw [nameOf, h]
  rfl

/-- A word that is no operand is no name. -/
theorem nameOf_of_open {kind : TokenKind} (h : kind.endsOperand = false) (before : Option TokenKind) :
    nameOf before kind = [] := by
  cases kind with
  | name name => cases h
  | _ => rfl

end Source

/-! ## Names of a machine -/

namespace Grammar

open Source RelationSql.Tree

/-- The names in the open nodes, from the outermost on, behind those in the trees outside. -/
def heldNames (root : List Tree) : List Frame → List String
  | [] => namesAll root.reverse
  | f :: frames => heldNames root frames ++ namesAll f.done.reverse

/-- The names that the machine has read so far. -/
def Machine.names (m : Machine) : List String :=
  heldNames m.root m.frames

/-- Everything that is open binds looser than the words behind a value. -/
def Machine.Shallow (m : Machine) : Prop :=
  ∀ f ∈ m.frames, tier f.tag < tier .interval

variable {m m' : Machine} {t : Tree} {span : Source.Span} {before : Option TokenKind} {token : Token}
  {rest : List Token} {tag : Tag}

theorem holdsNames_of_tier (h : tier tag < tier .interval) : tag.holdsNames = true := by
  cases tag with
  | integer | real | string | dstring | interval => exact absurd h (by decide)
  | _ => rfl

theorem tier_op_lt (o : Operator) : tier (.op o) < tier .interval :=
  Int.lt_of_le_of_lt (operatorTier_bounds o).2 (by decide)

namespace Machine

theorem shallow_start : Machine.start.Shallow := nofun

@[simp] theorem names_expecting (next : Expect) (m : Machine) : (m.expecting next).names = m.names := rfl

@[simp] theorem names_push (f : Frame) (m : Machine) :
    (m.push f).names = m.names ++ namesAll f.done.reverse := rfl

@[simp] theorem names_append (t : Tree) (m : Machine) : (m.append t).names = m.names ++ t.names := by
  obtain ⟨expects, frames, root⟩ := m
  cases frames <;> simp [append, Machine.names, heldNames]

namespace Shallow

theorem expecting (hm : m.Shallow) (next : Expect) : (m.expecting next).Shallow := hm

theorem push (hm : m.Shallow) (htag : tier tag < tier .interval) (opened : Source.Span) (done : List Tree) :
    (m.push ⟨tag, opened, done⟩).Shallow :=
  List.forall_mem_cons.2 ⟨htag, hm⟩

theorem append (hm : m.Shallow) (t : Tree) : (m.append t).Shallow := by
  obtain ⟨expects, frames, root⟩ := m
  cases frames with
  | nil => exact hm
  | cons f frames => exact List.forall_mem_cons.2 (List.forall_mem_cons.1 hm)

/-- The newest tree holds the newest names. -/
theorem takeLast (hm : m.Shallow) (h : m.takeLast? = some (t, m')) :
    m'.Shallow ∧ m.last? = some t ∧ m'.names ++ t.names = m.names := by
  obtain ⟨expects, frames, root⟩ := m
  cases frames with
  | nil =>
    cases root with
    | nil => cases h
    | cons tree root =>
      cases h
      exact ⟨hm, rfl, by simp [Machine.names, heldNames]⟩
  | cons f frames =>
    obtain ⟨tag, opened, done⟩ := f
    cases done with
    | nil => cases h
    | cons tree done =>
      cases h
      exact ⟨List.forall_mem_cons.2 (List.forall_mem_cons.1 hm), rfl, by simp [Machine.names, heldNames]⟩

end Shallow

/-- Closed nodes keep their names. -/
theorem heldNames_closeFrames {p : Tag → Bool} {new root root' : List Tree} {frames frames' : List Frame}
    (hframes : ∀ f ∈ frames, tier f.tag < tier .interval)
    (h : closeFrames p new frames root = some (frames', root')) :
    (∀ f ∈ frames', tier f.tag < tier .interval) ∧
      heldNames root' frames' = heldNames root frames ++ namesAll new.reverse := by
  induction frames generalizing new with
  | nil =>
    cases h
    exact ⟨hframes, by simp [heldNames]⟩
  | cons f frames ih =>
    rw [closeFrames] at h
    rw [List.forall_mem_cons] at hframes
    split at h
    · split at h
      · -- the closed node is the newest tree of the frame behind it
        obtain ⟨hframes', hnames⟩ := ih hframes.2 h
        refine ⟨hframes', ?_⟩
        rw [hnames]
        simp [heldNames, Frame.tree, names_node (holdsNames_of_tier hframes.1)]
      · cases h
    · cases h
      exact ⟨List.forall_mem_cons.2 hframes, by simp [heldNames]⟩

namespace Shallow

theorem closeWhile (hm : m.Shallow) {p : Tag → Bool} (h : m.closeWhile? p = some m') :
    m'.Shallow ∧ m'.names = m.names := by
  obtain ⟨⟨frames, root⟩, hclose, rfl⟩ := Option.map_eq_some_iff.1 h
  obtain ⟨hframes, hnames⟩ := heldNames_closeFrames hm hclose
  rw [List.reverse_nil, namesAll_nil, List.append_nil] at hnames
  exact ⟨hframes, hnames⟩

theorem closeTier (hm : m.Shallow) {least : Int} (h : m.closeTier least span = .ok m') :
    m'.Shallow ∧ m'.names = m.names :=
  hm.closeWhile (ok_of_orNear h)

/-- Nothing is closed in front of a unit. -/
theorem closeTier_interval (hm : m.Shallow) (h : m.closeTier (tier .interval) span = .ok m') : m' = m := by
  obtain ⟨⟨frames, root⟩, hclose, rfl⟩ := Option.map_eq_some_iff.1 (ok_of_orNear h)
  obtain ⟨expects, frames', root'⟩ := m
  cases frames' with
  | nil =>
    cases hclose
    rfl
  | cons f frames' =>
    have hf := (List.forall_mem_cons.1 hm).1
    rw [closeFrames, if_neg (by simpa using hf)] at hclose
    cases hclose
    rfl

/-- An opened node takes the newest tree with it. -/
theorem openOver (hm : m.Shallow) (htag : tier tag < tier .interval) {next : Expect}
    (h : m.openOver tag next span = .ok m') : m'.Shallow ∧ m'.names = m.names := by
  obtain ⟨m₁, hclose, h⟩ := bind_eq_ok h
  obtain ⟨⟨t, m₂⟩, htake, h⟩ := bind_eq_ok h
  cases h
  obtain ⟨hm₁, hnames⟩ := hm.closeTier hclose
  obtain ⟨hm₂, -, htaken⟩ := hm₁.takeLast (ok_of_orNear htake)
  refine ⟨hm₂.push htag _ _, ?_⟩
  rw [← hnames, ← htaken]
  simp

/-- What is wrapped with the newest tree stands behind it. -/
theorem wrapLast (hm : m.Shallow) (htag : tag.holdsNames = true) {more : List Tree}
    (h : m.wrapLast tag more span = .ok m') : m'.Shallow ∧ m'.names = m.names ++ namesAll more := by
  obtain ⟨m₁, hclose, h⟩ := bind_eq_ok h
  obtain ⟨⟨t, m₂⟩, htake, h⟩ := bind_eq_ok h
  cases h
  obtain ⟨hm₁, hnames⟩ := hm.closeTier hclose
  obtain ⟨hm₂, -, htaken⟩ := hm₁.takeLast (ok_of_orNear htake)
  refine ⟨hm₂.append _, ?_⟩
  rw [← hnames, ← htaken]
  simp [names_node htag]

end Shallow

end Machine

/-! ## Steps -/

/-- The step fails, or it adds these names to those that were read: the first ones if it uses up its own
word only, and otherwise the others. -/
def Gains (m : Machine) (one both : List String) (result : StepResult) : Prop :=
  ∀ m' used, result = .ok (m', used) → m'.Shallow ∧ m'.names = m.names ++ if used then both else one

namespace Gains

variable {one both : List String}

theorem refused (fault : Fault) : Gains m one both (.error fault) := nofun

theorem bind {α : Type} {x : Except Fault α} {f : α → StepResult}
    (h : ∀ a, x = .ok a → Gains m one both (f a)) : Gains m one both (x >>= f) := by
  cases x with
  | error fault => exact refused fault
  | ok a => exact h a rfl

theorem single (hm : m'.Shallow) (hnames : m'.names = m.names ++ one) :
    Gains m one both (Grammar.one m') := by
  rintro _ _ ⟨⟩
  exact ⟨hm, hnames⟩

theorem double (hm : m'.Shallow) (hnames : m'.names = m.names ++ both) :
    Gains m one both (Grammar.two m') := by
  rintro _ _ ⟨⟩
  exact ⟨hm, hnames⟩

end Gains

/-- The step reads the names of the words that it uses up. -/
abbrev GainsNames (before : Option TokenKind) (m : Machine) (token : Token) (rest : List Token)
    (result : StepResult) : Prop :=
  Gains m (nameOf before token.kind)
    (nameOf before token.kind ++ nameOf (some token.kind) (following token rest).kind) result

namespace Machine.Shallow

variable (hm : m.Shallow)

include hm

/-- A word that opens a node over the newest tree. -/
theorem opens (htoken : token.kind.endsOperand = false) (htag : tier tag < tier .interval) (next : Expect) :
    GainsNames before m token rest (m.openOver tag next span >>= Grammar.one) := by
  refine .bind fun m' hopen => ?_
  obtain ⟨hm', hnames⟩ := hm.openOver htag hopen
  exact .single hm' (by rw [hnames, nameOf_of_open htoken, List.append_nil])

/-! ### Parentheses and clauses -/

theorem closeParen (hkind : token.kind = .symbol .rightParen) :
    GainsNames before m token rest (m.closeParen token) := by
  refine .bind fun m₁ hclose => ?_
  obtain ⟨hm₁, hnames⟩ := hm.closeTier hclose
  obtain ⟨expects, frames, root⟩ := m₁
  cases frames with
  | nil => exact .refused _
  | cons f frames =>
    dsimp only
    split
    · have hframes := List.forall_mem_cons.1 hm₁
      refine .single (append (m := ⟨afterParen f.tag, frames, root⟩) hframes.2 _) ?_
      rw [← hnames, hkind, names_append]
      simp [Machine.names, heldNames, Frame.tree, names_node (holdsNames_of_tier hframes.1),
        Machine.expecting, nameOf]
    · exact .refused _

omit hm in
/-- A clause opens a node that binds looser than all expressions. -/
theorem tier_of_clauseOf? {next : Token} {expects : Expect} {both : Bool}
    (h : clauseOf? token next = .ok (tag, expects, both)) : tier tag < tier .interval := by
  unfold clauseOf? at h
  split at h
  case h_7 => cases h
  case h_5 | h_6 =>
    split at h
    · cases h
      decide
    · cases h
  all_goals
    cases h
    decide

theorem clause : GainsNames before m token rest (m.clause token rest) := by
  unfold Machine.clause
  split
  · next hkind => exact hm.closeParen hkind
  split
  · exact .refused _
  split
  · exact .refused _
  · next tag expects both hclause =>
    obtain ⟨hkind, -, -, hby⟩ := clauseOf?_eq_ok hclause
    refine .bind fun m' hopen => ?_
    obtain ⟨hm', hnames⟩ := hm.openOver (tier_of_clauseOf? hclause) hopen
    cases both with
    | false => exact .single hm' (by rw [hnames, nameOf_of_open hkind, List.append_nil])
    | true =>
      refine .double hm' ?_
      rw [hnames, nameOf_of_open hkind, (hby rfl).1]
      simp [nameOf]

/-! ### Relations -/

theorem relation (hnumber : (before.bind TokenKind.digits?).isSome = false) :
    GainsNames before m token rest (m.relation token) := by
  unfold Machine.relation
  split
  · next name hkind =>
    refine .bind fun m₁ hclose => ?_
    obtain ⟨hm₁, hnames⟩ := hm.closeTier hclose
    refine .single ((hm₁.push (by decide) _ _).expecting _) ?_
    rw [hkind, nameOf_name hnumber]
    simp [hnames]
  · next hkind => exact .single (hm.push (by decide) _ _) (by simp [hkind, nameOf])
  · exact .refused _

theorem scope (hkind : token.kind = .keyword .in_) :
    GainsNames before m token rest (m.scope token (following token rest)) := by
  unfold Machine.scope
  split
  · next name hname =>
    refine .bind fun m' hwrap => ?_
    obtain ⟨hm', hnames⟩ := hm.wrapLast rfl hwrap
    exact .double (hm'.expecting _) (by simp [hnames, hname, hkind, nameOf, TokenKind.digits?])
  · exact .refused _

theorem afterRelation : GainsNames before m token rest (m.afterRelation token rest) := by
  unfold Machine.afterRelation
  split
  case h_1 hkind => exact hm.scope hkind
  case h_6 => exact hm.clause
  all_goals
    next hkind =>
    exact hm.opens (by rw [hkind]; rfl) (by decide) _

/-! ### Operands -/

theorem addOperand (ht : t.names = nameOf before token.kind) :
    GainsNames before m token rest (Grammar.one (m.addOperand t)) := by
  refine .single ((hm.append t).expecting _) ?_
  rw [← ht]
  exact names_append t m

theorem openOperand : GainsNames before m token rest (m.openOperand token) := by
  unfold Machine.openOperand
  split
  · next hkind => exact .single (hm.push (by decide) _ _) (by simp [hkind, nameOf])
  · split
    · next hprefix =>
      refine .single (hm.push (tier_op_lt _) _ _) ?_
      rw [nameOf_of_open (endsOperand_of_prefixOperator? hprefix)]
      simp
    · exact .refused _

theorem operand (hnumber : (before.bind TokenKind.digits?).isSome = false) :
    GainsNames before m token rest (m.operand token rest) := by
  unfold Machine.operand
  split
  case h_5 hkind =>
    refine hm.addOperand ?_
    rw [hkind, nameOf_name hnumber, names_leaf rfl]
  case h_6 hkind => exact hm.addOperand (by rw [hkind, names_node rfl]; rfl)
  case h_7 hkind =>
    split
    · next literal hliteral =>
      -- neither the minus nor the number that it touches is a name
      have hnames : literal.names = [] ∧ nameOf (some token.kind) (following token rest).kind = [] := by
        unfold signedLiteral? at hliteral
        split at hliteral
        · split at hliteral
          · next hnext =>
            cases hliteral
            exact ⟨names_literal rfl _, by rw [hnext]; rfl⟩
          · next hnext =>
            cases hliteral
            exact ⟨names_literal rfl _, by rw [hnext]; rfl⟩
          · cases hliteral
        · cases hliteral
      refine .double ((hm.append _).expecting _) ?_
      rw [hnames.2, hkind]
      simp [Machine.addOperand, hnames.1, nameOf]
    · exact hm.openOperand
  case h_8 => exact hm.openOperand
  all_goals
    next hkind =>
    exact hm.addOperand (by rw [hkind, Tree.leaf, names_literal rfl]; rfl)

/-! ### Behind an operand -/

theorem negated (hkind : token.kind = .keyword .not) :
    GainsNames before m token rest (m.negated token rest) := by
  unfold Machine.negated
  dsimp only
  split
  · exact .refused _
  · next operator hoperator =>
    split
    · exact .refused _
    · refine .bind fun m₁ hclose => .bind fun (t, m₂) htake => ?_
      obtain ⟨hm₁, hnames⟩ := hm.closeTier hclose
      obtain ⟨hm₂, -, htaken⟩ := hm₁.takeLast (ok_of_orNear htake)
      refine .double (((hm₂.push (tier_op_lt _) _ _).push (tier_op_lt _) _ _).expecting _) ?_
      rw [nameOf_of_open (negatable?_eq_some hoperator).1, hkind, ← hnames, ← htaken]
      simp [nameOf]

theorem comma (hkind : token.kind = .symbol .comma) :
    GainsNames before m token rest (m.comma token) := by
  unfold Machine.comma
  split
  · refine .bind fun m₁ hclose => ?_
    obtain ⟨hm₁, hnames⟩ := hm.closeWhile (ok_of_orNear hclose)
    exact .single (hm₁.expecting _) (by simp [hnames, hkind, nameOf])
  · exact .refused _

theorem method (hkind : token.kind = .symbol .dot) :
    GainsNames before m token rest (m.method token (following token rest)) := by
  unfold Machine.method
  split
  · next name hname =>
    refine .bind fun m' hwrap => ?_
    obtain ⟨hm', hnames⟩ := hm.wrapLast rfl hwrap
    refine .double hm' ?_
    simp [hnames, hname, hkind, nameOf, TokenKind.digits?, @names_leaf .method rfl]
  · exact .refused _

/-- A unit goes to the number in front of it, since nothing binds tighter. -/
theorem interval {word : String} (hbehind : m.Behind before) (hexpects : m.expects = .afterOperand)
    (hkind : token.kind = .name word) : GainsNames before m token rest (m.interval word token) := by
  unfold Machine.interval
  split
  · next unit hunit =>
    split
    · next hlast =>
      refine .bind fun m' hwrap => ?_
      obtain ⟨m₁, hclose, hwrap⟩ := bind_eq_ok hwrap
      obtain ⟨⟨t, m₂⟩, htake, hwrap⟩ := bind_eq_ok hwrap
      cases hwrap
      obtain rfl := hm.closeTier_interval hclose
      obtain ⟨hm₂, hnewest, htaken⟩ := hm.takeLast (ok_of_orNear htake)
      have ht : t.names = [] := by
        rw [lastIsNumber, hnewest, Option.any_some] at hlast
        cases t with
        | atom text => cases hlast
        | node tag ts =>
          rcases Bool.or_eq_true_iff.1 hlast with htag | htag
          · obtain rfl : tag = .integer := by simpa [Tree.tag?] using htag
            exact names_literal rfl _
          · obtain rfl : tag = .real := by simpa [Tree.tag?] using htag
            exact names_literal rfl _
      refine .single (hm₂.append _) ?_
      rw [hkind, nameOf, if_pos (hbehind.number hexpects hlast), ← htaken, ht]
      simp [@names_literal .interval rfl]
    · exact .refused _
  · exact .refused _

theorem infixOrClause : GainsNames before m token rest (m.infixOrClause token rest) := by
  unfold Machine.infixOrClause
  split
  · next operator hoperator =>
    exact hm.opens (endsOperand_of_infixOperator? hoperator) (tier_op_lt _) _
  · exact hm.clause

theorem betweenAnd (hkind : token.kind = .keyword .and) :
    GainsNames before m token rest (m.betweenAnd token) := by
  refine .bind fun m₁ hclose => ?_
  obtain ⟨hm₁, hnames⟩ := hm.closeWhile (ok_of_orNear hclose)
  exact .single (hm₁.expecting _) (by simp [hnames, hkind, nameOf])

theorem afterOperand (hbehind : m.Behind before) (hexpects : m.expects = .afterOperand) :
    GainsNames before m token rest (m.afterOperand token rest) := by
  unfold Machine.afterOperand
  split
  · next hkind =>
    split
    · exact hm.betweenAnd hkind
    · exact hm.infixOrClause
  · next hkind => exact hm.negated hkind
  · next hkind => exact hm.opens (by rw [hkind]; rfl) (by decide) _
  · next hkind => exact hm.opens (by rw [hkind]; rfl) (by decide) _
  · next hkind =>
    split
    · exact hm.opens (by rw [hkind]; rfl) (by decide) _
    · exact .refused _
  · next hkind =>
    split
    · exact .refused _
    · exact hm.opens (by rw [hkind]; rfl) (by decide) _
  · next hkind => exact hm.method hkind
  · next hkind => exact hm.comma hkind
  · next hkind => exact hm.interval hbehind hexpects hkind
  · exact hm.infixOrClause

/-! ### Values and items of clauses -/

theorem clauseValue (next : Expect) : GainsNames before m token rest (m.clauseValue next token) := by
  unfold Machine.clauseValue
  split
  · next hkind =>
    refine .single ((hm.append _).expecting _) ?_
    rw [hkind]
    simp [nameOf, Tree.leaf, @names_literal .integer rfl]
  · exact .refused _

theorem clauseName (hnumber : (before.bind TokenKind.digits?).isSome = false)
    (htag : tag.holdsNames = true) (next : Expect) :
    GainsNames before m token rest (m.clauseName tag next token) := by
  unfold Machine.clauseName
  split
  · next hkind =>
    refine .single ((hm.append _).expecting _) ?_
    rw [hkind, nameOf_name hnumber]
    simp [names_leaf htag]
  · exact .refused _

/-- The direction behind a field. -/
theorem direction (htoken : token.kind.endsOperand = false) (htag : tag.holdsNames = true) :
    GainsNames before m token rest
      (m.wrapLast tag [] token.span >>= fun m => Grammar.one (m.expecting .orderSeparator)) := by
  refine .bind fun m' hwrap => ?_
  obtain ⟨hm', hnames⟩ := hm.wrapLast htag hwrap
  exact .single (hm'.expecting _) (by rw [nameOf_of_open htoken]; simp [hnames])

/-- The comma in front of another item. -/
theorem another (hkind : token.kind = .symbol .comma) (next : Expect) :
    GainsNames before m token rest (Grammar.one (m.expecting next)) :=
  .single (hm.expecting _) (by simp [hkind, nameOf])

theorem afterOrderItem : GainsNames before m token rest (m.afterOrderItem token rest) := by
  unfold Machine.afterOrderItem
  split
  · next hkind => exact hm.direction (by rw [hkind]; rfl) rfl
  · next hkind => exact hm.direction (by rw [hkind]; rfl) rfl
  · next hkind => exact hm.another hkind _
  · exact hm.clause

theorem separatorOrClause (allowed : Bool) (next : Expect) :
    GainsNames before m token rest (m.separatorOrClause allowed next token rest) := by
  unfold Machine.separatorOrClause
  split
  · next hcomma => exact hm.another hcomma.1 _
  · exact hm.clause

/-- **Every step reads the names of the words that it uses up.** -/
theorem step (hbehind : m.Behind before) : GainsNames before m token rest (m.step token rest) := by
  cases hexpects : m.expects with
  | relation =>
    have hnumber := hbehind.digits?_eq_none (by rw [hexpects]; rfl)
    simpa only [Machine.step, hexpects] using hm.relation hnumber
  | afterRelation => simpa only [Machine.step, hexpects] using hm.afterRelation
  | operand =>
    have hnumber := hbehind.digits?_eq_none (by rw [hexpects]; rfl)
    simpa only [Machine.step, hexpects] using hm.operand hnumber
  | afterOperand => simpa only [Machine.step, hexpects] using hm.afterOperand hbehind hexpects
  | limitValue | offsetValue => simpa only [Machine.step, hexpects] using hm.clauseValue _
  | pageName | orderItem | groupItem =>
    have hnumber := hbehind.digits?_eq_none (by rw [hexpects]; rfl)
    simpa only [Machine.step, hexpects] using hm.clauseName hnumber rfl _
  | afterOrderItem => simpa only [Machine.step, hexpects] using hm.afterOrderItem
  | afterLimit | orderSeparator | afterGroupItem =>
    simpa only [Machine.step, hexpects] using hm.separatorOrClause _ _
  | clauseEnd => simpa only [Machine.step, hexpects] using hm.clause

end Machine.Shallow

/-! ## Runs -/

/-- The end of the source closes all nodes, which keeps the names in their places. -/
theorem Machine.Shallow.finish (hm : m.Shallow) {last : Token} {tree : Tree} (h : m.finish last = .ok tree) :
    tree.names = m.names := by
  unfold Machine.finish at h
  split at h
  · split at h
    · cases h
    · obtain ⟨m', hclose, h⟩ := bind_eq_ok h
      cases h
      rw [← (hm.closeWhile (ok_of_orNear hclose)).2, names_node rfl]
      obtain ⟨⟨frames, root⟩, hframes, rfl⟩ := Option.map_eq_some_iff.1 (ok_of_orNear hclose)
      rw [closeFrames_true hframes]
      rfl
  · cases h

/-- **The names read before a run and those among its words are the names of the tree.** -/
theorem Machine.Shallow.runTokens {words : List Token} {last : Token} {tree : Tree} (hm : m.Shallow)
    (hbehind : m.Behind before) (hvalid : ∀ word ∈ words, word.kind.isLast = false)
    (hlast : last.kind.isLast = true) (h : Grammar.runTokens m (words ++ [last]) = .ok tree) :
    tree.names = m.names ++ namesFrom before (words ++ [last]) := by
  -- a step may use up two words, so the induction is on their number
  induction hlength : words.length using Nat.strongRecOn generalizing m before words with
  | ind length ih =>
    subst hlength
    cases words with
    | nil =>
      rw [List.nil_append] at h ⊢
      unfold Grammar.runTokens at h
      dsimp only at h
      split at h
      · cases h
      · next hkind => simp [namesFrom, nameOf, hkind, hm.finish h]
      · next hinvalid hfinish =>
        cases hkind : last.kind with
        | invalid reason => exact absurd hkind (hinvalid reason)
        | finish => exact absurd hkind hfinish
        | _ => simp [hkind, TokenKind.isLast] at hlast
    | cons word words =>
      rw [List.forall_mem_cons] at hvalid
      rw [List.cons_append, runTokens_cons hvalid.1] at h
      obtain ⟨⟨m', used⟩, hstep, hrun⟩ := bind_eq_ok h
      have hgathers : Gathers before m word (words ++ [last]) (m.step word (words ++ [last])) :=
        Machine.gathers_step hbehind
      obtain ⟨hm', hnames⟩ := hm.step hbehind m' used hstep
      rw [hstep] at hgathers
      cases hgathers with
      | one hbehind' =>
        rw [ih _ (Nat.lt_succ_self _) hm' hbehind' hvalid.2 hrun rfl, hnames, List.append_assoc]
        rfl
      | @two _ next more _ hrest hbehind' =>
        cases words with
        | nil =>
          -- the step used up the last word
          cases hrest
          cases hrun
        | cons second words =>
          obtain ⟨rfl, rfl⟩ : second = next ∧ words ++ [last] = more := by simpa using hrest
          rw [List.forall_mem_cons] at hvalid
          rw [ih _ (Nat.lt_succ_of_lt (Nat.lt_succ_self _)) hm' hbehind' hvalid.2.2 hrun rfl, hnames,
            List.append_assoc, if_pos rfl, List.append_assoc]
          rfl

/-- The tokens of a source end with the only one of them that is a last one. -/
theorem lex_eq_append (source : String) :
    ∃ words last, Source.lex source = words ++ [last] ∧ last.kind.isLast = true ∧
      ∀ word ∈ words, word.kind.isLast = false := by
  obtain ⟨words, last, htokens, hlast, hwords⟩ := Source.tokensFrom_eq_append 0 source.toList
  rw [Source.lex, Source.lexAll, htokens]
  rcases Source.upToLast_cases hlast hwords with ⟨hvalid, hup⟩ | ⟨words, bad, reason, hbad, hvalid, hup⟩
  · exact ⟨words, last, hup, by simp [hlast, TokenKind.isLast], hvalid⟩
  · exact ⟨words, bad, hup, by simp [hbad, TokenKind.isLast], hvalid⟩

/-- **Parsing keeps the names.** The names in the tree are those that stand in the source, in their order. -/
theorem parse_names {source : String} {tree : Tree} (h : parse source = .ok tree) :
    tree.names = identifiers source := by
  have hrun : runTokens .start (Source.lex source) = .ok tree := by
    rw [parse, parseTokens] at h
    split at h
    · next hresult =>
      cases h
      exact hresult
    · cases h
  obtain ⟨words, last, htokens, hlast, hvalid⟩ := lex_eq_append source
  rw [identifiers, htokens]
  rw [htokens] at hrun
  exact Machine.shallow_start.runTokens behind_start hvalid hlast hrun

/-! ## Conditions -/

/-- The names among words do not depend on where the words stand. -/
theorem namesFrom_shift (count : Nat) (before : Option TokenKind) (tokens : List Token) :
    namesFrom before (upToLast (tokens.map (Token.shift count))) = namesFrom before (upToLast tokens) := by
  induction tokens generalizing before with
  | nil => rfl
  | cons token tokens ih =>
    rw [List.map_cons, upToLast, upToLast]
    show namesFrom before (if token.kind.isLast then _ else _) = _
    split
    · rfl
    · rw [namesFrom, namesFrom, ih]
      rfl

/-- Behind a keyword, words are named as at the start of a source. -/
theorem namesFrom_keyword (keyword : Source.Keyword) (tokens : List Token) :
    namesFrom (some (.keyword keyword)) tokens = namesFrom none tokens := by
  cases tokens with
  | nil => rfl
  | cons token tokens =>
    rw [namesFrom, namesFrom]
    cases token.kind <;> rfl

/-- **The names of a relation with a condition** are that of the relation and those of the condition. -/
theorem identifiers_where {relation : String} (h : IsName relation) (condition : String) :
    identifiers (relation ++ " where " ++ condition) = relation :: identifiers condition := by
  obtain ⟨c, cs, htext, hread⟩ := h
  have hwhere : Source.read 'w' ['h', 'e', 'r', 'e'] = ⟨.keyword .where_, ['w', 'h', 'e', 'r', 'e'], []⟩ := rfl
  have hsource : (relation ++ " where " ++ condition).toList =
      c :: cs ++ ' ' :: ('w' :: ['h', 'e', 'r', 'e'] ++ ' ' :: condition.toList) := by
    rw [String.toList_append, String.toList_append, htext, List.append_assoc]
    rfl
  obtain ⟨span, span', count, htokens⟩ : ∃ span span' count, lexAll (relation ++ " where " ++ condition) =
      [⟨.name relation, span⟩, ⟨.keyword .where_, span'⟩] ++ (lexAll condition).map (Token.shift count) := by
    let name := 0 + bytes (c :: cs)
    let keyword := name + 1 + bytes ['w', 'h', 'e', 'r', 'e']
    refine ⟨⟨0, name⟩, ⟨name + 1, keyword⟩, keyword + 1, ?_⟩
    rw [lexAll, hsource, tokensFrom_of_read (read_of_delimited hread rfl rfl) rfl, tokensFrom_space,
      tokensFrom_of_read (read_of_delimited hwhere rfl rfl) rfl, tokensFrom_space, lexAll, ← tokensFrom_shift,
      Nat.add_zero]
    rfl
  rw [identifiers, lex, htokens, upToLast_append (by simp [TokenKind.isLast])]
  show relation :: namesFrom (some (.keyword .where_)) _ = _
  rw [namesFrom_keyword]
  exact congrArg (relation :: ·) (namesFrom_shift count none (lexAll condition))

end Grammar

end RelationSql
