import RelationSql.Proofs.Grammar.Member

/-!
# Well-formed trees

What a node of a parsed tree is made of (`Formed`). A tree is a clause, an expression, or a chain whose
outermost link is an expression (`Role`). The last kind only stands behind a `having`, and only where it
is allowed to: with `False` for `swallows`, clauses have clauses and expressions in their places.
-/

namespace RelationSql.Grammar

open RelationSql.Source (Token TokenKind)

/-! ## Words -/

/-- The text is a whole number. -/
def IsInteger (text : String) : Prop :=
  ∃ c cs, text.toList = c :: cs ∧ Source.read c cs = ⟨.integer text, c :: cs, []⟩

/-- The text is a number with a point. -/
def IsReal (text : String) : Prop :=
  ∃ c cs, text.toList = c :: cs ∧ Source.read c cs = ⟨.real text, c :: cs, []⟩

/-- The text is a number, with a minus or without one. -/
def IsSigned (number : String → Prop) (text : String) : Prop :=
  number text ∨ ∃ digits, number digits ∧ text = "-" ++ digits

/-- Names and numbers are spelled as such. -/
def IsProper : TokenKind → Prop
  | .name name => IsName name
  | .integer digits => IsInteger digits
  | .real digits => IsReal digits
  | _ => True

theorem isProper_read (c : Char) (cs : List Char) : IsProper (Source.read c cs).kind := by
  cases hkind : (Source.read c cs).kind with
  | name name =>
    obtain ⟨d, ds, rfl, -, hread⟩ := Source.read_name hkind
    exact ⟨d, ds, String.toList_ofList, hread⟩
  | integer digits =>
    obtain ⟨d, ds, rfl, -, hread⟩ := Source.read_number hkind (.inl rfl)
    exact ⟨d, ds, String.toList_ofList, hread⟩
  | real digits =>
    obtain ⟨d, ds, rfl, -, hread⟩ := Source.read_number hkind (.inr rfl)
    exact ⟨d, ds, String.toList_ofList, hread⟩
  | _ => trivial

/-- **The names and numbers of a source are spelled as such.** -/
theorem isProper_of_mem_lex {source : String} {token : Token} (h : token ∈ Source.lex source) :
    IsProper token.kind := by
  rcases Source.exists_read_of_mem_lex h with hkind | ⟨c, cs, hkind⟩
  · rw [hkind]
    trivial
  · rw [hkind]
    exact isProper_read c cs

/-! ## Trees -/

/-- The number of operands of an operator. -/
def arity : Operator → Nat
  | .not | .bang | .changeSign | .invertBits => 1
  | .between => 3
  | _ => 2

/-- Is this the tag of a clause between two others? -/
def isLink (tag : Tag) : Bool :=
  tag == .from_ || tag == .clauseOr || tag == .clauseAnd

/-- What a tree stands for. -/
inductive Role where
  | clause
  | expression
  /-- A chain of clauses with an expression in the place of the outermost one. -/
  | hybrid
  deriving DecidableEq, Repr

/-- A number of a limit or an offset. -/
inductive IsCount : Tree → Prop where
  | mk {digits : String} (h : IsInteger digits) : IsCount (.leaf .integer digits)

/-- A field of a group. -/
inductive IsField : Tree → Prop where
  | mk {name : String} (h : IsName name) : IsField (.leaf .field name)

/-- A field of an order, with a direction or without one. -/
inductive IsOrdering : Tree → Prop where
  | field {t : Tree} (h : IsField t) : IsOrdering t
  | asc {t : Tree} (h : IsField t) : IsOrdering (.node .asc [t])
  | desc {t : Tree} (h : IsField t) : IsOrdering (.node .desc [t])

/-- A number in an expression. -/
inductive IsNumber : Tree → Prop where
  | integer {text : String} (h : IsSigned IsInteger text) : IsNumber (.leaf .integer text)
  | real {text : String} (h : IsSigned IsReal text) : IsNumber (.leaf .real text)

/-- **The shape of a tree.** Expressions hold nothing but expressions; a clause has clauses, expressions
and lists of names and numbers in their places. Whether a `having` may hold a chain that has swallowed its
expression is left to `swallows`. -/
inductive Formed (swallows : Prop) : Role → Tree → Prop where
  -- expressions
  | field {t : Tree} (h : IsField t) : Formed swallows .expression t
  | number {t : Tree} (h : IsNumber t) : Formed swallows .expression t
  | string (content : String) : Formed swallows .expression (.leaf .string content)
  | template (content : String) : Formed swallows .expression (.leaf .dstring content)
  | null : Formed swallows .expression (.node .null [])
  | parenthesis {ts : List Tree} (hne : ts ≠ []) (h : ∀ t ∈ ts, Formed swallows .expression t) :
      Formed swallows .expression (.node .par ts)
  | operator {o : Operator} {ts : List Tree} (hcount : ts.length = arity o)
      (h : ∀ t ∈ ts, Formed swallows .expression t) : Formed swallows .expression (.node (.op o) ts)
  | call {t : Tree} {name : String} (h : Formed swallows .expression t) (hname : IsName name) :
      Formed swallows .expression (.node .function [t, .leaf .method name])
  | interval {t : Tree} {unit : String} (h : IsNumber t) (hunit : unit ∈ intervalUnits) :
      Formed swallows .expression (.node .interval [t, .atom unit])
  -- clauses
  | relation {name : String} (h : IsName name) : Formed swallows .clause (.leaf .relation name)
  | scope {t : Tree} {name : String} (h : Formed swallows .clause t) (hname : IsName name) :
      Formed swallows .clause (.node .scope [t, .atom name])
  | filter {t u : Tree} (h : Formed swallows .clause t) (hcondition : Formed swallows .expression u) :
      Formed swallows .clause (.node .filter [t, u])
  | link {tag : Tag} (htag : isLink tag = true) {t u : Tree} (h : Formed swallows .clause t)
      (h' : Formed swallows .clause u) : Formed swallows .clause (.node tag [t, u])
  | enclosed {t : Tree} (h : Formed swallows .clause t) : Formed swallows .clause (.node .clausePar [t])
  | having {t u : Tree} (h : Formed swallows .clause t) (hcondition : Formed swallows .expression u) :
      Formed swallows .clause (.node .having [t, u])
  | limit {t : Tree} {counts : List Tree} (h : Formed swallows .clause t)
      (hlength : counts.length = 1 ∨ counts.length = 2) (hcounts : ∀ u ∈ counts, IsCount u) :
      Formed swallows .clause (.node .limit (t :: counts))
  | offset {t u : Tree} (h : Formed swallows .clause t) (hcount : IsCount u) :
      Formed swallows .clause (.node .offset [t, u])
  | paginate {t : Tree} {name : String} (h : Formed swallows .clause t) (hname : IsName name) :
      Formed swallows .clause (.node .paginate [t, .leaf .param name])
  | order {t : Tree} {items : List Tree} (h : Formed swallows .clause t) (hne : items ≠ [])
      (hitems : ∀ u ∈ items, IsOrdering u) : Formed swallows .clause (.node .order (t :: items))
  | group {t : Tree} {items : List Tree} (h : Formed swallows .clause t) (hne : items ≠ [])
      (hitems : ∀ u ∈ items, IsField u) : Formed swallows .clause (.node .group (t :: items))
  -- a chain that has taken the expression in front of it for a clause
  | swallowed (hswallows : swallows) {t u : Tree} (h : Formed swallows .clause t)
      (hchain : Formed swallows .hybrid u) : Formed swallows .clause (.node .having [t, u])
  | stolen {t u : Tree} (h : Formed swallows .expression t) (h' : Formed swallows .clause u) :
      Formed swallows .hybrid (.node .from_ [t, u])
  | onward {tag : Tag} (htag : isLink tag = true) {t u : Tree} (h : Formed swallows .hybrid t)
      (h' : Formed swallows .clause u) : Formed swallows .hybrid (.node tag [t, u])

/-- The whole tree of a source: nothing, or one clause. -/
inductive FormedSource (swallows : Prop) : Tree → Prop where
  | empty : FormedSource swallows (.node .query [])
  | clause {t : Tree} (h : Formed swallows .clause t) : FormedSource swallows (.node .query [t])

variable {swallows : Prop} {t : Tree}

theorem isLink_iff {tag : Tag} :
    isLink tag = true ↔ tag = .from_ ∨ tag = .clauseOr ∨ tag = .clauseAnd := by
  simp [isLink, or_assoc]

theorem Formed.leaf {name : String} (h : IsName name) : Formed swallows .expression (.leaf .field name) :=
  .field (.mk h)

/-- A chain with an expression in it is a clause by its tag. -/
theorem Formed.tag?_of_hybrid (h : Formed swallows .hybrid t) : ∃ tag ts, t = .node tag ts ∧
    isLink tag = true := by
  cases h with
  | stolen => exact ⟨_, _, rfl, rfl⟩
  | onward htag => exact ⟨_, _, rfl, htag⟩

/-- No clause stands for an expression. -/
theorem Formed.tag?_of_expression (h : Formed swallows .expression t) :
    ∃ tag ts, t = .node tag ts ∧ isLink tag = false := by
  cases h with
  | field h => cases h; exact ⟨_, _, rfl, rfl⟩
  | number h => cases h <;> exact ⟨_, _, rfl, rfl⟩
  | _ => exact ⟨_, _, rfl, rfl⟩

end RelationSql.Grammar
