import Mathlib.Tactic.Common
import RelationSql.Grammar.Parse
import RelationSql.Proofs.Grammar.Inside
import RelationSql.Proofs.Grammar.Shape
import RelationSql.Proofs.Source.Followed

/-!
# The atoms of a source

The tree of a source holds what its words say, all of it, once and in its order: the atoms of the tree
from left to right are the payloads of the words (`parse_atoms`). A minus that belongs to a number is read
together with it, and a unit behind a number is read as its name in the singular.

The invariant of a run is that the atoms read so far, those of the open nodes from the outermost on,
followed by the payloads of the words still to come are the payloads of the source.
-/

namespace RelationSql

open RelationSql.Source (Token TokenKind)

/-! ## Atoms of trees -/

namespace Tree

mutual

/-- The atoms of a tree from left to right. -/
def atoms : Tree → List String
  | .atom text => [text]
  | .node _ children => atomsAll children

/-- The atoms of a list of trees from left to right. -/
def atomsAll : List Tree → List String
  | [] => []
  | tree :: trees => tree.atoms ++ atomsAll trees

end

@[simp] theorem atoms_atom (text : String) : (atom text).atoms = [text] := by rw [atoms]

@[simp] theorem atoms_node (tag : Tag) (children : List Tree) :
    (node tag children).atoms = atomsAll children := by rw [atoms]

@[simp] theorem atoms_leaf (tag : Tag) (text : String) : (leaf tag text).atoms = [text] := by
  simp [leaf, atomsAll]

@[simp] theorem atomsAll_nil : atomsAll [] = [] := by rw [atomsAll]

@[simp] theorem atomsAll_cons (tree : Tree) (trees : List Tree) :
    atomsAll (tree :: trees) = tree.atoms ++ atomsAll trees := by rw [atomsAll]

@[simp] theorem atomsAll_append (trees more : List Tree) :
    atomsAll (trees ++ more) = atomsAll trees ++ atomsAll more := by
  induction trees with
  | nil => simp
  | cons tree trees ih => simp [ih]

end Tree

/-! ## Payloads of words -/

namespace Source

/-- The digits of a number. -/
def TokenKind.digits? : TokenKind → Option String
  | .integer digits | .real digits => some digits
  | _ => none

/-- May an operand end with this word? A minus behind it stands between two operands. -/
def TokenKind.endsOperand : TokenKind → Bool
  | .integer _ | .real _ | .text _ | .template _ | .name _ | .keyword .null | .symbol .rightParen => true
  | _ => false

/-- A word without the `s` of a plural. -/
def stem (word : String) : String :=
  if word.toList.getLast? = some 's' then String.ofList word.toList.dropLast else word

/-- A word in lower case and in the singular. -/
def singular (word : String) : String :=
  stem (Text.lower word)

/-- The payload of a word behind another one. A name behind a number is a unit. -/
def payload (before : Option TokenKind) : TokenKind → List String
  | .integer digits | .real digits => [digits]
  | .text content | .template content => [content]
  | .name name => if (before.bind TokenKind.digits?).isSome then [singular name] else [name]
  | _ => []

/-- The digits that a minus belongs to: those it touches, unless it stands behind an operand. -/
def signed? (before : Option TokenKind) (minus next : Token) : Option String :=
  if minus.kind = .symbol .minus ∧ minus.span.touches next.span = true ∧
    before.any TokenKind.endsOperand = false then next.kind.digits? else none

/-- The payloads of the words behind a word, from left to right. -/
def payloads (before : Option TokenKind) : List Token → List String
  | [] => []
  | [token] => payload before token.kind
  | token :: next :: rest =>
    match signed? before token next with
    | some digits => ("-" ++ digits) :: payloads (some next.kind) rest
    | none => payload before token.kind ++ payloads (some token.kind) (next :: rest)

end Source

/-! ## Atoms of a machine -/

namespace Grammar

open Source RelationSql.Tree

/-- The atoms of the open nodes, from the outermost on, behind those of the trees outside. -/
def held (root : List Tree) : List Frame → List String
  | [] => atomsAll root.reverse
  | f :: frames => held root frames ++ atomsAll f.done.reverse

/-- What the machine has read so far. -/
def Machine.atoms (m : Machine) : List String :=
  held m.root m.frames

variable {m m' : Machine} {t : Tree} {span : Source.Span} {before : Option TokenKind} {token : Token}
  {rest : List Token}

namespace Machine

@[simp] theorem atoms_expecting (next : Expect) (m : Machine) : (m.expecting next).atoms = m.atoms := rfl

@[simp] theorem atoms_push (f : Frame) (m : Machine) :
    (m.push f).atoms = m.atoms ++ atomsAll f.done.reverse := rfl

@[simp] theorem atoms_append (t : Tree) (m : Machine) : (m.append t).atoms = m.atoms ++ t.atoms := by
  obtain ⟨expects, frames, root⟩ := m
  cases frames <;> simp [append, Machine.atoms, held]

theorem expects_takeLast? (h : m.takeLast? = some (t, m')) : m'.expects = m.expects := by
  obtain ⟨expects, frames, root⟩ := m
  unfold takeLast? at h
  split at h <;> split at h <;> cases h <;> rfl

/-- The newest tree is the one that was added last. -/
theorem lastIsNumber_append (t : Tree) (m : Machine) :
    (m.append t).lastIsNumber = (t.tag? == some .integer || t.tag? == some .real) := by
  rw [lastIsNumber, last?_append, Option.any_some]

/-- The newest tree holds the newest atoms. -/
theorem atoms_takeLast? (h : m.takeLast? = some (t, m')) : m'.atoms ++ t.atoms = m.atoms := by
  obtain ⟨expects, frames, root⟩ := m
  cases frames with
  | nil =>
    cases root with
    | nil => cases h
    | cons tree root =>
      cases h
      simp [Machine.atoms, held]
  | cons f frames =>
    obtain ⟨tag, opened, done⟩ := f
    cases done with
    | nil => cases h
    | cons tree done =>
      cases h
      simp [Machine.atoms, held]

/-- A closed node keeps its place. -/
theorem held_closeFrames {p : Tag → Bool} {new root root' : List Tree} {frames frames' : List Frame}
    (h : closeFrames p new frames root = some (frames', root')) :
    held root' frames' = held root frames ++ atomsAll new.reverse := by
  induction frames generalizing new with
  | nil =>
    cases h
    simp [held]
  | cons f frames ih =>
    rw [closeFrames] at h
    split at h
    · split at h
      · -- the closed node is the newest tree of the frame behind it
        rw [ih h]
        simp [held, Frame.tree]
      · cases h
    · cases h
      simp [held]

theorem atoms_closeWhile? {p : Tag → Bool} (h : m.closeWhile? p = some m') : m'.atoms = m.atoms := by
  obtain ⟨⟨frames, root⟩, hclose, rfl⟩ := Option.map_eq_some_iff.1 h
  have hheld := held_closeFrames hclose
  rwa [List.reverse_nil, atomsAll_nil, List.append_nil] at hheld

theorem atoms_closeTier {least : Int} (h : m.closeTier least span = .ok m') : m'.atoms = m.atoms :=
  atoms_closeWhile? (ok_of_orNear h)

theorem expects_closeTier {least : Int} (h : m.closeTier least span = .ok m') : m'.expects = m.expects := by
  obtain ⟨_, -, rfl⟩ := Option.map_eq_some_iff.1 (ok_of_orNear h)
  rfl

/-- An opened node takes the newest tree with it. -/
theorem openOver_eq_ok {tag : Tag} {next : Expect} (h : m.openOver tag next span = .ok m') :
    m'.atoms = m.atoms ∧ m'.expects = next := by
  obtain ⟨m₁, hclose, h⟩ := bind_eq_ok h
  obtain ⟨⟨t, m₂⟩, htake, h⟩ := bind_eq_ok h
  cases h
  have htaken := atoms_takeLast? (ok_of_orNear htake)
  refine ⟨?_, rfl⟩
  rw [← atoms_closeTier hclose, ← htaken]
  simp

/-- What is wrapped with the newest tree stands behind it. -/
theorem wrapLast_eq_ok {tag : Tag} {more : List Tree} (h : m.wrapLast tag more span = .ok m') :
    m'.atoms = m.atoms ++ atomsAll more ∧ m'.expects = m.expects ∧
      m'.lastIsNumber = (tag == .integer || tag == .real) := by
  obtain ⟨m₁, hclose, h⟩ := bind_eq_ok h
  obtain ⟨⟨t, m₂⟩, htake, h⟩ := bind_eq_ok h
  cases h
  have htaken := atoms_takeLast? (ok_of_orNear htake)
  refine ⟨?_, ?_, lastIsNumber_append _ _⟩
  · rw [← atoms_closeTier hclose, ← htaken]
    simp
  · rw [expects_append, expects_takeLast? (ok_of_orNear htake), expects_closeTier hclose]

end Machine

/-! ## The word in front -/

/-- The machine stands behind this word: an operand is expected to go on only behind a word that ends one,
and nothing is expected behind such a word that may not end the source. -/
structure Machine.Behind (before : Option TokenKind) (m : Machine) : Prop where
  ends : before.any TokenKind.endsOperand = true → m.expects.acceptsEnd = true
  operand : m.expects = .afterOperand → before.any TokenKind.endsOperand = true
  number : m.expects = .afterOperand → m.lastIsNumber = true →
    (before.bind TokenKind.digits?).isSome = true

theorem behind_start : Machine.start.Behind none := ⟨nofun, nofun, nofun⟩

/-- Every number ends an operand. -/
theorem endsOperand_of_digits? (h : (before.bind TokenKind.digits?).isSome = true) :
    before.any TokenKind.endsOperand = true := by
  cases before with
  | none => cases h
  | some kind =>
    cases kind with
    | integer _ | real _ => rfl
    | _ => cases h

namespace Machine.Behind

/-- Where the source may not end, the word in front ends no operand. -/
theorem endsOperand_eq_false (hm : m.Behind before) (h : m.expects.acceptsEnd = false) :
    before.any TokenKind.endsOperand = false := by
  cases hbefore : before.any TokenKind.endsOperand with
  | false => rfl
  | true =>
    rw [hm.ends hbefore] at h
    cases h

/-- Where the source may not end, the word in front is no number. -/
theorem digits?_eq_none (hm : m.Behind before) (h : m.expects.acceptsEnd = false) :
    (before.bind TokenKind.digits?).isSome = false := by
  cases hbefore : (before.bind TokenKind.digits?).isSome with
  | false => rfl
  | true =>
    have hends := endsOperand_of_digits? hbefore
    rw [hm.endsOperand_eq_false h] at hends
    cases hends

/-- Behind a word that ends no operand, none is expected to go on. -/
theorem of_open {kind : TokenKind} (hkind : kind.endsOperand = false) (h : m.expects ≠ .afterOperand) :
    m.Behind (some kind) where
  ends hends := by
    rw [Option.any_some, hkind] at hends
    cases hends
  operand heq := absurd heq h
  number heq := absurd heq h

/-- Behind a word that ends a clause or an item of one. -/
theorem of_ended {kind : TokenKind} (hend : m.expects.acceptsEnd = true) (h : m.expects ≠ .afterOperand) :
    m.Behind (some kind) where
  ends _ := hend
  operand heq := absurd heq h
  number heq := absurd heq h

/-- Behind a word that ends an operand. The newest tree is a number only if the word is one. -/
theorem of_operand {kind : TokenKind} (hkind : kind.endsOperand = true) (h : m.expects = .afterOperand)
    (hnumber : m.lastIsNumber = true → kind.digits?.isSome = true) : m.Behind (some kind) where
  ends _ := by rw [h]; rfl
  operand _ := hkind
  number _ := hnumber

end Machine.Behind

/-! ## Words with their payloads -/

/-- No other word is taken for a sign. -/
theorem signed?_of_kind (h : token.kind ≠ .symbol .minus) (before : Option TokenKind) (next : Token) :
    signed? before token next = none :=
  if_neg fun hsign => h hsign.1

/-- Behind an operand no minus is taken for a sign. -/
theorem signed?_of_endsOperand (h : before.any TokenKind.endsOperand = true) (token next : Token) :
    signed? before token next = none := by
  refine if_neg fun hsign => ?_
  rw [h] at hsign
  cases hsign.2.2

/-- A word that ends no operand has no payload. -/
theorem payload_of_open {kind : TokenKind} (h : kind.endsOperand = false) (before : Option TokenKind) :
    payload before kind = [] := by
  cases kind with
  | integer _ | real _ | text _ | template _ | name _ => cases h
  | _ => rfl

/-- The word has no payload: it ends no operand, and no number is read with it. -/
structure Mute (before : Option TokenKind) (token : Token) : Prop where
  ends : token.kind.endsOperand = false
  unsigned : ∀ next, signed? before token next = none

theorem Mute.of_kind {kind : TokenKind} (hkind : token.kind = kind)
    (h : kind.endsOperand = false ∧ kind ≠ .symbol .minus) : Mute before token where
  ends := hkind ▸ h.1
  unsigned := signed?_of_kind (hkind ▸ h.2) before

/-- No keyword but `null` has a payload. -/
theorem Mute.of_keyword {keyword : Source.Keyword} (hkind : token.kind = .keyword keyword)
    (hnull : keyword ≠ .null) : Mute before token :=
  .of_kind hkind ⟨by cases keyword <;> first | rfl | exact absurd rfl hnull, by simp⟩

/-- A word that is no sign. -/
theorem payloads_cons (h : ∀ next ∈ rest.head?, signed? before token next = none) :
    payloads before (token :: rest) = payload before token.kind ++ payloads (some token.kind) rest := by
  cases rest with
  | nil => simp [payloads]
  | cons next rest => rw [payloads, h next rfl]

/-! ## Steps -/

/-- **What a step gathers.** It fails, or it adds the payload of its word, or it uses up the next word as
well and adds the payloads of both. -/
inductive Gathers (before : Option TokenKind) (m : Machine) (token : Token) (rest : List Token) :
    StepResult → Prop where
  | refused (fault : Fault) : Gathers before m token rest (.error fault)
  | one {m' : Machine} (hm : m'.Behind (some token.kind))
      (hatoms : m'.atoms = m.atoms ++ payload before token.kind)
      (hread : ∀ next ∈ rest.head?, signed? before token next = none) :
      Gathers before m token rest (.ok (m', false))
  | two {m' : Machine} {next : Token} {more : List Token} {read : List String} (hrest : rest = next :: more)
      (hm : m'.Behind (some next.kind)) (hatoms : m'.atoms = m.atoms ++ read)
      (hread : payloads before (token :: rest) = read ++ payloads (some next.kind) more) :
      Gathers before m token rest (.ok (m', true))

namespace Gathers

theorem bind {α : Type} {x : Except Fault α} {f : α → StepResult}
    (h : ∀ a, x = .ok a → Gathers before m token rest (f a)) : Gathers before m token rest (x >>= f) := by
  cases x with
  | error fault => exact .refused fault
  | ok a => exact h a rfl

/-- A word without a payload that is used up by itself. -/
theorem silent {m' : Machine} (htoken : Mute before token) (hexpects : m'.expects ≠ .afterOperand)
    (hatoms : m'.atoms = m.atoms) : Gathers before m token rest (Grammar.one m') := by
  refine .one (.of_open htoken.ends hexpects) ?_ fun next _ => htoken.unsigned next
  rw [payload_of_open htoken.ends, List.append_nil, hatoms]

/-- A word that opens a node over the newest tree. -/
theorem opens {tag : Tag} {next : Expect} (htoken : Mute before token) (hnext : next ≠ .afterOperand) :
    Gathers before m token rest (m.openOver tag next span >>= Grammar.one) := by
  refine .bind fun m' hopen => ?_
  obtain ⟨hatoms, hexpects⟩ := Machine.openOver_eq_ok hopen
  exact .silent htoken (hexpects ▸ hnext) hatoms

/-- A word without a payload, and another one that is no minus. -/
theorem pair {m' : Machine} {next : Token} {more : List Token} (hrest : rest = next :: more)
    (htoken : Mute before token) (hnext : next.kind ≠ .symbol .minus) (hm : m'.Behind (some next.kind))
    (hatoms : m'.atoms = m.atoms ++ payload (some token.kind) next.kind) :
    Gathers before m token rest (Grammar.two m') := by
  refine .two hrest hm hatoms ?_
  rw [hrest, payloads_cons fun next _ => htoken.unsigned next, payload_of_open htoken.ends, List.nil_append,
    payloads_cons fun _ _ => signed?_of_kind hnext _ _]

end Gathers

/-- The word behind, if it is another one than the word itself. -/
theorem eq_cons_of_following_ne (h : (following token rest).kind ≠ token.kind) :
    ∃ more, rest = following token rest :: more := by
  cases rest with
  | nil => exact absurd rfl h
  | cons next more => exact ⟨more, rfl⟩

namespace Machine

/-! ### Parentheses and clauses -/

theorem gathers_closeParen (hkind : token.kind = .symbol .rightParen) :
    Gathers before m token rest (m.closeParen token) := by
  refine .bind fun m₁ hclose => ?_
  have hatoms := atoms_closeTier hclose
  obtain ⟨expects, frames, root⟩ := m₁
  cases frames with
  | nil => exact .refused _
  | cons f frames =>
    dsimp only
    split
    · next hparen =>
      have hparen : f.tag.isParen = true := (Bool.and_eq_true_iff.1 hparen).1
      refine .one ?_ ?_ fun next _ => signed?_of_kind (by simp [hkind]) _ _
      · by_cases htag : f.tag = .clausePar
        · exact .of_ended (by simp [expects_append, expecting, afterParen, htag, Expect.acceptsEnd])
            (by simp [expects_append, expecting, afterParen, htag])
        · refine .of_operand (by rw [hkind]; rfl)
            (by simp [expects_append, expecting, afterParen, htag]) fun hnumber => ?_
          -- a node in parentheses is no number, so no unit may stand behind it
          rw [lastIsNumber_append, Frame.tree, Tree.tag?] at hnumber
          generalize f.tag = tag at hparen hnumber
          cases tag with
          | par | clausePar => cases hnumber
          | _ => cases hparen
      · have hpayload : payload before token.kind = [] := by rw [hkind]; rfl
        rw [← hatoms, hpayload, atoms_append]
        simp [Machine.atoms, held, Frame.tree, expecting]
    · exact .refused _

/-- The keyword of a clause, and its `by`. -/
theorem clauseOf?_eq_ok {next : Token} {tag : Tag} {expects : Expect} {both : Bool}
    (h : clauseOf? token next = .ok (tag, expects, both)) :
    token.kind.endsOperand = false ∧ token.kind ≠ .symbol .minus ∧ expects.acceptsEnd = false ∧
      (both = true → next.kind = .keyword .by_ ∧ next.kind ≠ token.kind) := by
  unfold clauseOf? at h
  split at h
  case h_7 => cases h
  case h_5 | h_6 =>
    next hkind =>
    split at h
    · next hnext =>
      cases h
      simp [hkind, hnext, TokenKind.endsOperand, Expect.acceptsEnd]
    · cases h
  all_goals
    next hkind =>
    cases h
    simp [hkind, TokenKind.endsOperand, Expect.acceptsEnd]

theorem gathers_clause : Gathers before m token rest (m.clause token rest) := by
  unfold clause
  split
  · next hkind => exact gathers_closeParen hkind
  split
  · exact .refused _
  split
  · exact .refused _
  · next tag expects both hclause =>
    obtain ⟨hkind, hminus, hexpects, hby⟩ := clauseOf?_eq_ok hclause
    refine .bind fun m' hopen => ?_
    obtain ⟨hatoms, hm'⟩ := openOver_eq_ok hopen
    have hopened : m'.expects ≠ .afterOperand := by
      rw [hm']
      rintro rfl
      cases hexpects
    cases both with
    | false => exact .silent (.of_kind rfl ⟨hkind, hminus⟩) hopened hatoms
    | true =>
      -- `order` and `group` use up their `by`, so there is a word behind them
      obtain ⟨hnext, hother⟩ := hby rfl
      obtain ⟨more, hrest⟩ := eq_cons_of_following_ne hother
      refine .pair hrest (.of_kind rfl ⟨hkind, hminus⟩) (by simp [hnext]) ?_ ?_
      · exact .of_open (by simp [hnext, TokenKind.endsOperand]) hopened
      · simp [hnext, payload, hatoms]

/-! ### Relations -/

theorem gathers_relation (hm : m.Behind before) (hexpects : m.expects = .relation) :
    Gathers before m token rest (m.relation token) := by
  unfold relation
  split
  · next name hkind =>
    refine .bind fun m₁ hclose => ?_
    refine .one (.of_ended rfl (by simp [expecting])) ?_ fun _ _ => signed?_of_kind (by simp [hkind]) _ _
    have hnumber := hm.digits?_eq_none (by rw [hexpects]; rfl)
    simp [hkind, payload, hnumber, atoms_closeTier hclose]
  · next hkind =>
    exact .silent (.of_kind hkind ⟨rfl, by simp⟩) (by simp [push, hexpects]) (by simp)
  · exact .refused _

theorem gathers_scope (hkind : token.kind = .keyword .in_) :
    Gathers before m token rest (m.scope token (following token rest)) := by
  unfold scope
  split
  · next name hname =>
    have hother : (following token rest).kind ≠ token.kind := by simp [hname, hkind]
    obtain ⟨more, hrest⟩ := eq_cons_of_following_ne hother
    refine .bind fun m' hwrap => ?_
    obtain ⟨hatoms, -⟩ := wrapLast_eq_ok hwrap
    refine .pair hrest (.of_keyword hkind (by simp)) (by simp [hname])
      (.of_ended rfl (by simp [expecting])) ?_
    simp [hatoms, hname, hkind, payload, TokenKind.digits?]
  · exact .refused _

theorem gathers_afterRelation : Gathers before m token rest (m.afterRelation token rest) := by
  unfold afterRelation
  split
  case h_1 hkind => exact gathers_scope hkind
  case h_6 => exact gathers_clause
  all_goals
    next hkind =>
    exact .opens (.of_keyword hkind (by simp)) (by simp)

/-! ### Operands -/

/-- An operand is added behind the word that ends it. -/
theorem behind_addOperand {kind : TokenKind} (hkind : kind.endsOperand = true)
    (hnumber : (t.tag? == some .integer || t.tag? == some .real) = true → kind.digits?.isSome = true) :
    (m.addOperand t).Behind (some kind) :=
  .of_operand hkind rfl fun hlast => hnumber (lastIsNumber_append t m ▸ hlast)

/-- A word that is an operand. -/
theorem gathers_addOperand (hkind : token.kind.endsOperand = true)
    (hnumber : (t.tag? == some .integer || t.tag? == some .real) = true → token.kind.digits?.isSome = true)
    (hatoms : t.atoms = payload before token.kind) :
    Gathers before m token rest (Grammar.one (m.addOperand t)) := by
  refine .one (behind_addOperand hkind hnumber) ?_ fun next _ => signed?_of_kind ?_ _ _
  · rw [← hatoms]
    exact atoms_append t m
  · intro hminus
    rw [hminus] at hkind
    cases hkind

/-- The word of an operator in front of its operand. -/
theorem endsOperand_of_prefixOperator? {operator : Operator}
    (h : prefixOperator? token.kind = some operator) : token.kind.endsOperand = false := by
  generalize token.kind = kind at h
  cases kind with
  | symbol symbol => cases symbol <;> first | rfl | cases h
  | keyword keyword => cases keyword <;> first | rfl | cases h
  | _ => cases h

theorem gathers_openOperand (hexpects : m.expects = .operand)
    (hread : ∀ next ∈ rest.head?, signed? before token next = none) :
    Gathers before m token rest (m.openOperand token) := by
  -- an opened node is empty, whether it is a parenthesis or an operator in front of its operand
  have hopen : ∀ f : Frame, f.done = [] → token.kind.endsOperand = false →
      Gathers before m token rest (Grammar.one (m.push f)) := by
    intro f hdone hkind
    refine .one (.of_open hkind (by simp [push, hexpects])) ?_ hread
    simp [hdone, payload_of_open hkind]
  unfold openOperand
  split
  · next hkind => exact hopen _ rfl (by simp [hkind, TokenKind.endsOperand])
  · split
    · next hprefix => exact hopen _ rfl (endsOperand_of_prefixOperator? hprefix)
    · exact .refused _

/-- A minus that a number is read with is a sign, and no other is. -/
theorem signedLiteral?_eq_signed? (next : Token) (hkind : token.kind = .symbol .minus)
    (hbefore : before.any TokenKind.endsOperand = false) :
    (signedLiteral? token next = none ∧ signed? before token next = none) ∨
      ∃ tag digits, signedLiteral? token next = some (.leaf tag ("-" ++ digits)) ∧
        signed? before token next = some digits ∧ next.kind.digits? = some digits := by
  unfold signedLiteral? signed?
  cases htouches : token.span.touches next.span with
  | false => simp
  | true =>
    simp only [hkind, hbefore, and_self, if_true]
    cases next.kind with
    | integer digits => exact .inr ⟨.integer, digits, by simp [TokenKind.digits?]⟩
    | real digits => exact .inr ⟨.real, digits, by simp [TokenKind.digits?]⟩
    | _ => exact .inl ⟨rfl, rfl⟩

theorem gathers_operand (hm : m.Behind before) (hexpects : m.expects = .operand) :
    Gathers before m token rest (m.operand token rest) := by
  have hnumber := hm.digits?_eq_none (by rw [hexpects]; rfl)
  have hbefore := hm.endsOperand_eq_false (by rw [hexpects]; rfl)
  unfold operand
  split
  case h_7 hkind =>
    cases rest with
    | nil =>
      have hnone : signedLiteral? token (following token []) = none := by
        simp [signedLiteral?, following, hkind]
      rw [hnone]
      exact gathers_openOperand hexpects (by simp)
    | cons next more =>
      obtain ⟨hliteral, hsigned⟩ | ⟨tag, digits, hliteral, hsigned, hdigits⟩ :=
        signedLiteral?_eq_signed? next hkind hbefore
      · rw [following, hliteral]
        exact gathers_openOperand hexpects (by simpa using hsigned)
      · rw [following, hliteral]
        have hnext : next.kind.digits?.isSome = true := by rw [hdigits]; rfl
        have hends : (some next.kind).any TokenKind.endsOperand = true := endsOperand_of_digits? hnext
        have hpayloads : payloads before (token :: next :: more) =
            ["-" ++ digits] ++ payloads (some next.kind) more := by
          simp [payloads, hsigned]
        refine .two rfl (behind_addOperand hends fun _ => hnext) ?_ hpayloads
        simp [addOperand]
  case h_8 hminus => exact gathers_openOperand hexpects fun _ _ => signed?_of_kind hminus _ _
  all_goals
    next hkind =>
    refine gathers_addOperand (by simp [hkind, TokenKind.endsOperand]) ?_ ?_
    · simp [hkind, TokenKind.digits?, Tree.tag?, Tree.leaf]
    · simp [hkind, payload, hnumber]

/-! ### Behind an operand -/

/-- A word that may be negated. -/
theorem negatable?_eq_some {kind : TokenKind} {operator : Operator} (h : negatable? kind = some operator) :
    kind.endsOperand = false ∧ kind ≠ .symbol .minus ∧ kind ≠ .keyword .not := by
  unfold negatable? at h
  split at h
  case h_5 => cases h
  all_goals simp [TokenKind.endsOperand]

theorem gathers_negated (hkind : token.kind = .keyword .not) :
    Gathers before m token rest (m.negated token rest) := by
  unfold negated
  dsimp only
  split
  · exact .refused _
  · next operator hoperator =>
    split
    · exact .refused _
    · obtain ⟨hends, hminus, hnot⟩ := negatable?_eq_some hoperator
      obtain ⟨more, hrest⟩ := eq_cons_of_following_ne (hkind ▸ hnot)
      refine .bind fun m₁ hclose => .bind fun (t, m₂) htake => ?_
      have htaken := atoms_takeLast? (ok_of_orNear htake)
      -- the newest tree goes into the operator, which goes into the negation: it stays the newest
      refine .pair hrest (.of_keyword hkind (by simp)) hminus (.of_open hends (by simp [expecting])) ?_
      rw [payload_of_open hends, ← atoms_closeTier hclose, ← htaken]
      simp

theorem gathers_comma (hkind : token.kind = .symbol .comma) :
    Gathers before m token rest (m.comma token) := by
  unfold comma
  split
  · refine .bind fun m₁ hclose => ?_
    have hatoms := atoms_closeWhile? (ok_of_orNear hclose)
    exact .silent (.of_kind hkind ⟨rfl, by simp⟩) (by simp [expecting]) (by simpa using hatoms)
  · exact .refused _

theorem gathers_method (hexpects : m.expects = .afterOperand) (hkind : token.kind = .symbol .dot) :
    Gathers before m token rest (m.method token (following token rest)) := by
  unfold method
  split
  · next name hname =>
    have hother : (following token rest).kind ≠ token.kind := by simp [hname, hkind]
    obtain ⟨more, hrest⟩ := eq_cons_of_following_ne hother
    refine .bind fun m' hwrap => ?_
    obtain ⟨hatoms, hm', hnumber⟩ := wrapLast_eq_ok hwrap
    refine .pair hrest (.of_kind hkind ⟨rfl, by simp⟩) (by simp [hname]) ?_ ?_
    · refine .of_operand (by rw [hname]; rfl) (hm'.trans hexpects) fun hlast => ?_
      rw [hnumber] at hlast
      cases hlast
    · simp [hatoms, hname, hkind, payload, TokenKind.digits?]
  · exact .refused _

/-- A unit is the word for it in the singular. -/
theorem singular_of_intervalUnit? {word unit : String} (h : intervalUnit? word = some unit) :
    singular word = unit := by
  have hstems : ∀ unit ∈ intervalUnits, stem unit = unit ∧ stem (unit ++ "s") = unit := by decide
  obtain ⟨hone, hmany⟩ := hstems unit (List.mem_of_find?_eq_some h)
  have hword := List.find?_some h
  rw [Bool.or_eq_true, beq_iff_eq, beq_iff_eq] at hword
  rcases hword with hword | hword
  · rw [singular, hword, hone]
  · rw [singular, hword, hmany]

theorem gathers_interval {word : String} (hm : m.Behind before) (hexpects : m.expects = .afterOperand)
    (hkind : token.kind = .name word) : Gathers before m token rest (m.interval word token) := by
  unfold interval
  split
  · next unit hunit =>
    split
    · next hlast =>
      refine .bind fun m' hwrap => ?_
      obtain ⟨hatoms, hm', hnumber⟩ := wrapLast_eq_ok hwrap
      refine .one ?_ ?_ fun _ _ => signed?_of_kind (by simp [hkind]) _ _
      · -- the interval is no number, so no second unit is taken
        refine .of_operand (by rw [hkind]; rfl) (hm'.trans hexpects) fun hlast => ?_
        rw [hnumber] at hlast
        cases hlast
      · simp [hatoms, hkind, payload, hm.number hexpects hlast, singular_of_intervalUnit? hunit]
    · exact .refused _
  · exact .refused _

/-- The word of an operator between two operands. A minus there is no sign. -/
theorem endsOperand_of_infixOperator? {operator : Operator}
    (h : infixOperator? token.kind = some operator) : token.kind.endsOperand = false := by
  generalize token.kind = kind at h
  cases kind with
  | symbol symbol => cases symbol <;> first | rfl | cases h
  | keyword keyword => cases keyword <;> first | rfl | cases h
  | _ => cases h

theorem gathers_infixOrClause (hm : m.Behind before) (hexpects : m.expects = .afterOperand) :
    Gathers before m token rest (m.infixOrClause token rest) := by
  unfold infixOrClause
  split
  · next operator hoperator =>
    -- behind an operand a minus is no sign
    have htoken : Mute before token :=
      ⟨endsOperand_of_infixOperator? hoperator, signed?_of_endsOperand (hm.operand hexpects) token⟩
    exact .opens htoken (by simp)
  · exact gathers_clause

theorem gathers_betweenAnd (hkind : token.kind = .keyword .and) :
    Gathers before m token rest (m.betweenAnd token) := by
  refine .bind fun m₁ hclose => ?_
  have hatoms := atoms_closeWhile? (ok_of_orNear hclose)
  exact .silent (.of_keyword hkind (by simp)) (by simp [expecting]) (by simpa using hatoms)

theorem gathers_afterOperand (hm : m.Behind before) (hexpects : m.expects = .afterOperand) :
    Gathers before m token rest (m.afterOperand token rest) := by
  have hinfix : Gathers before m token rest (m.infixOrClause token rest) :=
    gathers_infixOrClause hm hexpects
  unfold afterOperand
  split
  · next hkind =>
    split
    · exact gathers_betweenAnd hkind
    · exact hinfix
  · next hkind => exact gathers_negated hkind
  · next hkind => exact .opens (.of_keyword hkind (by simp)) (by simp)
  · next hkind => exact .opens (.of_keyword hkind (by simp)) (by simp)
  · next hkind =>
    split
    · exact .opens (.of_keyword hkind (by simp)) (by simp)
    · exact .refused _
  · next hkind =>
    split
    · exact .refused _
    · exact .opens (.of_keyword hkind (by simp)) (by simp)
  · next hkind => exact gathers_method hexpects hkind
  · next hkind => exact gathers_comma hkind
  · next hkind => exact gathers_interval hm hexpects hkind
  · exact hinfix

/-! ### Values and items of clauses -/

/-- A value or a name of a clause. -/
theorem gathers_append {next : Expect} (hnext : next.acceptsEnd = true) (hoperand : next ≠ .afterOperand)
    (hminus : token.kind ≠ .symbol .minus) (hatoms : t.atoms = payload before token.kind) :
    Gathers before m token rest (Grammar.one ((m.append t).expecting next)) := by
  refine .one (.of_ended hnext hoperand) ?_ fun _ _ => signed?_of_kind hminus _ _
  rw [← hatoms, atoms_expecting, atoms_append]

theorem gathers_clauseValue {next : Expect} (hnext : next.acceptsEnd = true)
    (hoperand : next ≠ .afterOperand) : Gathers before m token rest (m.clauseValue next token) := by
  unfold clauseValue
  split
  · next hkind => exact gathers_append hnext hoperand (by simp [hkind]) (by simp [hkind, payload])
  · exact .refused _

theorem gathers_clauseName {tag : Tag} {next : Expect} (hm : m.Behind before)
    (hexpects : m.expects.acceptsEnd = false) (hnext : next.acceptsEnd = true)
    (hoperand : next ≠ .afterOperand) : Gathers before m token rest (m.clauseName tag next token) := by
  unfold clauseName
  split
  · next hkind =>
    have hnumber := hm.digits?_eq_none hexpects
    exact gathers_append hnext hoperand (by simp [hkind]) (by simp [hkind, payload, hnumber])
  · exact .refused _

/-- The direction behind a field. -/
theorem gathers_direction {keyword : Source.Keyword} {tag : Tag} (hkind : token.kind = .keyword keyword)
    (hnull : keyword ≠ .null) :
    Gathers before m token rest
      (m.wrapLast tag [] token.span >>= fun m => Grammar.one (m.expecting .orderSeparator)) := by
  refine .bind fun m' hwrap => ?_
  obtain ⟨hatoms, -⟩ := wrapLast_eq_ok hwrap
  exact .silent (.of_keyword hkind hnull) (by simp [expecting]) (by simpa using hatoms)

/-- The comma in front of another item. -/
theorem gathers_expecting {next : Expect} (hkind : token.kind = .symbol .comma)
    (hnext : next ≠ .afterOperand) : Gathers before m token rest (Grammar.one (m.expecting next)) :=
  .silent (.of_kind hkind ⟨rfl, by simp⟩) (by simpa [expecting] using hnext) (by simp)

theorem gathers_afterOrderItem : Gathers before m token rest (m.afterOrderItem token rest) := by
  unfold afterOrderItem
  split
  · next hkind => exact gathers_direction hkind (by simp)
  · next hkind => exact gathers_direction hkind (by simp)
  · next hkind => exact gathers_expecting hkind (by simp)
  · exact gathers_clause

theorem gathers_separatorOrClause {allowed : Bool} {next : Expect} (hnext : next ≠ .afterOperand) :
    Gathers before m token rest (m.separatorOrClause allowed next token rest) := by
  unfold separatorOrClause
  split
  · next hcomma => exact gathers_expecting hcomma.1 hnext
  · exact gathers_clause

/-- **Every step gathers the payloads of the words it uses up.** -/
theorem gathers_step (hm : m.Behind before) : Gathers before m token rest (m.step token rest) := by
  cases hexpects : m.expects with
  | relation => simpa only [step, hexpects] using gathers_relation hm hexpects
  | afterRelation => simpa only [step, hexpects] using gathers_afterRelation
  | operand => simpa only [step, hexpects] using gathers_operand hm hexpects
  | afterOperand => simpa only [step, hexpects] using gathers_afterOperand hm hexpects
  | limitValue | offsetValue =>
    simpa only [step, hexpects] using gathers_clauseValue rfl (by simp)
  | pageName | orderItem | groupItem =>
    simpa only [step, hexpects] using gathers_clauseName hm (by rw [hexpects]; rfl) rfl (by simp)
  | afterOrderItem => simpa only [step, hexpects] using gathers_afterOrderItem
  | afterLimit | orderSeparator | afterGroupItem =>
    simpa only [step, hexpects] using gathers_separatorOrClause (by simp)
  | clauseEnd => simpa only [step, hexpects] using gathers_clause

end Machine

/-! ## Runs -/

/-- The end of the source closes all nodes, which keeps the atoms in their places. -/
theorem Machine.atoms_finish {last : Token} {tree : Tree} (h : m.finish last = .ok tree) :
    tree.atoms = m.atoms := by
  unfold Machine.finish at h
  split at h
  · split at h
    · cases h
    · obtain ⟨m', hclose, h⟩ := bind_eq_ok h
      cases h
      rw [← atoms_closeWhile? (ok_of_orNear hclose), atoms_node]
      obtain ⟨⟨frames, root⟩, hframes, rfl⟩ := Option.map_eq_some_iff.1 (ok_of_orNear hclose)
      rw [closeFrames_true hframes]
      rfl
  · cases h

/-- **The atoms read before a run and the payloads of its words are the atoms of the tree.** -/
theorem Machine.Behind.runTokens {words : List Token} {last : Token} {tree : Tree} (hm : m.Behind before)
    (hvalid : ∀ word ∈ words, word.kind.isLast = false) (hlast : last.kind.isLast = true)
    (h : Grammar.runTokens m (words ++ [last]) = .ok tree) :
    tree.atoms = m.atoms ++ payloads before (words ++ [last]) := by
  -- a step may use up two words, so the induction is on their number
  induction hlength : words.length using Nat.strongRecOn generalizing m before words with
  | ind length ih =>
    subst hlength
    cases words with
    | nil =>
      rw [List.nil_append] at h ⊢
      unfold Grammar.runTokens at h
      dsimp only at h
      split at h
      · cases h
      · next hkind => simp [payloads, hkind, payload, Machine.atoms_finish h]
      · next hinvalid hfinish =>
        cases hkind : last.kind with
        | invalid reason => exact absurd hkind (hinvalid reason)
        | finish => exact absurd hkind hfinish
        | _ => simp [hkind, TokenKind.isLast] at hlast
    | cons word words =>
      rw [List.forall_mem_cons] at hvalid
      rw [List.cons_append, runTokens_cons hvalid.1] at h
      obtain ⟨⟨m', used⟩, hstep, hrun⟩ := bind_eq_ok h
      have hgathers : Gathers before m word (words ++ [last]) (m.step word (words ++ [last])) :=
        Machine.gathers_step hm
      rw [hstep] at hgathers
      cases hgathers with
      | one hm' hatoms hread =>
        rw [ih _ (Nat.lt_succ_self _) hm' hvalid.2 hrun rfl, hatoms, List.cons_append, payloads_cons hread,
          List.append_assoc]
      | @two _ next more read hrest hm' hatoms hread =>
        cases words with
        | nil =>
          -- the step used up the last word
          cases hrest
          cases hrun
        | cons second words =>
          obtain ⟨rfl, rfl⟩ : second = next ∧ words ++ [last] = more := by simpa using hrest
          rw [List.forall_mem_cons] at hvalid
          rw [ih _ (Nat.lt_succ_of_lt (Nat.lt_succ_self _)) hm' hvalid.2.2 hrun rfl, hatoms,
            List.cons_append, hread, List.append_assoc]

/-- **Parsing loses, doubles and moves nothing.** The atoms of the tree are the payloads of the words of
the source, in their order. -/
theorem parse_atoms {source : String} {tree : Tree} (h : parse source = .ok tree) :
    tree.atoms = payloads none (Source.lex source) := by
  have hrun : runTokens .start (Source.lex source) = .ok tree := by
    rw [parse, parseTokens] at h
    split at h
    · next hresult =>
      cases h
      exact hresult
    · cases h
  obtain ⟨words, last, htokens, hlast, hwords⟩ := Source.tokensFrom_eq_append 0 source.toList
  rw [Source.lex, Source.lexAll, htokens] at hrun ⊢
  rcases Source.upToLast_cases hlast hwords with ⟨hvalid, hup⟩ | ⟨words, bad, reason, hbad, hvalid, hup⟩
  · rw [hup] at hrun ⊢
    exact behind_start.runTokens hvalid (by simp [hlast, TokenKind.isLast]) hrun
  · -- nothing behind a word that is refused is read
    rw [hup] at hrun ⊢
    exact behind_start.runTokens hvalid (by simp [hbad, TokenKind.isLast]) hrun

/-- A minus between two operands stands for itself, and one in front of a number belongs to it. -/
theorem parse_atoms_signed :
    ∃ tree, parse "tags in own where age - 1 > -2.5 Days order by name" = .ok tree ∧
      tree.atoms = ["tags", "own", "age", "1", "-2.5", "day", "name"] := by
  have hparse : parse "tags in own where age - 1 > -2.5 Days order by name" = .ok
      (.node .query [.node .order [.node .filter [.node .scope [.leaf .relation "tags", .atom "own"],
        .node (.op .greater) [.node (.op .minus) [.leaf .field "age", .leaf .integer "1"],
          .node .interval [.leaf .real "-2.5", .atom "day"]]], .leaf .field "name"]]) := by
    decide +kernel
  refine ⟨_, hparse, (parse_atoms hparse).trans ?_⟩
  decide +kernel

end Grammar

end RelationSql
