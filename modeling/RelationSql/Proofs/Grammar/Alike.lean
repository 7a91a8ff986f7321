import Mathlib.Data.Option.Basic
import Mathlib.Data.List.Forall2
import RelationSql.Grammar.Parse
import RelationSql.Proofs.Fragment.Template
import RelationSql.Proofs.Source.Requoted

/-!
# Parsing sources that differ in their quoted texts

The machine looks at the tags of its open nodes and at the kinds of the tokens, never into a quoted
text. On tokens that differ in quoted texts only it takes the same steps, so both sources are parsed
into trees that differ there only (`Tree.Alike`), or both are refused for the same cause
(`parse_alike`).
-/

namespace RelationSql

open RelationSql.Fragment (Plain)

/-! ## Outcomes -/

/-- Both fail, with faults that belong together, or both succeed, with values that do. -/
inductive SameOutcome {ε α β : Type} (E : ε → ε → Prop) (R : α → β → Prop) :
    Except ε α → Except ε β → Prop where
  | error {fault fault' : ε} (h : E fault fault') : SameOutcome E R (.error fault) (.error fault')
  | ok {a : α} {b : β} (h : R a b) : SameOutcome E R (.ok a) (.ok b)

theorem SameOutcome.bind {ε α β γ δ : Type} {E : ε → ε → Prop} {R : α → β → Prop}
    {S : γ → δ → Prop} {x : Except ε α} {y : Except ε β} {f : α → Except ε γ} {g : β → Except ε δ}
    (h : SameOutcome E R x y) (hnext : ∀ a b, R a b → SameOutcome E S (f a) (g b)) :
    SameOutcome E S (x >>= f) (y >>= g) := by
  cases h with
  | error h => exact .error h
  | ok h => exact hnext _ _ h

theorem SameOutcome.imp {ε α β : Type} {E : ε → ε → Prop} {R S : α → β → Prop} {x : Except ε α}
    {y : Except ε β} (h : SameOutcome E R x y) (hRS : ∀ a b, R a b → S a b) :
    SameOutcome E S x y := by
  cases h with
  | error h => exact .error h
  | ok h => exact .ok (hRS _ _ h)

/-! ## Trees -/

/-- The same tree, but for the contents of quoted texts. The atoms of all other leaves are plain, the
contents of interpolated texts apart, and a call has a method by name. -/
inductive Tree.Alike (P : String → String → Prop) : Tree → Tree → Prop where
  | atom {text : String} (h : Plain text) : Alike P (.atom text) (.atom text)
  | string {l r : String} (h : P l r) : Alike P (.leaf .string l) (.leaf .string r)
  | dstring (content : String) : Alike P (.leaf .dstring content) (.leaf .dstring content)
  | call {t t' : Tree} (ht : Alike P t t') {name : String} (hname : Plain name) :
      Alike P (.node .function [t, .leaf .method name]) (.node .function [t', .leaf .method name])
  | node {tag : Tag} (htag : tag ≠ .function) {ts ts' : List Tree}
      (h : List.Forall₂ (Alike P) ts ts') : Alike P (.node tag ts) (.node tag ts')

variable {P : String → String → Prop}

theorem Tree.Alike.leaf {tag : Tag} (htag : tag ≠ .function) {text : String} (h : Plain text) :
    Tree.Alike P (.leaf tag text) (.leaf tag text) :=
  .node htag (.cons (.atom h) .nil)

theorem Tree.Alike.tag? {t t' : Tree} (h : Tree.Alike P t t') : t'.tag? = t.tag? := by
  cases h <;> rfl

end RelationSql

namespace RelationSql.Grammar

open RelationSql.Fragment (Plain)
open RelationSql.Source (Span Token TokenKind KindAlike TokensAlike)

variable {P : String → String → Prop}

/-! ## Machines -/

/-- The same open node, but for the contents of quoted texts and for its place. -/
structure Frame.Alike (P : String → String → Prop) (f f' : Frame) : Prop where
  tag : f'.tag = f.tag
  noCall : f.tag ≠ .function
  done : List.Forall₂ (Tree.Alike P) f.done f'.done

theorem Frame.Alike.tree {f f' : Frame} (h : f.Alike P f') : Tree.Alike P f.tree f'.tree := by
  unfold Frame.tree
  rw [h.tag]
  exact .node h.noCall (List.rel_reverse h.done)

theorem Frame.Alike.isComplete {f f' : Frame} (h : f.Alike P f') :
    f'.isComplete = f.isComplete := by
  unfold Frame.isComplete
  rw [h.tag, h.done.length_eq]

theorem Frame.Alike.prepend {f f' : Frame} (h : f.Alike P f') {new new' : List Tree}
    (hnew : List.Forall₂ (Tree.Alike P) new new') :
    Frame.Alike P { f with done := new ++ f.done } { f' with done := new' ++ f'.done } :=
  ⟨h.tag, h.noCall, List.rel_append hnew h.done⟩

/-- The same machine, but for the contents of quoted texts and for the places of its nodes. -/
structure Machine.Alike (P : String → String → Prop) (m m' : Machine) : Prop where
  expects : m'.expects = m.expects
  frames : List.Forall₂ (Frame.Alike P) m.frames m'.frames
  root : List.Forall₂ (Tree.Alike P) m.root m'.root

/-- The same cause at any place. -/
def Fault.Alike (fault fault' : Fault) : Prop :=
  fault'.cause = fault.cause

variable {m m' : Machine} {t t' : Tree} {span span' : Span}

theorem rel_map {α β γ δ : Type} {R : α → β → Prop} {S : γ → δ → Prop} {o : Option α} {o' : Option β}
    (h : Option.Rel R o o') {f : α → γ} {g : β → δ} (hfg : ∀ a b, R a b → S (f a) (g b)) :
    Option.Rel S (o.map f) (o'.map g) := by
  cases h with
  | some h => exact .some (hfg _ _ h)
  | none => exact .none

theorem rel_any {α β : Type} {R : α → β → Prop} {o : Option α} {o' : Option β}
    (h : Option.Rel R o o') {p : α → Bool} {q : β → Bool} (hpq : ∀ a b, R a b → q b = p a) :
    o'.any q = o.any p := by
  cases h with
  | some h => exact hpq _ _ h
  | none => rfl

theorem rel_head? {α β : Type} {R : α → β → Prop} {l : List α} {l' : List β}
    (h : List.Forall₂ R l l') : Option.Rel R l.head? l'.head? := by
  cases h with
  | nil => exact .none
  | cons h _ => exact .some h

theorem alike_orNear {α β : Type} {R : α → β → Prop} {o : Option α} {o' : Option β}
    (h : Option.Rel R o o') : SameOutcome Fault.Alike R (orNear span o) (orNear span' o') := by
  cases h with
  | some h => exact .ok h
  | none => exact .error rfl

namespace Machine.Alike

theorem expecting (hm : m.Alike P m') (next : Expect) :
    Machine.Alike P (m.expecting next) (m'.expecting next) :=
  ⟨rfl, hm.frames, hm.root⟩

theorem append (hm : m.Alike P m') (ht : Tree.Alike P t t') :
    Machine.Alike P (m.append t) (m'.append t') := by
  obtain ⟨expects, frames, root⟩ := m
  obtain ⟨expects', frames', root'⟩ := m'
  obtain ⟨rfl, hframes, hroot⟩ := hm
  cases hframes with
  | nil => exact ⟨rfl, .nil, .cons ht hroot⟩
  | cons hf hbelow => exact ⟨rfl, .cons ⟨hf.tag, hf.noCall, .cons ht hf.done⟩ hbelow, hroot⟩

theorem push (hm : m.Alike P m') {f g : Frame} (hf : f.Alike P g) :
    Machine.Alike P (m.push f) (m'.push g) :=
  ⟨hm.expects, .cons hf hm.frames, hm.root⟩

theorem last? (hm : m.Alike P m') : Option.Rel (Tree.Alike P) m.last? m'.last? := by
  obtain ⟨expects, frames, root⟩ := m
  obtain ⟨expects', frames', root'⟩ := m'
  obtain ⟨-, hframes, hroot⟩ := hm
  cases hframes with
  | nil => exact rel_head? hroot
  | cons hf _ => exact rel_head? hf.done

theorem takeLast? (hm : m.Alike P m') :
    Option.Rel (fun r r' => Tree.Alike P r.1 r'.1 ∧ Machine.Alike P r.2 r'.2)
      m.takeLast? m'.takeLast? := by
  obtain ⟨expects, frames, root⟩ := m
  obtain ⟨expects', frames', root'⟩ := m'
  obtain ⟨rfl, hframes, hroot⟩ := hm
  cases hframes with
  | nil =>
    cases hroot with
    | nil => exact .none
    | cons ht hroot => exact .some ⟨ht, rfl, .nil, hroot⟩
  | @cons f f' frames frames' hf hbelow =>
    obtain ⟨tag, opened, done⟩ := f
    obtain ⟨tag', opened', done'⟩ := f'
    obtain ⟨htag, hcall, hdone⟩ := hf
    cases hdone with
    | nil => exact .none
    | cons ht hdone => exact .some ⟨ht, rfl, .cons ⟨htag, hcall, hdone⟩ hbelow, hroot⟩

/-- Both machines close the same nodes. -/
theorem closeFrames {p : Tag → Bool} {new new' root root' : List Tree} {frames frames' : List Frame}
    (hframes : List.Forall₂ (Frame.Alike P) frames frames')
    (hnew : List.Forall₂ (Tree.Alike P) new new') (hroot : List.Forall₂ (Tree.Alike P) root root') :
    Option.Rel (fun r r' => List.Forall₂ (Frame.Alike P) r.1 r'.1 ∧
        List.Forall₂ (Tree.Alike P) r.2 r'.2)
      (Machine.closeFrames p new frames root) (Machine.closeFrames p new' frames' root') := by
  induction hframes generalizing new new' with
  | nil => exact .some ⟨.nil, List.rel_append hnew hroot⟩
  | @cons f f' frames frames' hf hbelow ih =>
    have hreceived := hf.prepend hnew
    have hp : p f'.tag = p f.tag := congrArg p hf.tag
    rw [Machine.closeFrames, Machine.closeFrames, hp, hreceived.isComplete]
    split
    · split
      · exact ih (.cons hreceived.tree .nil)
      · exact .none
    · exact .some ⟨.cons hreceived hbelow, hroot⟩

theorem closeWhile? (hm : m.Alike P m') (p : Tag → Bool) :
    Option.Rel (Machine.Alike P) (m.closeWhile? p) (m'.closeWhile? p) :=
  rel_map (closeFrames hm.frames .nil hm.root) fun _ _ h => ⟨hm.expects, h.1, h.2⟩

theorem closeTier (hm : m.Alike P m') (least : Int) :
    SameOutcome Fault.Alike (Machine.Alike P) (m.closeTier least span) (m'.closeTier least span') :=
  alike_orNear (hm.closeWhile? _)

theorem openOver (hm : m.Alike P m') {tag : Tag} (htag : tag ≠ .function) (next : Expect) :
    SameOutcome Fault.Alike (Machine.Alike P) (m.openOver tag next span)
      (m'.openOver tag next span') := by
  refine (hm.closeTier _).bind fun m₁ m₁' hm₁ => ?_
  refine (alike_orNear hm₁.takeLast?).bind ?_
  rintro ⟨t, m₂⟩ ⟨t', m₂'⟩ ⟨ht, hm₂⟩
  have hpushed := hm₂.push (f := ⟨tag, span, [t]⟩) (g := ⟨tag, span', [t']⟩)
    ⟨rfl, htag, .cons ht .nil⟩
  exact .ok (hpushed.expecting next)

theorem wrapLast (hm : m.Alike P m') {tag : Tag} {more : List Tree}
    (hnode : ∀ t t', Tree.Alike P t t' →
      Tree.Alike P (.node tag (t :: more)) (.node tag (t' :: more))) :
    SameOutcome Fault.Alike (Machine.Alike P) (m.wrapLast tag more span)
      (m'.wrapLast tag more span') := by
  refine (hm.closeTier _).bind fun m₁ m₁' hm₁ => ?_
  refine (alike_orNear hm₁.takeLast?).bind ?_
  rintro ⟨t, m₂⟩ ⟨t', m₂'⟩ ⟨ht, hm₂⟩
  exact .ok (hm₂.append (hnode t t' ht))

/-! ### Questions -/

theorem paren? (hm : m.Alike P m') : Option.Rel (Frame.Alike P) m.paren? m'.paren? := by
  unfold Machine.paren?
  have hframes := hm.frames
  generalize m.frames = frames at hframes ⊢
  generalize m'.frames = frames' at hframes ⊢
  induction hframes with
  | nil => exact .none
  | cons hf _ ih =>
    rw [List.find?_cons, List.find?_cons, hf.tag]
    split
    · exact .some hf
    · exact ih

theorem insideExpression (hm : m.Alike P m') : m'.insideExpression = m.insideExpression :=
  rel_any hm.paren? fun _ _ hf => congrArg (· == Tag.par) hf.tag

theorem waitsForAnd {frames frames' : List Frame}
    (h : List.Forall₂ (Frame.Alike P) frames frames') (above : Bool) :
    Machine.waitsForAnd above frames' = Machine.waitsForAnd above frames := by
  induction h generalizing above with
  | nil => rfl
  | cons hf _ ih => simp only [Machine.waitsForAnd, hf.tag, hf.done.length_eq, ih]

theorem pendingBetween (hm : m.Alike P m') : m'.pendingBetween = m.pendingBetween :=
  waitsForAnd hm.frames false

theorem lastIsNumber (hm : m.Alike P m') : m'.lastIsNumber = m.lastIsNumber :=
  rel_any hm.last? fun _ _ ht => by rw [ht.tag?]

theorem hasFirstLimit (hm : m.Alike P m') : m'.hasFirstLimit = m.hasFirstLimit :=
  rel_any (rel_head? hm.frames) fun _ _ hf => by rw [hf.tag, hf.done.length_eq]

end Machine.Alike

/-! ## Steps -/

/-- The steps lead to the same machine and use up as many tokens, or are refused for the same cause. -/
abbrev StepAlike (P : String → String → Prop) : StepResult → StepResult → Prop :=
  SameOutcome Fault.Alike fun r r' => Machine.Alike P r.1 r'.1 ∧ r'.2 = r.2

variable {token token' : Token} {rest rest' : List Token}

theorem one_alike (hm : m.Alike P m') : StepAlike P (one m) (one m') := .ok ⟨hm, rfl⟩

theorem two_alike (hm : m.Alike P m') : StepAlike P (two m) (two m') := .ok ⟨hm, rfl⟩

theorem reject_alike (token token' : Token) : StepAlike P (reject token) (reject token') := .error rfl

/-- Both machines open the same node and use up its token. -/
theorem Machine.Alike.opens (hm : m.Alike P m') {tag : Tag} (htag : tag ≠ .function)
    {next : Expect} : StepAlike P (m.openOver tag next span >>= one)
      (m'.openOver tag next span' >>= one) :=
  (hm.openOver htag next).bind fun _ _ hm => one_alike hm

/-! ### Names and numbers -/

theorem plain_of_name {name : String} (h : (TokenKind.name name).IsSpelled) : Plain name :=
  Fragment.plain_of_forall (by decide) h

theorem plain_of_digits {digits : String} (h : ∀ c ∈ digits.toList, c.isDigit = true ∨ c = '.') :
    Plain digits :=
  Fragment.plain_of_forall (by decide) h

theorem plain_of_intervalUnit? {word unit : String} (h : intervalUnit? word = some unit) :
    Plain unit := by
  have hunits : ∀ unit ∈ intervalUnits, Plain unit := by decide
  exact hunits unit (List.mem_of_find?_eq_some h)

/-! ### Tokens ahead -/

/-- The next token is the same in both lists, or a quoted text. -/
theorem following_alike (h : TokensAlike P (token :: rest) (token' :: rest')) :
    KindAlike P (following token rest).kind (following token' rest').kind := by
  cases h with
  | cons kind _ hrest =>
    cases hrest with
    | nil => exact kind
    | cons kind _ _ => exact kind

theorem kind_eq_iff {kind kind' k : TokenKind} (h : KindAlike P kind kind')
    (hk : ∀ content, k ≠ .text content) : kind' = k ↔ kind = k := by
  cases h with
  | same _ => rfl
  | text _ => exact iff_of_false (hk _).symm (hk _).symm

/-- The token after the next one. -/
theorem following_drop_alike (h : TokensAlike P (token :: rest) (token' :: rest')) :
    KindAlike P (following (following token rest) (rest.drop 1)).kind
      (following (following token' rest') (rest'.drop 1)).kind := by
  cases h with
  | cons kind _ hrest =>
    cases rest with
    | nil =>
      cases hrest
      exact kind
    | cons next more =>
      cases rest' with
      | nil => cases hrest
      | cons next' more' => exact following_alike hrest

/-- A minus takes the same number into a literal, or none. -/
theorem signedLiteral?_alike (h : TokensAlike P (token :: rest) (token' :: rest'))
    (hkind : token.kind = .symbol .minus) :
    Option.Rel (fun t t' => t' = t ∧ Tree.Alike P t t)
      (signedLiteral? token (following token rest))
      (signedLiteral? token' (following token' rest')) := by
  cases h with
  | cons kind touches hrest =>
    cases hrest with
    | nil =>
      have hkind' := (kind_eq_iff kind (by simp)).2 hkind
      have hnone : ∀ token : Token, token.kind = .symbol .minus → signedLiteral? token token = none := by
        intro token hkind
        unfold signedLiteral?
        rw [hkind]
        split <;> rfl
      rw [following, following, hnone token hkind, hnone token' hkind']
      exact .none
    | @cons next next' _ _ hnext _ _ =>
      have htouches := touches next rfl next' rfl
      obtain ⟨kind, span⟩ := next
      obtain ⟨kind', span'⟩ := next'
      have hsigned : ∀ {tag : Tag} {digits : String}, tag ≠ .function →
          (∀ c ∈ digits.toList, c.isDigit = true ∨ c = '.') →
          Tree.Alike P (.leaf tag ("-" ++ digits)) (.leaf tag ("-" ++ digits)) :=
        fun htag hdigits =>
          .leaf htag (Fragment.plain_append.2 ⟨by decide, plain_of_digits hdigits⟩)
      rw [following, following]
      unfold signedLiteral?
      rw [htouches]
      split
      · cases hnext with
        | text _ => exact .none
        | same hspelled =>
          cases kind with
          | integer digits => exact .some ⟨rfl, hsigned (by simp) hspelled⟩
          | real digits => exact .some ⟨rfl, hsigned (by simp) hspelled⟩
          | _ => exact .none
      · exact .none

/-! ### Clauses and relations -/

namespace Machine.Alike

theorem closeParen (hm : m.Alike P m') : StepAlike P (m.closeParen token) (m'.closeParen token') := by
  refine (hm.closeTier _).bind ?_
  rintro ⟨expects, frames, root⟩ ⟨expects', frames', root'⟩ ⟨-, hframes, hroot⟩
  cases hframes with
  | nil => exact reject_alike _ _
  | @cons f f' frames frames' hf hbelow =>
    have hdone : f'.done.isEmpty = f.done.isEmpty := by
      rw [Bool.eq_iff_iff, List.isEmpty_iff_length_eq_zero, List.isEmpty_iff_length_eq_zero,
        hf.done.length_eq]
    have hnext : afterParen f'.tag = afterParen f.tag := congrArg afterParen hf.tag
    have hclosed (next : Expect) : Machine.Alike P
        (((⟨expects, frames, root⟩ : Machine).expecting next).append f.tree)
        (((⟨expects', frames', root'⟩ : Machine).expecting next).append f'.tree) :=
      Machine.Alike.append ⟨rfl, hbelow, hroot⟩ hf.tree
    dsimp only
    rw [hf.tag, hdone]
    split
    · exact one_alike (hclosed _)
    · exact reject_alike _ _

/-- The same clause starts. -/
theorem clauseOf? {next next' : Token} (hkind : KindAlike P token.kind token'.kind)
    (hnext : KindAlike P next.kind next'.kind) :
    SameOutcome (fun _ _ => True) (fun c c' => c' = c ∧ c.1 ≠ .function)
      (Machine.clauseOf? token next) (Machine.clauseOf? token' next') := by
  obtain ⟨kind, span⟩ := token
  obtain ⟨kind', span'⟩ := token'
  have hby := kind_eq_iff hnext (k := .keyword .by_) (by simp)
  cases hkind with
  | text _ => exact .error trivial
  | same _ =>
    cases kind with
    | keyword keyword =>
      unfold Machine.clauseOf?
      simp only [hby]
      cases keyword with
      | limit => exact .ok ⟨rfl, by simp⟩
      | offset => exact .ok ⟨rfl, by simp⟩
      | paginate => exact .ok ⟨rfl, by simp⟩
      | having => exact .ok ⟨rfl, by simp⟩
      | order =>
        dsimp only
        split
        · exact .ok ⟨rfl, by simp⟩
        · exact .error trivial
      | group =>
        dsimp only
        split
        · exact .ok ⟨rfl, by simp⟩
        · exact .error trivial
      | _ => exact .error trivial
    | _ => exact .error trivial

theorem clause (hm : m.Alike P m') (h : TokensAlike P (token :: rest) (token' :: rest')) :
    StepAlike P (m.clause token rest) (m'.clause token' rest') := by
  have hkind := h.head
  have hparen := kind_eq_iff hkind (k := .symbol .rightParen) (by simp)
  have hclause := clauseOf? hkind (following_alike h)
  unfold Machine.clause
  simp only [hparen, hm.insideExpression]
  split
  · exact hm.closeParen
  · split
    · exact reject_alike _ _
    · revert hclause
      generalize Machine.clauseOf? token (following token rest) = found
      generalize Machine.clauseOf? token' (following token' rest') = found'
      rintro (_ | ⟨rfl, htag⟩)
      · exact reject_alike _ _
      · exact (hm.openOver htag _).bind fun _ _ hm => .ok ⟨hm, rfl⟩

theorem relation (hm : m.Alike P m') (hkind : KindAlike P token.kind token'.kind) :
    StepAlike P (m.relation token) (m'.relation token') := by
  obtain ⟨kind, span⟩ := token
  obtain ⟨kind', span'⟩ := token'
  cases hkind with
  | text _ => exact reject_alike _ _
  | same hspelled =>
    cases kind with
    | name name =>
      refine (hm.closeTier _).bind fun m₁ m₁' hm₁ => ?_
      have hpushed := hm₁.push (f := ⟨.relation, span, [.atom name]⟩)
        (g := ⟨.relation, span', [.atom name]⟩)
        ⟨rfl, by simp, .cons (.atom (plain_of_name hspelled)) .nil⟩
      exact one_alike (hpushed.expecting _)
    | symbol symbol =>
      cases symbol with
      | leftParen => exact one_alike (hm.push ⟨rfl, by simp, .nil⟩)
      | _ => exact reject_alike _ _
    | _ => exact reject_alike _ _

theorem scope (hm : m.Alike P m') {next next' : Token}
    (hnext : KindAlike P next.kind next'.kind) :
    StepAlike P (m.scope token next) (m'.scope token' next') := by
  obtain ⟨kind, span⟩ := next
  obtain ⟨kind', span'⟩ := next'
  cases hnext with
  | text _ => exact reject_alike _ _
  | same hspelled =>
    cases kind with
    | name name =>
      have hname : Tree.Alike P (.atom name) (.atom name) := .atom (plain_of_name hspelled)
      refine (hm.wrapLast fun t t' ht => .node (by simp) (.cons ht (.cons hname .nil))).bind ?_
      exact fun m₁ m₁' hm₁ => two_alike (hm₁.expecting _)
    | _ => exact reject_alike _ _

theorem afterRelation (hm : m.Alike P m') (h : TokensAlike P (token :: rest) (token' :: rest')) :
    StepAlike P (m.afterRelation token rest) (m'.afterRelation token' rest') := by
  have hkind := h.head
  have hnext := following_alike h
  have hclause := hm.clause h
  obtain ⟨kind, span⟩ := token
  obtain ⟨kind', span'⟩ := token'
  cases hkind with
  | text _ => exact hclause
  | same _ =>
    cases kind with
    | keyword keyword =>
      cases keyword with
      | in_ => exact hm.scope hnext
      | where_ => exact hm.opens (by simp)
      | from_ => exact hm.opens (by simp)
      | or => exact hm.opens (by simp)
      | and => exact hm.opens (by simp)
      | _ => exact hclause
    | _ => exact hclause

/-! ### Expressions -/

theorem addOperand (hm : m.Alike P m') (ht : Tree.Alike P t t') :
    Machine.Alike P (m.addOperand t) (m'.addOperand t') :=
  (hm.append ht).expecting _

theorem openOperand (hm : m.Alike P m') (hkind : KindAlike P token.kind token'.kind) :
    StepAlike P (m.openOperand token) (m'.openOperand token') := by
  obtain ⟨kind, span⟩ := token
  obtain ⟨kind', span'⟩ := token'
  have hprefix (o : Operator) : StepAlike P (one (m.push ⟨.op o, span, []⟩))
      (one (m'.push ⟨.op o, span', []⟩)) :=
    one_alike (hm.push ⟨rfl, by simp, .nil⟩)
  cases hkind with
  | text _ => exact reject_alike _ _
  | same _ =>
    cases kind with
    | symbol symbol =>
      cases symbol with
      | leftParen => exact one_alike (hm.push ⟨rfl, by simp, .nil⟩)
      | bang => exact hprefix _
      | minus => exact hprefix _
      | tilde => exact hprefix _
      | _ => exact reject_alike _ _
    | keyword keyword =>
      cases keyword with
      | not => exact hprefix _
      | _ => exact reject_alike _ _
    | _ => exact reject_alike _ _

theorem operand (hP : ∀ content, P content content) (hm : m.Alike P m')
    (h : TokensAlike P (token :: rest) (token' :: rest')) :
    StepAlike P (m.operand token rest) (m'.operand token' rest') := by
  have hkind := h.head
  have hopen := hm.openOperand hkind
  have hsigned := signedLiteral?_alike h
  obtain ⟨kind, span⟩ := token
  obtain ⟨kind', span'⟩ := token'
  cases hkind with
  | text hcontent => exact one_alike (hm.addOperand (.string hcontent))
  | same hspelled =>
    cases kind with
    | integer digits =>
      exact one_alike (hm.addOperand (.leaf (by simp) (plain_of_digits hspelled)))
    | real digits =>
      exact one_alike (hm.addOperand (.leaf (by simp) (plain_of_digits hspelled)))
    | text content => exact one_alike (hm.addOperand (.string (hP content)))
    | template content => exact one_alike (hm.addOperand (.dstring content))
    | name name => exact one_alike (hm.addOperand (.leaf (by simp) (plain_of_name hspelled)))
    | keyword keyword =>
      cases keyword with
      | null => exact one_alike (hm.addOperand (.node (by simp) .nil))
      | _ => exact hopen
    | symbol symbol =>
      cases symbol with
      | minus =>
        have hliteral := hsigned rfl
        unfold Machine.operand
        dsimp only
        revert hliteral
        generalize signedLiteral? _ _ = literal
        generalize signedLiteral? _ _ = literal'
        rintro (⟨rfl, ht⟩ | _)
        · exact two_alike (hm.addOperand ht)
        · exact hopen
      | _ => exact hopen
    | _ => exact hopen

/-- The same operator may be negated. -/
theorem negatable?_eq {kind kind' : TokenKind} (h : KindAlike P kind kind') :
    negatable? kind' = negatable? kind := by
  cases h <;> rfl

theorem infixOperator?_eq {kind kind' : TokenKind} (h : KindAlike P kind kind') :
    infixOperator? kind' = infixOperator? kind := by
  cases h <;> rfl

theorem openNegated (hm : m.Alike P m') (o : Operator) {next next' : Token} :
    StepAlike P (m.openNegated o token next) (m'.openNegated o token' next') := by
  refine (hm.closeTier _).bind fun m₁ m₁' hm₁ => ?_
  refine (alike_orNear hm₁.takeLast?).bind ?_
  rintro ⟨t, m₂⟩ ⟨t', m₂'⟩ ⟨ht, hm₂⟩
  have hnot := hm₂.push (f := ⟨.op .not, token.span, []⟩) (g := ⟨.op .not, token'.span, []⟩)
    ⟨rfl, by simp, .nil⟩
  have hpushed := hnot.push (f := ⟨.op o, next.span, [t]⟩) (g := ⟨.op o, next'.span, [t']⟩)
    ⟨rfl, by simp, .cons ht .nil⟩
  exact two_alike (hpushed.expecting _)

theorem negated (hm : m.Alike P m') (h : TokensAlike P (token :: rest) (token' :: rest')) :
    StepAlike P (m.negated token rest) (m'.negated token' rest') := by
  have hparen := kind_eq_iff (following_drop_alike h) (k := .symbol .leftParen) (by simp)
  unfold Machine.negated
  simp only [negatable?_eq (following_alike h), ne_eq, hparen]
  split
  · exact reject_alike _ _
  · split
    · exact reject_alike _ _
    · exact hm.openNegated _

theorem comma (hm : m.Alike P m') : StepAlike P (m.comma token) (m'.comma token') := by
  unfold Machine.comma
  rw [hm.insideExpression]
  split
  · exact (alike_orNear (hm.closeWhile? _)).bind fun _ _ hm => one_alike (hm.expecting _)
  · exact reject_alike _ _

theorem method (hm : m.Alike P m') {next next' : Token}
    (hnext : KindAlike P next.kind next'.kind) :
    StepAlike P (m.method token next) (m'.method token' next') := by
  obtain ⟨kind, span⟩ := next
  obtain ⟨kind', span'⟩ := next'
  cases hnext with
  | text _ => exact reject_alike _ _
  | same hspelled =>
    cases kind with
    | name name =>
      refine (hm.wrapLast fun t t' ht => .call ht (plain_of_name hspelled)).bind ?_
      exact fun m₁ m₁' hm₁ => two_alike hm₁
    | _ => exact reject_alike _ _

theorem interval (hm : m.Alike P m') (word : String) :
    StepAlike P (m.interval word token) (m'.interval word token') := by
  unfold Machine.interval
  split
  · next unit hunit =>
    rw [hm.lastIsNumber]
    split
    · have hatom : Tree.Alike P (.atom unit) (.atom unit) := .atom (plain_of_intervalUnit? hunit)
      refine (hm.wrapLast fun t t' ht => .node (by simp) (.cons ht (.cons hatom .nil))).bind ?_
      exact fun m₁ m₁' hm₁ => one_alike hm₁
    · exact reject_alike _ _
  · exact reject_alike _ _

theorem infixOrClause (hm : m.Alike P m') (h : TokensAlike P (token :: rest) (token' :: rest')) :
    StepAlike P (m.infixOrClause token rest) (m'.infixOrClause token' rest') := by
  have hkind := h.head
  unfold Machine.infixOrClause
  rw [infixOperator?_eq hkind]
  split
  · exact hm.opens (by simp)
  · exact hm.clause h

theorem betweenAnd (hm : m.Alike P m') : StepAlike P (m.betweenAnd token) (m'.betweenAnd token') :=
  (alike_orNear (hm.closeWhile? _)).bind fun _ _ hm => one_alike (hm.expecting _)

theorem afterOperand (hm : m.Alike P m') (h : TokensAlike P (token :: rest) (token' :: rest')) :
    StepAlike P (m.afterOperand token rest) (m'.afterOperand token' rest') := by
  have hkind := h.head
  have hnext := following_alike h
  have hparen := kind_eq_iff hnext (k := .symbol .leftParen) (by simp)
  have hinfix := hm.infixOrClause h
  have hnegated := hm.negated h
  obtain ⟨kind, span⟩ := token
  obtain ⟨kind', span'⟩ := token'
  cases hkind with
  | text _ => exact hinfix
  | same hspelled =>
    cases kind with
    | keyword keyword =>
      cases keyword with
      | and =>
        unfold Machine.afterOperand
        simp only [hm.pendingBetween]
        split
        · exact hm.betweenAnd
        · exact hinfix
      | not => exact hnegated
      | is => exact hm.opens (by simp)
      | between => exact hm.opens (by simp)
      | in_ =>
        unfold Machine.afterOperand
        simp only [hparen]
        split
        · exact hm.opens (by simp)
        · exact reject_alike _ _
      | from_ =>
        unfold Machine.afterOperand
        simp only [hm.insideExpression]
        split
        · exact reject_alike _ _
        · exact hm.opens (by simp)
      | _ => exact hinfix
    | symbol symbol =>
      cases symbol with
      | dot => exact hm.method hnext
      | comma => exact hm.comma
      | _ => exact hinfix
    | name word => exact hm.interval word
    | _ => exact hinfix

/-! ### Values and items of clauses -/

theorem clauseValue (hm : m.Alike P m') (next : Expect) (hkind : KindAlike P token.kind token'.kind) :
    StepAlike P (m.clauseValue next token) (m'.clauseValue next token') := by
  obtain ⟨kind, span⟩ := token
  obtain ⟨kind', span'⟩ := token'
  cases hkind with
  | text _ => exact reject_alike _ _
  | same hspelled =>
    cases kind with
    | integer digits =>
      exact one_alike ((hm.append (.leaf (by simp) (plain_of_digits hspelled))).expecting _)
    | _ => exact reject_alike _ _

theorem clauseName (hm : m.Alike P m') {tag : Tag} (htag : tag ≠ .function) (next : Expect)
    (hkind : KindAlike P token.kind token'.kind) :
    StepAlike P (m.clauseName tag next token) (m'.clauseName tag next token') := by
  obtain ⟨kind, span⟩ := token
  obtain ⟨kind', span'⟩ := token'
  cases hkind with
  | text _ => exact reject_alike _ _
  | same hspelled =>
    cases kind with
    | name name =>
      exact one_alike ((hm.append (.leaf htag (plain_of_name hspelled))).expecting _)
    | _ => exact reject_alike _ _

theorem afterOrderItem (hm : m.Alike P m') (h : TokensAlike P (token :: rest) (token' :: rest')) :
    StepAlike P (m.afterOrderItem token rest) (m'.afterOrderItem token' rest') := by
  have hclause := hm.clause h
  have hdirection {tag : Tag} (htag : tag ≠ .function) {span span' : Span} : StepAlike P
      (do let m ← m.wrapLast tag [] span; one (m.expecting .orderSeparator))
      (do let m ← m'.wrapLast tag [] span'; one (m.expecting .orderSeparator)) :=
    (hm.wrapLast fun t t' ht => .node htag (.cons ht .nil)).bind
      fun _ _ hm => one_alike (hm.expecting _)
  have hkind := h.head
  obtain ⟨kind, span⟩ := token
  obtain ⟨kind', span'⟩ := token'
  cases hkind with
  | text _ => exact hclause
  | same _ =>
    cases kind with
    | keyword keyword =>
      cases keyword with
      | asc => exact hdirection (by simp)
      | desc => exact hdirection (by simp)
      | _ => exact hclause
    | symbol symbol =>
      cases symbol with
      | comma => exact one_alike (hm.expecting _)
      | _ => exact hclause
    | _ => exact hclause

theorem separatorOrClause (hm : m.Alike P m') (allowed : Bool) (next : Expect)
    (h : TokensAlike P (token :: rest) (token' :: rest')) :
    StepAlike P (m.separatorOrClause allowed next token rest)
      (m'.separatorOrClause allowed next token' rest') := by
  have hkind := h.head
  have hcomma := kind_eq_iff hkind (k := .symbol .comma) (by simp)
  unfold Machine.separatorOrClause
  simp only [hcomma]
  split
  · exact one_alike (hm.expecting _)
  · exact hm.clause h

/-- **Both machines take the same step.** -/
theorem step (hP : ∀ content, P content content) (hm : m.Alike P m')
    (h : TokensAlike P (token :: rest) (token' :: rest')) :
    StepAlike P (m.step token rest) (m'.step token' rest') := by
  have hkind := h.head
  unfold Machine.step
  rw [hm.expects]
  cases m.expects with
  | relation => exact hm.relation hkind
  | afterRelation => exact hm.afterRelation h
  | operand => exact hm.operand hP h
  | afterOperand => exact hm.afterOperand h
  | limitValue => exact hm.clauseValue _ hkind
  | afterLimit =>
    dsimp only
    rw [hm.hasFirstLimit]
    exact hm.separatorOrClause _ _ h
  | offsetValue => exact hm.clauseValue _ hkind
  | pageName => exact hm.clauseName (by simp) _ hkind
  | orderItem => exact hm.clauseName (by simp) _ hkind
  | afterOrderItem => exact hm.afterOrderItem h
  | orderSeparator => exact hm.separatorOrClause _ _ h
  | groupItem => exact hm.clauseName (by simp) _ hkind
  | afterGroupItem => exact hm.separatorOrClause _ _ h
  | clauseEnd => exact hm.clause h

end Machine.Alike

/-! ## Whole sources -/

/-- Both machines may end at the same place, and close what is open. -/
theorem Machine.Alike.finish (hm : m.Alike P m') (last last' : Token) :
    SameOutcome Fault.Alike (Tree.Alike P) (m.finish last) (m'.finish last') := by
  have hframes : m'.frames.isEmpty = m.frames.isEmpty := by
    rw [Bool.eq_iff_iff, List.isEmpty_iff_length_eq_zero, List.isEmpty_iff_length_eq_zero,
      hm.frames.length_eq]
  have hroot : m'.root.isEmpty = m.root.isEmpty := by
    rw [Bool.eq_iff_iff, List.isEmpty_iff_length_eq_zero, List.isEmpty_iff_length_eq_zero,
      hm.root.length_eq]
  have hparen := hm.paren?
  unfold Machine.finish
  rw [hm.expects, hframes, hroot]
  split
  · revert hparen
    generalize m.paren? = open_
    generalize m'.paren? = open_'
    rintro (_ | _)
    · exact .error rfl
    · refine (alike_orNear (hm.closeWhile? _)).bind fun m₁ m₁' hm₁ => ?_
      exact .ok (.node (by simp) (List.rel_reverse hm₁.root))
  · exact .error rfl

/-- At the end of the source the machine finishes. -/
theorem runTokens_finish (m : Machine) {last : Token} (hlast : last.kind = .finish) :
    runTokens m [last] = m.finish last := by
  rw [runTokens]
  simp only [hlast]

/-- The run over a token that is not the last: the step over it, and then the rest. -/
theorem runTokens_cons (hkind : token.kind.isLast = false) :
    runTokens m (token :: rest) =
      m.step token rest >>= fun r => runTokens r.1 (if r.2 then rest.tail else rest) := by
  conv => lhs; unfold runTokens
  split
  · next heq => simp [heq, TokenKind.isLast] at hkind
  · next heq => simp [heq, TokenKind.isLast] at hkind
  · split
    · next heq =>
      rw [heq]
      rfl
    · next heq =>
      rw [heq]
      rfl
    · next heq =>
      rw [heq]
      cases rest <;> rfl

/-- **Both machines run to the same end.** -/
theorem runTokens_alike (hP : ∀ content, P content content) {tokens tokens' : List Token}
    (hm : m.Alike P m') (h : TokensAlike P tokens tokens') :
    SameOutcome Fault.Alike (Tree.Alike P) (runTokens m tokens) (runTokens m' tokens') := by
  -- a step may use up two tokens, so the induction is on the number of tokens
  induction hlength : tokens.length using Nat.strongRecOn generalizing m m' tokens tokens' with
  | ind length ih =>
    subst hlength
    cases h with
    | nil => exact .error rfl
    | @cons token token' rest rest' kind touches hrest =>
      have htoken := TokensAlike.cons kind touches hrest
      cases hlast : token.kind.isLast with
      | false =>
        rw [runTokens_cons hlast, runTokens_cons (kind.isLast.trans hlast)]
        refine (hm.step hP htoken).bind ?_
        rintro ⟨m₁, used⟩ ⟨m₁', used'⟩ ⟨hm₁, hused⟩
        obtain rfl : used' = used := hused
        cases used' with
        | false => exact ih _ (by simp) hm₁ hrest rfl
        | true => exact ih _ (by grind) hm₁ hrest.tail rfl
      | true =>
        obtain ⟨first, span⟩ := token
        obtain ⟨first', span'⟩ := token'
        cases kind with
        | text _ => cases hlast
        | same _ =>
          cases first with
          | invalid reason => exact .error rfl
          | finish => exact hm.finish _ _
          | _ => cases hlast

/-- **Sources that differ in quoted texts only are parsed into trees that differ there only**, or they
are refused for the same cause. -/
theorem parse_alike (hP : ∀ content, P content content) {source source' : String}
    (h : TokensAlike P (Source.lex source) (Source.lex source')) :
    SameOutcome (fun fault fault' : SyntaxError => fault'.cause = fault.cause) (Tree.Alike P)
      (parse source) (parse source') := by
  have hrun : SameOutcome Fault.Alike (Tree.Alike P) (parseTokens (Source.lex source))
      (parseTokens (Source.lex source')) :=
    runTokens_alike hP ⟨rfl, .nil, .nil⟩ h
  unfold parse
  revert hrun
  generalize parseTokens (Source.lex source) = result
  generalize parseTokens (Source.lex source') = result'
  rintro (hcause | ht)
  · exact .error hcause
  · exact .ok ht

/-- Other contents of quoted texts change nothing but the contents in the tree. -/
theorem parse_alike_of_requoted (hP : ∀ content, P content content) {swaps : List (String × String)}
    (hswaps : ∀ l r, (l, r) ∈ swaps → P l r) {source source' : String}
    (h : Source.Requoted swaps source.toList source'.toList) :
    SameOutcome (fun fault fault' : SyntaxError => fault'.cause = fault.cause) (Tree.Alike P)
      (parse source) (parse source') :=
  parse_alike hP ((Source.tokensAlike_of_requoted h 0 0).imp hswaps).upToLast

/-- The atoms of a parsed tree are what a source can write. -/
theorem alike_self_of_parse (hP : ∀ content, P content content) {source : String} {tree : Tree}
    (h : parse source = .ok tree) : Tree.Alike P tree tree := by
  have hself := parse_alike_of_requoted hP (by simp) (Source.requoted_self source.toList)
  rw [h] at hself
  cases hself with
  | ok hself => exact hself

end RelationSql.Grammar
