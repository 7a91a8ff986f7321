import Mathlib.Data.List.Forall2
import RelationSql.Grammar.Parse
import RelationSql.Proofs.Grammar.Alike
import RelationSql.Proofs.Grammar.Moves

/-!
# Texts inside others

A text in parentheses, and the condition behind a `where`, are read on top of what is already open. The
machine takes the same steps there as on an empty stack: the innermost node of the surroundings receives
the trees that would otherwise stand outside all nodes, and nothing in the text closes it
(`Inside.step`). So a text that is right on its own is read to its end (`Inside.run`), and all it has
left open is closed by whatever closes the innermost node of the surroundings (`Inside.closeWhile?_end`).
-/

namespace RelationSql.Grammar

open RelationSql.Source (Span Token TokenKind)

/-! ## Surroundings -/

/-- What is open around a text. -/
structure Surroundings where
  /-- The node that receives the text. -/
  frame : Frame
  below : List Frame
  /-- The trees outside all nodes. -/
  outside : List Tree
  place : frame.tag = .clausePar ∨ frame.tag = .filter
  /-- The node stands in no parenthesis of an expression. -/
  clause : (((frame :: below).find? fun f => f.tag.isParen).any fun f => f.tag == .par) = false

/-- Does the word start a clause behind the condition it stands in? -/
def startsClause : TokenKind → Bool
  | .keyword .from_ | .keyword .limit | .keyword .offset | .keyword .paginate | .keyword .having
  | .keyword .order | .keyword .group => true
  | _ => false

namespace Surroundings

variable (s : Surroundings)

/-- The node that receives the text, with the trees it has received. -/
def receiving (trees : List Tree) : Frame :=
  ⟨s.frame.tag, s.frame.opened, trees ++ s.frame.done⟩

/-- May a node of this tag be open in the text? In a condition, all nodes are those of expressions. -/
def Carries (tag : Tag) : Prop :=
  tag = .par ∨ tag = .clausePar ∧ s.frame.tag = .clausePar ∨ tier s.frame.tag < tier tag

/-- May the text be in this state? A condition is in those of expressions. -/
def Allows (expects : Expect) : Prop :=
  s.frame.tag = .clausePar ∨ expects = .operand ∨ expects = .afterOperand

/-- May the text hold this word? A condition holds none that starts a clause. -/
def Admits (kind : TokenKind) : Prop :=
  s.frame.tag = .clausePar ∨ startsClause kind = false

variable {s}

theorem tier_lt {least : Int} (hleast : 13 < least) : tier s.frame.tag < least := by
  rcases s.place with h | h <;> rw [h]
  · exact Int.lt_trans (by decide) hleast
  · exact hleast

theorem tier_lt_of_par (h : s.frame.tag = .clausePar) {least : Int} (hleast : 0 ≤ least) :
    tier s.frame.tag < least := by
  rw [h]
  exact Int.lt_of_lt_of_le (by decide) hleast

theorem carries_op (o : Operator) : s.Carries (.op o) :=
  .inr (.inr (tier_lt (Int.lt_of_lt_of_le (by decide) (operatorTier_bounds o).1)))

theorem allows_operand : s.Allows .operand := .inr (.inl rfl)

theorem allows_afterOperand : s.Allows .afterOperand := .inr (.inr rfl)

/-- What is neither a state of expressions nor the like is met in parentheses only. -/
theorem par_of_allows {expects : Expect} (h : s.Allows expects) (hne : expects ≠ .operand)
    (hne' : expects ≠ .afterOperand) : s.frame.tag = .clausePar :=
  h.resolve_right (not_or.2 ⟨hne, hne'⟩)

end Surroundings

/-! ## Success -/

/-- What succeeds here succeeds there, with a value that belongs to it. -/
def Follows {α β : Type} (R : α → β → Prop) (x : Except Fault α) (y : Except Fault β) : Prop :=
  ∀ a, x = .ok a → ∃ b, y = .ok b ∧ R a b

namespace Follows

variable {α β γ δ : Type} {R : α → β → Prop} {S : γ → δ → Prop}

theorem ok {a : α} {b : β} (h : R a b) : Follows R (.ok a) (.ok b) := by
  rintro _ ⟨⟩
  exact ⟨b, rfl, h⟩

theorem error (fault : Fault) (y : Except Fault β) : Follows R (.error fault) y := nofun

theorem bind {x : Except Fault α} {y : Except Fault β} (h : Follows R x y)
    {f : α → Except Fault γ} {g : β → Except Fault δ} (hnext : ∀ a b, R a b → Follows S (f a) (g b)) :
    Follows S (x >>= f) (y >>= g) := by
  intro c hc
  obtain ⟨a, rfl, hfa⟩ := bind_eq_ok hc
  obtain ⟨b, rfl, hab⟩ := h a rfl
  exact hnext a b hab c hfa

theorem orNear {o : Option α} {o' : Option β} {span span' : Span}
    (h : ∀ a, o = some a → ∃ b, o' = some b ∧ R a b) :
    Follows R (orNear span o) (Grammar.orNear span' o') := by
  intro a ha
  obtain ⟨b, rfl, hab⟩ := h a (ok_of_orNear ha)
  exact ⟨b, rfl, hab⟩

end Follows

/-! ## The machine inside its surroundings -/

/-- The same open node, opened at any place. -/
structure Frame.Same (f g : Frame) : Prop where
  tag : g.tag = f.tag
  done : g.done = f.done

theorem Frame.Same.tree {f g : Frame} (h : f.Same g) : g.tree = f.tree := by
  rw [Frame.tree, Frame.tree, h.tag, h.done]

theorem Frame.Same.isComplete {f g : Frame} (h : f.Same g) : g.isComplete = f.isComplete := by
  rw [Frame.isComplete, Frame.isComplete, h.tag, h.done]

theorem Frame.Same.prepend {f g : Frame} (h : f.Same g) (new : List Tree) :
    Frame.Same { f with done := new ++ f.done } { g with done := new ++ g.done } :=
  ⟨h.tag, congrArg (new ++ ·) h.done⟩

/-- The second machine is the first one inside the surroundings. -/
inductive Machine.Inside (s : Surroundings) : Machine → Machine → Prop where
  | mk {expects : Expect} {frames above : List Frame} {root : List Tree}
      (hsame : List.Forall₂ Frame.Same frames above) (hcarried : ∀ f ∈ frames, s.Carries f.tag)
      (hallowed : s.Allows expects) :
      Inside s ⟨expects, frames, root⟩ ⟨expects, above ++ s.receiving root :: s.below, s.outside⟩

variable {s : Surroundings} {m m' m₁ : Machine} {t : Tree} {span span' : Span}

/-- Closing that does not reach the surroundings is the same inside them. -/
theorem closeFrames_inside {p : Tag → Bool} {new root left : List Tree}
    {frames above kept : List Frame} (hframes : List.Forall₂ Frame.Same frames above)
    (h : Machine.closeFrames p new frames root = some (kept, left))
    (hstop : kept ≠ [] ∨ p s.frame.tag = false) :
    ∃ above', List.Forall₂ Frame.Same kept above' ∧
      Machine.closeFrames p new (above ++ s.receiving root :: s.below) s.outside =
        some (above' ++ s.receiving left :: s.below, s.outside) ∧
      ∀ f ∈ kept, ∃ g ∈ frames, g.tag = f.tag := by
  induction hframes generalizing new with
  | nil =>
    cases h
    have hp : p (s.receiving root).tag = false := hstop.resolve_left fun hne => hne rfl
    refine ⟨[], .nil, ?_, by simp⟩
    rw [List.nil_append, Machine.closeFrames_stop hp]
    simp [Surroundings.receiving]
  | @cons f g frames above hf hbelow ih =>
    have hsame := hf.prepend new
    have hp' : p g.tag = p f.tag := congrArg p hf.tag
    rw [Machine.closeFrames] at h
    rw [List.cons_append, Machine.closeFrames]
    simp only [hsame.isComplete, hsame.tree, hp']
    split at h
    · next hp =>
      rw [if_pos hp]
      split at h
      · next hcomplete =>
        rw [if_pos hcomplete]
        obtain ⟨above', hkept, hclose, hmem⟩ := ih h
        refine ⟨above', hkept, hclose, fun f hf => ?_⟩
        obtain ⟨g, hg, htag⟩ := hmem f hf
        exact ⟨g, List.mem_cons_of_mem _ hg, htag⟩
      · cases h
    · next hp =>
      cases h
      rw [if_neg hp]
      refine ⟨_, .cons hsame hbelow, rfl, ?_⟩
      rw [List.forall_mem_cons]
      exact ⟨⟨f, List.mem_cons_self, rfl⟩, fun g hg => ⟨g, List.mem_cons_of_mem _ hg, rfl⟩⟩

/-- Where nothing is left open, everything was closed. -/
theorem forall_of_closeFrames {p : Tag → Bool} {new root left : List Tree} {frames : List Frame}
    (h : Machine.closeFrames p new frames root = some ([], left)) : ∀ f ∈ frames, p f.tag = true := by
  induction frames generalizing new with
  | nil => simp
  | cons f frames ih =>
    rw [Machine.closeFrames] at h
    split at h
    · next hp =>
      split at h
      · exact List.forall_mem_cons.2 ⟨hp, ih h⟩
      · cases h
    · cases h

namespace Machine.Inside

variable (hm : m.Inside s m')

include hm

/-! ### Moves -/

theorem expecting {next : Expect} (hnext : s.Allows next) :
    Machine.Inside s (m.expecting next) (m'.expecting next) := by
  cases hm with
  | mk hsame hcarried _ => exact .mk hsame hcarried hnext

theorem expects_eq : m'.expects = m.expects := by
  cases hm
  rfl

theorem allowed : s.Allows m.expects := by
  cases hm
  assumption

theorem append (t : Tree) : Machine.Inside s (m.append t) (m'.append t) := by
  cases hm with
  | mk hsame hcarried hallowed =>
    cases hsame with
    | nil => exact .mk .nil hcarried hallowed
    | cons hf hbelow =>
      refine .mk (.cons (hf.prepend [t]) hbelow) ?_ hallowed
      exact List.forall_mem_cons.2 (List.forall_mem_cons.1 hcarried)

theorem push {f g : Frame} (hf : f.Same g) (hcarries : s.Carries f.tag) :
    Machine.Inside s (m.push f) (m'.push g) := by
  cases hm with
  | mk hsame hcarried hallowed =>
    exact .mk (.cons hf hsame) (List.forall_mem_cons.2 ⟨hcarries, hcarried⟩) hallowed

/-- Closing that does not reach the surroundings. -/
theorem closeWhile? {p : Tag → Bool} (h : m.closeWhile? p = some m₁)
    (hstop : m₁.frames ≠ [] ∨ p s.frame.tag = false) :
    ∃ m₁', m'.closeWhile? p = some m₁' ∧ m₁.Inside s m₁' := by
  cases hm with
  | mk hsame hcarried hallowed =>
    obtain ⟨⟨kept, left⟩, hclose, rfl⟩ := Option.map_eq_some_iff.1 h
    obtain ⟨above', hkept, hclose', hmem⟩ := closeFrames_inside hsame hclose hstop
    refine ⟨_, Option.map_eq_some_iff.2 ⟨_, hclose', rfl⟩, .mk hkept ?_ hallowed⟩
    intro f hf
    obtain ⟨g, hg, htag⟩ := hmem f hf
    exact htag ▸ hcarried g hg

theorem closeTier {least : Int} (hleast : tier s.frame.tag < least) :
    Follows (Machine.Inside s) (m.closeTier least span) (m'.closeTier least span') := by
  apply Follows.orNear
  intro m₁ h
  have hstop : decide (least ≤ tier s.frame.tag) = false := by simpa using hleast
  exact hm.closeWhile? h (.inr hstop)

theorem takeLast? (t : Tree) (h : m.takeLast? = some (t, m₁)) :
    ∃ m₁', m'.takeLast? = some (t, m₁') ∧ m₁.Inside s m₁' := by
  cases hm with
  | @mk _ _ _ root hsame hcarried hallowed =>
    cases hsame with
    | nil =>
      cases root with
      | nil => cases h
      | cons u root =>
        cases h
        exact ⟨_, rfl, .mk .nil hcarried hallowed⟩
    | @cons f g frames above hf hbelow =>
      obtain ⟨tag, opened, done⟩ := f
      obtain ⟨tag', opened', done'⟩ := g
      obtain rfl : tag' = tag := hf.tag
      obtain rfl : done' = done := hf.done
      cases done' with
      | nil => cases h
      | cons u done =>
        cases h
        have hleft : List.Forall₂ Frame.Same (⟨tag', opened, done⟩ :: frames)
            (⟨tag', opened', done⟩ :: above) := .cons ⟨rfl, rfl⟩ hbelow
        rw [List.forall_mem_cons] at hcarried
        exact ⟨_, rfl, .mk hleft (List.forall_mem_cons.2 hcarried) hallowed⟩

/-- The newest tree is taken off. -/
theorem taken : Follows (fun r r' => r'.1 = r.1 ∧ r.2.Inside s r'.2)
    (orNear span m.takeLast?) (orNear span' m'.takeLast?) := by
  apply Follows.orNear
  rintro ⟨t, m₁⟩ h
  obtain ⟨m₁', htake, hm₁⟩ := hm.takeLast? t h
  exact ⟨(t, m₁'), htake, rfl, hm₁⟩

theorem openOver {tag : Tag} (htag : tier s.frame.tag < tier tag) {next : Expect}
    (hnext : s.Allows next) :
    Follows (Machine.Inside s) (m.openOver tag next span) (m'.openOver tag next span') := by
  refine (hm.closeTier htag).bind fun m₁ m₁' hm₁ => ?_
  refine hm₁.taken.bind ?_
  rintro ⟨t, m₂⟩ ⟨t', m₂'⟩ ⟨ht, hm₂⟩
  obtain rfl : t' = t := ht
  have hpushed := hm₂.push (f := ⟨tag, span, [t']⟩) (g := ⟨tag, span', [t']⟩) ⟨rfl, rfl⟩
    (.inr (.inr htag))
  exact .ok (hpushed.expecting hnext)

theorem wrapLast {tag : Tag} (htag : tier s.frame.tag < tier tag) (more : List Tree) :
    Follows (Machine.Inside s) (m.wrapLast tag more span) (m'.wrapLast tag more span') := by
  refine (hm.closeTier htag).bind fun m₁ m₁' hm₁ => ?_
  refine hm₁.taken.bind ?_
  rintro ⟨t, m₂⟩ ⟨t', m₂'⟩ ⟨ht, hm₂⟩
  obtain rfl : t' = t := ht
  exact .ok (hm₂.append _)

/-! ### Questions -/

/-- The innermost parenthesis stands in the text, or else around it. -/
theorem paren?_tag : m'.paren?.map Frame.tag = (m.paren?.map Frame.tag).or
    (((s.frame :: s.below).find? fun f => f.tag.isParen).map Frame.tag) := by
  cases hm with
  | @mk _ frames above root hsame hcarried _ =>
    clear hcarried
    rw [Machine.paren?, Machine.paren?]
    dsimp only
    induction hsame with
    | nil =>
      -- receiving a text does not change the node
      have htag : (s.receiving root).tag = s.frame.tag := rfl
      rw [List.nil_append, List.find?_cons, List.find?_cons, htag]
      split <;> rfl
    | cons hf _ ih =>
      rw [List.cons_append, List.find?_cons, List.find?_cons, hf.tag]
      split
      · simp [hf.tag]
      · exact ih

theorem insideExpression : m'.insideExpression = m.insideExpression := by
  have hany (m : Machine) : m.insideExpression = (m.paren?.map Frame.tag).any (· == .par) := by
    rw [Machine.insideExpression]
    cases m.paren? <;> rfl
  have hclause := s.clause
  rw [hany, hany, hm.paren?_tag]
  cases hparen : m.paren? with
  | some f => rfl
  | none =>
    revert hclause
    cases (s.frame :: s.below).find? fun f => f.tag.isParen with
    | none => exact fun _ => rfl
    | some f => exact fun hclause => hclause

theorem pendingBetween : m'.pendingBetween = m.pendingBetween := by
  cases hm with
  | @mk _ frames above root hsame hcarried _ =>
    clear hcarried
    rw [Machine.pendingBetween, Machine.pendingBetween]
    dsimp only
    generalize false = waiting
    induction hsame generalizing waiting with
    | nil =>
      have htag : (s.receiving root).tag = s.frame.tag := rfl
      rw [List.nil_append]
      unfold Machine.waitsForAnd
      rw [htag]
      rcases s.place with h | h <;> simp [h, tier, operatorTier]
    | cons hf _ ih =>
      rw [List.cons_append, Machine.waitsForAnd, Machine.waitsForAnd, hf.tag, hf.done, ih]

theorem hasFirstLimit : m'.hasFirstLimit = m.hasFirstLimit := by
  cases hm with
  | @mk _ _ _ root hsame _ _ =>
    cases hsame with
    | nil =>
      have htag : (s.receiving root).tag = s.frame.tag := rfl
      rcases s.place with h | h <;> simp [Machine.hasFirstLimit, htag, h]
    | cons hf _ => simp [Machine.hasFirstLimit, hf.tag, hf.done]

theorem lastIsNumber (h : m.lastIsNumber = true) : m'.lastIsNumber = true := by
  cases hm with
  | @mk _ _ _ root hsame _ _ =>
    cases hsame with
    | nil =>
      cases root with
      | nil => cases h
      | cons t root => exact h
    | cons hf _ =>
      rw [← h]
      simp [Machine.lastIsNumber, Machine.last?, hf.done]

end Machine.Inside

/-! ## Words ahead -/

/-- May the token stand right behind a text? No step of the text takes it along with a word of its own. -/
def endsText : TokenKind → Bool
  | .finish | .symbol .rightParen | .keyword .from_ | .keyword .or | .keyword .and => true
  | kind => startsClause kind

/-- The same word, or the end of the text and what stands there. -/
def Looks (next next' : Token) : Prop :=
  next'.kind = next.kind ∨ next.kind = .finish ∧ endsText next'.kind = true

theorem Looks.kind {next next' : Token} (h : Looks next next') {kind : TokenKind}
    (hkind : kind ≠ .finish) (hnext : next.kind = kind) : next'.kind = kind := by
  rcases h with h | ⟨h, -⟩
  · exact h.trans hnext
  · exact absurd (hnext.symm.trans h) hkind

/-- The words of a text further on in a source, with something behind them in the place of its end. -/
inductive Ahead (count : Nat) : List Token → List Token → Prop where
  | stop {last next : Token} (hlast : last.kind = .finish) (hnext : endsText next.kind = true)
      (more : List Token) : Ahead count [last] (next :: more)
  | cons (word : Token) {rest rest' : List Token} (h : Ahead count rest rest') :
      Ahead count (word :: rest) (word.shift count :: rest')

variable {count : Nat} {token : Token} {rest rest' : List Token}

theorem Ahead.following (h : Ahead count rest rest') (token token' : Token) :
    Looks (following token rest) (following token' rest') := by
  cases h with
  | stop hlast hnext _ => exact .inr ⟨hlast, hnext⟩
  | cons word _ => exact .inl rfl

/-- The word after the next one. -/
theorem Ahead.following_drop (h : Ahead count rest rest') (token token' : Token)
    (hnext : (Grammar.following token rest).kind ≠ .finish) :
    Looks (Grammar.following (Grammar.following token rest) (rest.drop 1))
      (Grammar.following (Grammar.following token' rest') (rest'.drop 1)) := by
  cases h with
  | stop hlast _ _ => exact absurd hlast hnext
  | cons word h => exact h.following _ _

/-- A minus takes the same number into a literal, or none. -/
theorem Ahead.signedLiteral? (h : Ahead count rest rest') (token : Token) :
    signedLiteral? (token.shift count) (Grammar.following (token.shift count) rest') =
      Grammar.signedLiteral? token (Grammar.following token rest) := by
  cases h with
  | @stop last next hlast hnext more =>
    have hnumber : ∀ minus next : Token, (next.kind = .finish ∨ endsText next.kind = true) →
        Grammar.signedLiteral? minus next = none := by
      rintro minus ⟨kind, span⟩ h
      unfold Grammar.signedLiteral?
      split
      · rcases h with rfl | h
        · rfl
        · split
          · next heq =>
            obtain rfl : kind = _ := heq
            cases h
          · next heq =>
            obtain rfl : kind = _ := heq
            cases h
          · rfl
      · rfl
    rw [Grammar.following, Grammar.following, hnumber _ _ (.inl hlast), hnumber _ _ (.inr hnext)]
  | cons word h =>
    have htouches : (token.shift count).span.touches (word.shift count).span =
        token.span.touches word.span := by
      show (count + token.span.stop == count + word.span.start) =
        (token.span.stop == word.span.start)
      rw [Bool.eq_iff_iff, beq_iff_eq, beq_iff_eq]
      omega
    rw [Grammar.following, Grammar.following, Grammar.signedLiteral?, Grammar.signedLiteral?, htouches]
    rfl

/-! ## Steps -/

/-- What the first step leads to, the second leads to inside the surroundings. -/
abbrev StepInside (s : Surroundings) : StepResult → StepResult → Prop :=
  Follows fun r r' => r.1.Inside s r'.1 ∧ r'.2 = r.2

theorem one_inside (hm : m.Inside s m') : StepInside s (one m) (one m') := .ok ⟨hm, rfl⟩

theorem two_inside (hm : m.Inside s m') : StepInside s (two m) (two m') := .ok ⟨hm, rfl⟩

theorem reject_inside (token : Token) (r : StepResult) : StepInside s (reject token) r :=
  .error _ _

/-- A clause is started by one of its words, and nothing in it is closed but by a parenthesis. -/
theorem startsClause_of_clauseOf? {next : Token} {tag : Tag} {expects : Expect} {uses : Bool}
    (h : Machine.clauseOf? token next = .ok (tag, expects, uses)) :
    startsClause token.kind = true ∧ 0 ≤ tier tag := by
  unfold Machine.clauseOf? at h
  split at h
  · next heq => cases h; exact ⟨by rw [heq]; rfl, by decide⟩
  · next heq => cases h; exact ⟨by rw [heq]; rfl, by decide⟩
  · next heq => cases h; exact ⟨by rw [heq]; rfl, by decide⟩
  · next heq => cases h; exact ⟨by rw [heq]; rfl, by decide⟩
  · next heq =>
    split at h
    · cases h; exact ⟨by rw [heq]; rfl, by decide⟩
    · cases h
  · next heq =>
    split at h
    · cases h; exact ⟨by rw [heq]; rfl, by decide⟩
    · cases h
  · cases h

/-- The same clause is started further on in a source. -/
theorem clauseOf?_looks {next next' : Token} (hnext : Looks next next') {clause : Tag × Expect × Bool}
    (h : Machine.clauseOf? token next = .ok clause) :
    Machine.clauseOf? (token.shift count) next' = .ok clause := by
  obtain ⟨kind, span⟩ := token
  unfold Machine.clauseOf? at h ⊢
  dsimp only [Token.shift] at h ⊢
  split at h
  · exact h
  · exact h
  · exact h
  · exact h
  · split at h
    · next hby => rwa [if_pos (hnext.kind (by simp) hby)]
    · cases h
  · split at h
    · next hby => rwa [if_pos (hnext.kind (by simp) hby)]
    · cases h
  · cases h

namespace Machine.Inside

variable (hm : m.Inside s m')

include hm

theorem opens {tag : Tag} (htag : tier s.frame.tag < tier tag) {next : Expect}
    (hnext : s.Allows next) :
    StepInside s (m.openOver tag next span >>= one) (m'.openOver tag next span' >>= one) :=
  (hm.openOver htag hnext).bind fun _ _ hm => one_inside hm

/-! ### Parentheses and clauses -/

theorem closeParen (token token' : Token) :
    StepInside s (m.closeParen token) (m'.closeParen token') := by
  rintro ⟨m₁, used⟩ h
  obtain ⟨m₂, hclose, h⟩ := bind_eq_ok h
  have hopen : m₂.frames ≠ [] := by
    intro hnil
    rw [hnil] at h
    cases h
  obtain ⟨m₂', hclose', hm₂⟩ := hm.closeWhile? (ok_of_orNear hclose) (.inl hopen)
  have htier : m'.closeTier parenTier token'.span = .ok m₂' := by
    rw [Machine.closeTier, hclose']
    rfl
  rw [Machine.closeParen, htier]
  cases hm₂ with
  | @mk _ _ _ root hsame hcarried hallowed =>
    cases hsame with
    | nil => exact absurd rfl hopen
    | @cons f g frames above hf hbelow =>
      rw [List.forall_mem_cons] at hcarried
      dsimp only at h
      split at h
      · next hparen =>
        cases h
        have hnext : s.Allows (afterParen f.tag) := by
          rcases hcarried.1 with h | ⟨h, hs⟩ | h
          · rw [h]
            exact Surroundings.allows_afterOperand
          · exact .inl hs
          · have hpar : tier f.tag = -1 := by
              have hparens : f.tag = .par ∨ f.tag = .clausePar := by
                simpa [Tag.isParen] using (Bool.and_eq_true_iff.1 hparen).1
              rcases hparens with h | h <;> rw [h] <;> rfl
            rw [hpar] at h
            rcases s.place with hs | hs
            · exact .inl hs
            · rw [hs] at h
              exact absurd h (by decide)
        refine ⟨(_, false), ?_, (Machine.Inside.mk hbelow hcarried.2 hnext).append f.tree, rfl⟩
        simp only [List.cons_append, hf.tag, hf.done, hf.tree, bind, Except.bind]
        rw [if_pos hparen]
        rfl
      · cases h

theorem clause (htoken : s.Admits token.kind) (h : Ahead count rest rest') :
    StepInside s (m.clause token rest) (m'.clause (token.shift count) rest') := by
  unfold Machine.clause
  split
  · next hparen =>
    rw [if_pos (show (token.shift count).kind = _ from hparen)]
    exact hm.closeParen _ _
  · next hparen =>
    rw [if_neg (show (token.shift count).kind ≠ _ from hparen), hm.insideExpression]
    split
    · exact reject_inside _ _
    · split
      · exact reject_inside _ _
      · next tag next uses hclause =>
        rw [clauseOf?_looks (h.following _ _) hclause]
        obtain ⟨hstarts, htier⟩ := startsClause_of_clauseOf? hclause
        have hpar : s.frame.tag = .clausePar := htoken.resolve_right (by simp [hstarts])
        exact (hm.openOver (Surroundings.tier_lt_of_par hpar htier) (.inl hpar)).bind
          fun _ _ hm => .ok ⟨hm, rfl⟩

/-! ### Relations -/

variable (hpar : s.frame.tag = .clausePar)

include hpar

theorem relation (token : Token) :
    StepInside s (m.relation token) (m'.relation (token.shift count)) := by
  obtain ⟨kind, span⟩ := token
  unfold Machine.relation
  dsimp only [Token.shift]
  split
  · next name =>
    have htier : tier s.frame.tag < tier .relation := Surroundings.tier_lt_of_par hpar (by decide)
    refine (hm.closeTier htier).bind fun m₁ m₁' hm₁ => ?_
    have hpushed := hm₁.push (f := ⟨.relation, span, [.atom name]⟩)
      (g := ⟨.relation, span.shift count, [.atom name]⟩) ⟨rfl, rfl⟩ (.inr (.inr htier))
    exact one_inside (hpushed.expecting (.inl hpar))
  · exact one_inside (hm.push ⟨rfl, rfl⟩ (.inr (.inl ⟨rfl, hpar⟩)))
  · exact reject_inside _ _

theorem scope {next next' : Token} (hnext : Looks next next') :
    StepInside s (m.scope token next) (m'.scope (token.shift count) next') := by
  unfold Machine.scope
  split
  · next name hname =>
    rw [hnext.kind (by simp) hname]
    have htier : tier s.frame.tag < tier .scope := Surroundings.tier_lt_of_par hpar (by decide)
    exact (hm.wrapLast htier _).bind fun _ _ hm => two_inside (hm.expecting (.inl hpar))
  · exact reject_inside _ _

theorem afterRelation (h : Ahead count rest rest') :
    StepInside s (m.afterRelation token rest) (m'.afterRelation (token.shift count) rest') := by
  have hopen {tag : Tag} (htag : 0 ≤ tier tag) (next : Expect) (span span' : Span) :
      StepInside s (m.openOver tag next span >>= one) (m'.openOver tag next span' >>= one) :=
    hm.opens (Surroundings.tier_lt_of_par hpar htag) (.inl hpar)
  have hclause : StepInside s (m.clause token rest) (m'.clause (token.shift count) rest') :=
    hm.clause (.inl hpar) h
  obtain ⟨kind, span⟩ := token
  cases kind with
  | keyword keyword =>
    cases keyword with
    | in_ => exact hm.scope hpar (h.following _ _)
    | where_ => exact hopen (by decide) _ _ _
    | from_ => exact hopen (by decide) _ _ _
    | or => exact hopen (by decide) _ _ _
    | and => exact hopen (by decide) _ _ _
    | _ => exact hclause
  | _ => exact hclause

omit hpar

/-! ### Expressions -/

theorem addOperand (t : Tree) : Machine.Inside s (m.addOperand t) (m'.addOperand t) :=
  (hm.append t).expecting Surroundings.allows_afterOperand

theorem openOperand (token : Token) :
    StepInside s (m.openOperand token) (m'.openOperand (token.shift count)) := by
  obtain ⟨kind, span⟩ := token
  unfold Machine.openOperand
  dsimp only [Token.shift]
  split
  · exact one_inside (hm.push ⟨rfl, rfl⟩ (.inl rfl))
  · split
    · next o _ => exact one_inside (hm.push ⟨rfl, rfl⟩ (Surroundings.carries_op o))
    · exact reject_inside _ _

theorem operand (h : Ahead count rest rest') :
    StepInside s (m.operand token rest) (m'.operand (token.shift count) rest') := by
  have hopen : StepInside s (m.openOperand token) (m'.openOperand (token.shift count)) :=
    hm.openOperand token
  have hsigned := h.signedLiteral? token
  obtain ⟨kind, span⟩ := token
  cases kind with
  | integer digits => exact one_inside (hm.addOperand _)
  | real digits => exact one_inside (hm.addOperand _)
  | text content => exact one_inside (hm.addOperand _)
  | template content => exact one_inside (hm.addOperand _)
  | name name => exact one_inside (hm.addOperand _)
  | keyword keyword =>
    cases keyword with
    | null => exact one_inside (hm.addOperand _)
    | _ => exact hopen
  | symbol symbol =>
    cases symbol with
    | minus =>
      unfold Machine.operand
      dsimp only
      rw [show (Token.shift count ⟨.symbol .minus, span⟩).kind = .symbol .minus from rfl]
      dsimp only
      rw [hsigned]
      split
      · exact two_inside (hm.addOperand _)
      · exact hopen
    | _ => exact hopen
  | _ => exact hopen

theorem operator (o : Operator) :
    StepInside s (m.openOver (.op o) .operand span >>= one)
      (m'.openOver (.op o) .operand span' >>= one) := by
  have hleast : 13 < tier (.op o) := Int.lt_of_lt_of_le (by decide) (operatorTier_bounds o).1
  exact hm.opens (Surroundings.tier_lt hleast) Surroundings.allows_operand

theorem openNegated (o : Operator) (token next token' next' : Token) :
    StepInside s (m.openNegated o token next) (m'.openNegated o token' next') := by
  have hleast : 13 < operatorTier o := Int.lt_of_lt_of_le (by decide) (operatorTier_bounds o).1
  refine (hm.closeTier (Surroundings.tier_lt hleast)).bind fun m₁ m₁' hm₁ => ?_
  refine hm₁.taken.bind ?_
  rintro ⟨t, m₂⟩ ⟨t', m₂'⟩ ⟨ht, hm₂⟩
  obtain rfl : t' = t := ht
  have hnot := hm₂.push (f := ⟨.op .not, token.span, []⟩) (g := ⟨.op .not, token'.span, []⟩)
    ⟨rfl, rfl⟩ (Surroundings.carries_op _)
  have hpushed := hnot.push (f := ⟨.op o, next.span, [t']⟩) (g := ⟨.op o, next'.span, [t']⟩)
    ⟨rfl, rfl⟩ (Surroundings.carries_op _)
  exact two_inside (hpushed.expecting Surroundings.allows_operand)

theorem negated (h : Ahead count rest rest') :
    StepInside s (m.negated token rest) (m'.negated (token.shift count) rest') := by
  have hnext := h.following token (token.shift count)
  unfold Machine.negated
  dsimp only
  split
  · exact reject_inside _ _
  · next o hnegatable =>
    have hkind : (following token rest).kind ≠ .finish := by
      intro heq
      rw [heq] at hnegatable
      cases hnegatable
    have hkind' : (following (token.shift count) rest').kind = (following token rest).kind :=
      hnext.kind hkind rfl
    rw [hkind', hnegatable]
    dsimp only
    split
    · exact reject_inside _ _
    · next hlist =>
      have hlist' : ¬(o = .in_ ∧ (following (following (token.shift count) rest')
          (rest'.drop 1)).kind ≠ .symbol .leftParen) := by
        rintro ⟨ho, hne⟩
        have hparen := Decidable.not_not.1 fun hne => hlist ⟨ho, hne⟩
        exact hne ((h.following_drop token (token.shift count) hkind).kind (by simp) hparen)
      rw [if_neg hlist']
      exact hm.openNegated _ _ _ _ _

/-- Closing that stops at a node of the text. -/
theorem closeUpTo (span span' : Span) (p : Tag → Bool) {f : Frame} (hf : f ∈ m.frames) (hp : p f.tag = false) :
    Follows (Machine.Inside s) (orNear span (m.closeWhile? p)) (orNear span' (m'.closeWhile? p)) := by
  apply Follows.orNear
  intro m₁ h
  refine hm.closeWhile? h (.inl ?_)
  intro hnil
  obtain ⟨⟨kept, left⟩, hclose, rfl⟩ := Option.map_eq_some_iff.1 h
  obtain rfl : kept = [] := hnil
  rw [forall_of_closeFrames hclose f hf] at hp
  cases hp

theorem comma (token token' : Token) : StepInside s (m.comma token) (m'.comma token') := by
  unfold Machine.comma
  rw [hm.insideExpression]
  split
  · next hinside =>
    unfold Machine.insideExpression at hinside
    cases hfound : m.paren? with
    | none =>
      rw [hfound] at hinside
      cases hinside
    | some f =>
      have hpar : f.tag = .par := by simpa [hfound] using hinside
      have hclose := hm.closeUpTo token.span token'.span (fun tag => tag != .par)
        (List.mem_of_find?_eq_some hfound) (by simp [hpar])
      exact hclose.bind fun _ _ hm => one_inside (hm.expecting Surroundings.allows_operand)
  · exact reject_inside _ _

/-- The `between` that an `and` belongs to stands in the text. -/
theorem betweenAnd (hwaits : m.pendingBetween = true) (token token' : Token) :
    StepInside s (m.betweenAnd token) (m'.betweenAnd token') := by
  obtain ⟨f, hf, hbetween⟩ : ∃ f ∈ m.frames, f.tag = .op .between := by
    by_contra hnone
    have hnever := waitsForAnd_of_forall (fun f hf heq => hnone ⟨f, hf, heq⟩) false
    rw [Machine.pendingBetween, hnever] at hwaits
    cases hwaits
  have hclose := hm.closeUpTo token.span token'.span (fun tag => tag != .op .between) hf (by simp [hbetween])
  exact hclose.bind fun _ _ hm => one_inside (hm.expecting Surroundings.allows_operand)

theorem method {next next' : Token} (hnext : Looks next next') (token token' : Token) :
    StepInside s (m.method token next) (m'.method token' next') := by
  unfold Machine.method
  split
  · next name hname =>
    rw [hnext.kind (by simp) hname]
    exact (hm.wrapLast (Surroundings.tier_lt (by decide)) _).bind fun _ _ hm => two_inside hm
  · exact reject_inside _ _

theorem interval (word : String) (token token' : Token) :
    StepInside s (m.interval word token) (m'.interval word token') := by
  unfold Machine.interval
  split
  · split
    · next hnumber =>
      rw [if_pos (hm.lastIsNumber hnumber)]
      exact (hm.wrapLast (Surroundings.tier_lt (by decide)) _).bind fun _ _ hm => one_inside hm
    · exact reject_inside _ _
  · exact reject_inside _ _

theorem infixOrClause (htoken : s.Admits token.kind) (h : Ahead count rest rest') :
    StepInside s (m.infixOrClause token rest) (m'.infixOrClause (token.shift count) rest') := by
  unfold Machine.infixOrClause
  rw [show (token.shift count).kind = token.kind from rfl]
  split
  · exact hm.operator _
  · exact hm.clause htoken h

theorem afterOperand (htoken : s.Admits token.kind) (h : Ahead count rest rest') :
    StepInside s (m.afterOperand token rest) (m'.afterOperand (token.shift count) rest') := by
  have hinfix := hm.infixOrClause htoken h
  have hnegated : StepInside s (m.negated token rest) (m'.negated (token.shift count) rest') :=
    hm.negated h
  have hnext := h.following token (token.shift count)
  obtain ⟨kind, span⟩ := token
  cases kind with
  | keyword keyword =>
    cases keyword with
    | and =>
      unfold Machine.afterOperand
      simp only [Token.shift, hm.pendingBetween]
      split
      · next hwaits => exact hm.betweenAnd hwaits _ _
      · exact hinfix
    | not => exact hnegated
    | is => exact hm.operator _
    | between => exact hm.operator _
    | in_ =>
      show StepInside s (if (following _ rest).kind = _ then _ else _)
        (if (following (Token.shift count ⟨.keyword .in_, span⟩) rest').kind = _ then _ else _)
      split
      · next hparen =>
        rw [if_pos (hnext.kind (by simp) hparen)]
        exact hm.operator _
      · exact reject_inside _ _
    | from_ =>
      have hpar : s.frame.tag = .clausePar := htoken.resolve_right (by simp [startsClause])
      unfold Machine.afterOperand
      simp only [Token.shift, hm.insideExpression]
      split
      · exact reject_inside _ _
      · exact hm.opens (Surroundings.tier_lt_of_par hpar (by decide)) (.inl hpar)
    | _ => exact hinfix
  | symbol symbol =>
    cases symbol with
    | dot => exact hm.method hnext _ _
    | comma => exact hm.comma _ _
    | _ => exact hinfix
  | name word => exact hm.interval word _ _
  | _ => exact hinfix

/-! ### Values and items of clauses -/

section Clauses

variable (hpar : s.frame.tag = .clausePar)

include hpar

theorem clauseValue (next : Expect) (token : Token) :
    StepInside s (m.clauseValue next token) (m'.clauseValue next (token.shift count)) := by
  obtain ⟨kind, span⟩ := token
  unfold Machine.clauseValue
  dsimp only [Token.shift]
  split
  · exact one_inside ((hm.append _).expecting (.inl hpar))
  · exact reject_inside _ _

theorem clauseName (tag : Tag) (next : Expect) (token : Token) :
    StepInside s (m.clauseName tag next token) (m'.clauseName tag next (token.shift count)) := by
  obtain ⟨kind, span⟩ := token
  unfold Machine.clauseName
  dsimp only [Token.shift]
  split
  · exact one_inside ((hm.append _).expecting (.inl hpar))
  · exact reject_inside _ _

theorem separatorOrClause (allowed : Bool) (next : Expect) (h : Ahead count rest rest') :
    StepInside s (m.separatorOrClause allowed next token rest)
      (m'.separatorOrClause allowed next (token.shift count) rest') := by
  unfold Machine.separatorOrClause
  rw [show (token.shift count).kind = token.kind from rfl]
  split
  · exact one_inside (hm.expecting (.inl hpar))
  · exact hm.clause (.inl hpar) h

theorem afterOrderItem (h : Ahead count rest rest') :
    StepInside s (m.afterOrderItem token rest) (m'.afterOrderItem (token.shift count) rest') := by
  have hclause : StepInside s (m.clause token rest) (m'.clause (token.shift count) rest') :=
    hm.clause (.inl hpar) h
  have hdirection {tag : Tag} (htag : 0 ≤ tier tag) (span span' : Span) : StepInside s
      (do let m ← m.wrapLast tag [] span; one (m.expecting .orderSeparator))
      (do let m ← m'.wrapLast tag [] span'; one (m.expecting .orderSeparator)) :=
    (hm.wrapLast (Surroundings.tier_lt_of_par hpar htag) []).bind
      fun _ _ hm => one_inside (hm.expecting (.inl hpar))
  obtain ⟨kind, span⟩ := token
  cases kind with
  | keyword keyword =>
    cases keyword with
    | asc => exact hdirection (by decide) _ _
    | desc => exact hdirection (by decide) _ _
    | _ => exact hclause
  | symbol symbol =>
    cases symbol with
    | comma => exact one_inside (hm.expecting (.inl hpar))
    | _ => exact hclause
  | _ => exact hclause

end Clauses

/-- **A step over a word of a text is the same inside the surroundings.** -/
theorem step (htoken : s.Admits token.kind) (h : Ahead count rest rest') :
    StepInside s (m.step token rest) (m'.step (token.shift count) rest') := by
  have hallowed := hm.allowed
  unfold Machine.step
  rw [hm.expects_eq]
  have hpar := fun hne hne' => Surroundings.par_of_allows hallowed hne hne'
  revert hpar
  cases m.expects with
  | relation => exact fun hpar => hm.relation (hpar (by simp) (by simp)) token
  | afterRelation => exact fun hpar => hm.afterRelation (hpar (by simp) (by simp)) h
  | operand => exact fun _ => hm.operand h
  | afterOperand => exact fun _ => hm.afterOperand htoken h
  | limitValue => exact fun hpar => hm.clauseValue (hpar (by simp) (by simp)) _ token
  | afterLimit =>
    intro hpar
    dsimp only
    rw [hm.hasFirstLimit]
    exact hm.separatorOrClause (hpar (by simp) (by simp)) _ _ h
  | offsetValue => exact fun hpar => hm.clauseValue (hpar (by simp) (by simp)) _ token
  | pageName => exact fun hpar => hm.clauseName (hpar (by simp) (by simp)) _ _ token
  | orderItem => exact fun hpar => hm.clauseName (hpar (by simp) (by simp)) _ _ token
  | afterOrderItem => exact fun hpar => hm.afterOrderItem (hpar (by simp) (by simp)) h
  | orderSeparator => exact fun hpar => hm.separatorOrClause (hpar (by simp) (by simp)) _ _ h
  | groupItem => exact fun hpar => hm.clauseName (hpar (by simp) (by simp)) _ _ token
  | afterGroupItem => exact fun hpar => hm.separatorOrClause (hpar (by simp) (by simp)) _ _ h
  | clauseEnd => exact fun _ => hm.clause htoken h

end Machine.Inside

/-! ## Runs -/

/-- What is behind the words of a text is looked at from their end on. -/
theorem ahead_append (count : Nat) (words : List Token) {last next : Token} (hlast : last.kind = .finish)
    (hnext : endsText next.kind = true) (more : List Token) :
    Ahead count (words ++ [last]) (words.map (Token.shift count) ++ next :: more) := by
  induction words with
  | nil => exact .stop hlast hnext more
  | cons word words ih => exact .cons word ih

/-- **A text that is right on its own is read to its end inside the surroundings.** The two machines
there belong together. -/
theorem Machine.Inside.run (count : Nat) {words : List Token} {last next : Token} {tree : Tree}
    (hm : m.Inside s m') (hvalid : ∀ word ∈ words, word.kind.isLast = false)
    (hadmits : ∀ word ∈ words, s.Admits word.kind) (hlast : last.kind = .finish)
    (hnext : endsText next.kind = true) (more : List Token)
    (h : runTokens m (words ++ [last]) = .ok tree) :
    ∃ n n' : Machine, n.Inside s n' ∧ n.finish last = .ok tree ∧
      runTokens m' (words.map (Token.shift count) ++ next :: more) = runTokens n' (next :: more) := by
  -- a step may use up two words, so the induction is on their number
  induction hlength : words.length using Nat.strongRecOn generalizing m m' words with
  | ind length ih =>
    subst hlength
    cases words with
    | nil =>
      exact ⟨m, m', hm, runTokens_finish m hlast ▸ h, rfl⟩
    | cons word words =>
      rw [List.forall_mem_cons] at hvalid hadmits
      rw [List.cons_append, runTokens_cons hvalid.1] at h
      obtain ⟨⟨m₁, used⟩, hstep, hrun⟩ := bind_eq_ok h
      obtain ⟨⟨m₁', used'⟩, hstep', hm₁, hused⟩ :=
        hm.step hadmits.1 (ahead_append count words hlast hnext more) _ hstep
      obtain rfl : used' = used := hused
      have hvalid' : (word.shift count).kind.isLast = false := hvalid.1
      rw [List.map_cons, List.cons_append, runTokens_cons hvalid', hstep']
      cases used' with
      | false => exact ih _ (by simp) hm₁ hvalid.2 hadmits.2 hrun rfl
      | true =>
        cases words with
        | nil => cases hrun
        | cons second words =>
          rw [List.forall_mem_cons] at hvalid hadmits
          exact ih _ (Nat.lt_succ_of_lt (Nat.lt_succ_self _)) hm₁ hvalid.2.2 hadmits.2.2 hrun rfl

/-! ## Ends -/

/-- Where every tag is closed, nothing is left open. -/
theorem closeFrames_true {new root left : List Tree} {frames kept : List Frame}
    (h : Machine.closeFrames (fun _ => true) new frames root = some (kept, left)) : kept = [] := by
  induction frames generalizing new with
  | nil =>
    cases h
    rfl
  | cons f frames ih =>
    rw [Machine.closeFrames] at h
    split at h
    · split at h
      · exact ih h
      · cases h
    · next hp => exact absurd rfl hp

/-- A text ends where no parenthesis is open, and all that is open closes to its trees. -/
theorem closes_of_finish {n : Machine} {last : Token} {trees : List Tree}
    (h : n.finish last = .ok (.node .query trees)) (hne : trees ≠ []) :
    n.expects.acceptsEnd = true ∧ n.paren? = none ∧
      Machine.closeFrames (fun _ => true) [] n.frames n.root = some ([], trees.reverse) := by
  unfold Machine.finish at h
  split at h
  · next hend =>
    split at h
    · cases h
    · next hparen =>
      obtain ⟨m, hclose, h⟩ := bind_eq_ok h
      obtain ⟨⟨frames, root⟩, hclosed, rfl⟩ := Option.map_eq_some_iff.1 (ok_of_orNear hclose)
      obtain rfl := closeFrames_true hclosed
      have htrees : root.reverse = trees := (Tree.node.inj (Except.ok.inj h)).2
      rw [← htrees, List.reverse_reverse]
      refine ⟨?_, hparen, hclosed⟩
      simp only [Bool.or_eq_true, Bool.and_eq_true, List.isEmpty_iff] at hend
      refine hend.resolve_right ?_
      rintro ⟨⟨-, hframes⟩, hroot⟩
      rw [hframes, hroot] at hclosed
      cases hclosed
      exact hne htrees.symm
  · cases h

/-- Closing all that a text has left open goes on with the node that receives it. -/
theorem closeFrames_receiving {p : Tag → Bool} {new root left : List Tree} {frames above : List Frame}
    (hframes : List.Forall₂ Frame.Same frames above) (hp : ∀ f ∈ frames, p f.tag = true)
    (h : Machine.closeFrames (fun _ => true) new frames root = some ([], left)) :
    Machine.closeFrames p new (above ++ s.receiving root :: s.below) s.outside =
      Machine.closeFrames p [] (s.receiving left :: s.below) s.outside := by
  induction hframes generalizing new with
  | nil =>
    cases h
    simp [Machine.closeFrames, Surroundings.receiving]
  | @cons f g frames above hf hbelow ih =>
    have hsame := hf.prepend new
    rw [List.forall_mem_cons] at hp
    have hp' : p g.tag = true := (congrArg p hf.tag).trans hp.1
    rw [Machine.closeFrames, if_pos rfl] at h
    rw [List.cons_append, Machine.closeFrames]
    simp only [hsame.isComplete, hsame.tree, hp', if_true]
    split at h
    · next hcomplete =>
      rw [if_pos hcomplete]
      exact ih hp.2 h
    · cases h

section Ends

variable {n n' : Machine} {last : Token} {trees : List Tree}

/-- **What a text has left open is closed with the node that receives it.** -/
theorem Machine.Inside.closeWhile?_end (hn : n.Inside s n')
    (h : n.finish last = .ok (.node .query trees)) (hne : trees ≠ []) {p : Tag → Bool}
    (hp : ∀ tag, tier s.frame.tag < tier tag → p tag = true) :
    n'.closeWhile? p =
      Machine.closeWhile? p ⟨n.expects, s.receiving trees.reverse :: s.below, s.outside⟩ := by
  obtain ⟨-, hparen, hclose⟩ := closes_of_finish h hne
  cases hn with
  | @mk _ frames _ _ hsame hcarried _ =>
    have htight : ∀ f ∈ frames, p f.tag = true := by
      intro f hf
      have hnoparen := List.find?_eq_none.1 hparen f hf
      rcases hcarried f hf with h | ⟨h, -⟩ | h
      · exact absurd (by rw [h]; rfl) hnoparen
      · exact absurd (by rw [h]; rfl) hnoparen
      · exact hp _ h
    rw [Machine.closeWhile?, closeFrames_receiving hsame htight hclose]
    rfl

/-- Behind a text no parenthesis is open but those around it. -/
theorem Machine.Inside.paren?_end (hn : n.Inside s n') (hparen : n.paren? = none)
    (hs : ((s.frame :: s.below).find? fun f => f.tag.isParen) = none) : n'.paren? = none := by
  have htag := hn.paren?_tag
  rw [hparen, hs] at htag
  exact Option.map_eq_none_iff.1 htag

end Ends

end RelationSql.Grammar
