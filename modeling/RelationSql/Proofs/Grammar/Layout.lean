import RelationSql.Proofs.Grammar.Reading
import RelationSql.Proofs.Source.Laid

/-!
# Conditions laid out as text

`Lays` relates words to a text that is read into tokens for them wherever a delimiter follows. Texts
are laid out by putting blanks, commas and parentheses between the lexemes of words; a relation and
the laid out words of a condition are parsed into the regrouped condition (`parse_condition`).
-/

namespace RelationSql.Grammar

open RelationSql.Source

/-- Wherever a delimiter follows, the text is read into tokens for the words. -/
def Lays (words : List Item) (text : List Char) : Prop :=
  ∀ offset rest, isDelimited rest = true → ∃ tokens offset', Spells words tokens ∧
    tokensFrom offset (text ++ rest) = tokens ++ tokensFrom offset' rest

namespace Lays

/-- The lexeme of a single word. -/
theorem lexeme {item : Item} {c : Char} {cs : List Char} {kind : TokenKind}
    (hitem : item.SpelledBy kind) (hkind : kind.isLast = false)
    (hread : read c cs = ⟨kind, c :: cs, []⟩) : Lays [item] (c :: cs) := by
  refine LaidOut.lexeme hkind hread fun token htoken => .cons ?_ .nil
  rw [htoken]
  exact hitem

/-- A sign that is read alone in front of everything. -/
theorem sign (item : Item) {c : Char} (kind : TokenKind) (hitem : item.SpelledBy kind)
    (hkind : kind.isLast = false) (hread : ∀ cs, read c cs = ⟨kind, [c], cs⟩)
    {words : List Item} {text : List Char} (h : Lays words text) :
    Lays (item :: words) (c :: text) := by
  refine LaidOut.sign kind hkind hread h fun token tokens htoken hspells => .cons ?_ hspells
  rw [htoken]
  exact hitem

/-- A number with a minus in front. -/
theorem signed {c : Char} {cs : List Char} {kind : TokenKind} {t : Tree}
    (hread : read c cs = ⟨kind, c :: cs, []⟩) (hkind : kind.isLast = false)
    (hsigned : ∀ minus number : Token, minus.span.touches number.span = true →
      number.kind = kind → signedLiteral? minus number = some t) :
    Lays [.operand t] ('-' :: c :: cs) := by
  intro offset rest hrest
  have hminus : tokensFrom offset (['-'] ++ (c :: cs ++ rest)) =
      ⟨.symbol .minus, ⟨offset, offset + 1⟩⟩ :: tokensFrom (offset + 1) (c :: cs ++ rest) :=
    tokensFrom_of_read rfl rfl offset
  have hnumber := tokensFrom_of_read (read_of_delimited hread hkind hrest) hkind (offset + 1)
  refine ⟨[⟨.symbol .minus, ⟨offset, offset + 1⟩⟩,
    ⟨kind, ⟨offset + 1, offset + 1 + bytes (c :: cs)⟩⟩], offset + 1 + bytes (c :: cs), ?_, ?_⟩
  · exact .signed rfl (hsigned _ _ (by simp [Span.touches]) rfl) .nil
  · rw [hnumber] at hminus
    exact hminus

variable {xs ys : List Item} {cs ds : List Char}

/-- A blank stands between two parts. -/
theorem spaced (hx : Lays xs cs) (hy : Lays ys ds) : Lays (xs ++ ys) (cs ++ ' ' :: ds) :=
  LaidOut.spaced hx hy fun _ _ hks hjs => hks.append hjs

/-- A delimiter that is a token follows the first part. -/
theorem delimited (item : Item) {c : Char} (kind : TokenKind) (hitem : item.SpelledBy kind)
    (hkind : kind.isLast = false) (hread : ∀ cs, read c cs = ⟨kind, [c], cs⟩)
    (hc : isDelimiter c = true) (hx : Lays xs cs) (hy : Lays ys ds) :
    Lays (xs ++ item :: ys) (cs ++ c :: ds) :=
  LaidOut.append hx (hy.sign item kind hitem hkind hread) hc fun _ _ hks hjs => hks.append hjs

/-- No words take no text. -/
theorem nil : Lays [] [] := LaidOut.nil .nil

/-- An opening parenthesis. -/
theorem opening (h : Lays xs cs) : Lays (.opening :: xs) ('(' :: cs) :=
  h.sign .opening (.symbol .leftParen) rfl rfl fun _ => rfl

/-- A closing parenthesis. -/
theorem closing (h : Lays xs cs) : Lays (xs ++ [.closing]) (cs ++ [')']) :=
  h.delimited .closing (.symbol .rightParen) rfl rfl (fun _ => rfl) rfl nil

end Lays

/-! ## The whole source -/

/-- The tokens of words are all used. -/
theorem Spells.isLast_eq_false {words : List Item} {tokens : List Token} (h : Spells words tokens) :
    ∀ token ∈ tokens, token.kind.isLast = false := by
  induction h with
  | nil => simp
  | @cons item token _ _ hitem _ ih =>
    have htoken : token.kind.isLast = false := by
      cases item with
      | operand t =>
        cases hkind : token.kind with
        | invalid reason => rw [Item.SpelledBy, hkind] at hitem; cases hitem
        | finish => rw [Item.SpelledBy, hkind] at hitem; cases hitem
        | _ => rfl
      | operator o => exact isLast_of_operatorOf? hitem
      | _ => rw [show token.kind = _ from hitem]; rfl
    simpa [htoken] using ih
  | @signed minus number t _ _ hminus hsigned _ ih =>
    have hnumber : number.kind.isLast = false := by
      unfold signedLiteral? at hsigned
      split at hsigned
      · split at hsigned
        · next hkind => rw [hkind]; rfl
        · next hkind => rw [hkind]; rfl
        · cases hsigned
      · cases hsigned
    rw [List.forall_mem_cons, List.forall_mem_cons]
    exact ⟨by rw [hminus]; rfl, hnumber, ih⟩

/-- **What is parsed for a relation and a laid out condition are the tokens of the condition between those of the
relation and the end.** -/
theorem parse_laidOut {P : List Token → Prop} {text : List Char} (h : LaidOut P text)
    (hP : ∀ tokens, P tokens → ∀ token ∈ tokens, token.kind.isLast = false) :
    ∃ relation where_ words last, relation.kind = .name "a" ∧ where_.kind = .keyword .where_ ∧ P words ∧
      last.kind = .finish ∧ ∀ tree, parse (String.ofList ("a where ".toList ++ text)) = .ok tree ↔
        parseTokens (relation :: where_ :: (words ++ [last])) = .ok tree := by
  obtain ⟨tokens, offset, hwords, htokens⟩ := h 8 [] rfl
  have hname : read 'a' [] = ⟨.name "a", ['a'], []⟩ := rfl
  have hwhere : read 'w' "here".toList = ⟨.keyword .where_, "where".toList, []⟩ := rfl
  have hrelation : tokensFrom 0 ("a where ".toList ++ text) =
      ⟨.name "a", ⟨0, 1⟩⟩ :: tokensFrom 1 (' ' :: "where ".toList ++ text) :=
    tokensFrom_of_read (read_of_delimited hname rfl rfl) rfl 0
  have hfilter : tokensFrom 2 ("where ".toList ++ text) =
      ⟨.keyword .where_, ⟨2, 7⟩⟩ :: tokensFrom 7 (' ' :: text) :=
    tokensFrom_of_read (read_of_delimited hwhere rfl rfl) rfl 2
  rw [List.append_nil] at htokens
  have hlex : lex (String.ofList ("a where ".toList ++ text)) =
      ⟨.name "a", ⟨0, 1⟩⟩ :: ⟨.keyword .where_, ⟨2, 7⟩⟩ :: (tokens ++ [⟨.finish, ⟨offset, offset⟩⟩]) := by
    rw [lex, lexAll, String.toList_ofList, hrelation, List.cons_append, tokensFrom_space, hfilter,
      tokensFrom_space, htokens, tokensFrom_of_nil rfl]
    simp [upToLast, TokenKind.isLast, upToLast_append (hP tokens hwords)]
  refine ⟨⟨.name "a", ⟨0, 1⟩⟩, ⟨.keyword .where_, ⟨2, 7⟩⟩, tokens, ⟨.finish, ⟨offset, offset⟩⟩, rfl, rfl, hwords,
    rfl, fun tree => ?_⟩
  rw [parse, hlex]
  cases parseTokens (⟨.name "a", ⟨0, 1⟩⟩ :: ⟨.keyword .where_, ⟨2, 7⟩⟩ ::
      (tokens ++ [⟨.finish, ⟨offset, offset⟩⟩])) with
  | ok other => simp
  | error fault => simp

/-- **A relation and the laid out words of a condition are parsed into the regrouped condition.** -/
theorem parse_condition {leaf : Tree → Prop} {t : Tree} (h : Condition leaf t) {text : List Char}
    (hlays : Lays (items t) text) :
    parse (String.ofList ("a where ".toList ++ text)) = .ok (filtered "a" (regroup t)) := by
  obtain ⟨relation, where_, words, last, hrelation, hwhere, hspells, hlast, hparse⟩ :=
    parse_laidOut hlays fun _ hspells => hspells.isLast_eq_false
  exact (hparse _).2 (parseTokens_condition h hrelation hwhere hspells hlast)

end RelationSql.Grammar
