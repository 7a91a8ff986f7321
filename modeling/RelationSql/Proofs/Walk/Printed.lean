import RelationSql.Proofs.Grammar.Seated
import RelationSql.Proofs.Grammar.Settled
import RelationSql.Proofs.Walk.Written

/-!
# Rendered phrases

Where fields render as their names, a phrase renders as a text that shows its shape (`Grammar.Derives.printed`):
its operands and operators from left to right, with the alternatives in parentheses and no others added.
-/

namespace RelationSql

open Grammar Source WalkM

variable {host : Host} {atEnd : WalkM Unit} {w : Walk} {source : String} {opens opens' : Prop}
  {piece : Piece} {words : List Token} {o : Operator} {k : Int} {n : Nat} {t l r : Tree} {ts : List Tree}
  {text left right value low high : String}

/-! ## What is rendered -/

/-- The tree renders as a text that is read into tokens of this kind. -/
def Prints (host : Host) (atEnd : WalkM Unit) (w : Walk) (t : Tree) (P : List Token → Prop) : Prop :=
  ∃ text, Yields (renderWith host atEnd t) w text ∧ Recovers P text.toList

theorem Prints.mono {P Q : List Token → Prop} (h : Prints host atEnd w t P)
    (hPQ : ∀ tokens, P tokens → AreRead tokens → Q tokens) : Prints host atEnd w t Q := by
  obtain ⟨text, htext, hrecovers⟩ := h
  exact ⟨text, htext, hrecovers.mono hPQ⟩

/-- The rendering of a tree shows its shape, and opens a list where one is called for. So does that of its
negation where the `NOT` stands within it. -/
structure Printed (host : Host) (atEnd : WalkM Unit) (w : Walk) (opens : Prop) (t : Tree) : Prop where
  shown : Prints host atEnd w t fun tokens => Shown (.tree (shape t)) tokens ∧ (opens → opensList tokens)
  denied : negatedWithin t = true →
    Prints host atEnd w (.node (.op .not) [t]) (Shown (.tree (.node (.op .not) [shape t])))

theorem Printed.weaken (h : Printed host atEnd w opens t) (himp : opens' → opens) :
    Printed host atEnd w opens' t where
  shown := h.shown.mono fun _ hshown _ => ⟨hshown.1, fun hopens => hshown.2 (himp hopens)⟩
  denied := h.denied

/-! ## Words -/

/-- The operator between two operands. -/
theorem recovers_operator (ho : isBinary o = true ∨ o = .between) : Recovers (Coupling o 0 0) o.sql.toList := by
  refine Recovers.mono (spelled_operator ho) fun tokens hspells _ => ?_
  cases hspells with
  | cons hoperator hnil =>
    cases hnil
    exact .plain hoperator

/-- The operator between two operands with a `NOT` in front. -/
theorem recovers_negated (ho : isNegatable o = true) : Recovers (Coupling o 0 1) ("NOT " ++ o.sql).toList := by
  have hbinary : isBinary o = true ∨ o = .between := by
    revert ho
    cases o <;> decide
  have hjoint : Recovers (Coupling o 0 1) ("NOT".toList ++ ' ' :: o.sql.toList) := by
    refine Recovers.spaced spelled_notWithin (spelled_operator hbinary) fun nots operators hnot hoperator => ?_
    cases hnot with
    | cons hnot hnil =>
      cases hnil
      cases hoperator with
      | cons hoperator hnil =>
        cases hnil
        exact .negated hnot (negatable?_eq_some hoperator ho)
  simpa using hjoint

/-- The word between the bounds of a `between`. -/
theorem recovers_and : Recovers (fun tokens => ∃ and, tokens = [and] ∧ and.kind = .keyword .and) "AND".toList := by
  refine Recovers.mono spelled_and fun tokens hspells _ => ?_
  cases hspells with
  | cons hand hnil =>
    cases hnil
    exact ⟨_, rfl, hand⟩

/-! ## Operands -/

theorem shape_of_legible (h : Legible t) : shape t = t := by
  obtain ⟨text, htext, -⟩ := h
  unfold leafText? at htext
  split at htext
  all_goals first | rfl | cases htext

theorem isLeaf_of_legible (h : Legible t) : isLeaf t = true := by
  obtain ⟨text, htext, -⟩ := h
  unfold leafText? at htext
  split at htext
  all_goals first | rfl | cases htext

theorem negatedWithin_of_isLeaf (h : isLeaf t = true) : negatedWithin t = false := by
  apply negatedWithin_of_tag
  intro o ho
  cases t with
  | atom text => cases ho
  | node tag ts =>
    cases ho
    cases h

/-- What is legible is shown. -/
theorem Legible.recovers (h : Legible t) : ∃ text, leafText? t = some text ∧ Recovers (Shown (.tree t)) text.toList := by
  obtain ⟨text, htext, hspelled⟩ := h
  refine ⟨text, htext, Recovers.mono hspelled fun tokens hspells _ => ?_⟩
  cases hspells with
  | cons hoperand hnil =>
    cases hnil
    exact .operand hoperand
  | signed hminus hsigned hnil =>
    cases hnil
    exact .signed hminus hsigned

theorem printed_leaf (hbare : BareFields host w) (h : Legible t) (hopens : ¬ opens) :
    Printed host atEnd w opens t where
  shown := by
    obtain ⟨text, htext, hrecovers⟩ := h.recovers
    refine ⟨text, yields_leaf hbare htext, hrecovers.mono fun tokens hshown _ => ?_⟩
    rw [shape_of_legible h]
    exact ⟨hshown, fun h => absurd h hopens⟩
  denied := by
    intro hneg
    rw [negatedWithin_of_isLeaf (isLeaf_of_legible h)] at hneg
    cases hneg

/-! ## Operators between operands -/

/-- Operands with an operator between them. -/
theorem Recovers.infixText {P Q R : List Token → Prop} {joint : String} (hl : Recovers P left.toList)
    (hjoint : Recovers (Coupling o 0 n) joint.toList) (hr : Recovers Q right.toList)
    (hR : ∀ xs js ys, P xs → Coupling o 0 n js → Q ys → R (xs ++ (js ++ ys))) :
    Recovers R (Expression.infixText left joint right).toList := by
  have hbehind : Recovers (fun tokens => ∃ js ys, tokens = js ++ ys ∧ Coupling o 0 n js ∧ Q ys)
      (joint.toList ++ ' ' :: right.toList) :=
    hjoint.spaced hr fun js ys hjs hys => ⟨js, ys, rfl, hjs, hys⟩
  have hall : Recovers R (left.toList ++ ' ' :: (joint.toList ++ ' ' :: right.toList)) := by
    refine hl.spaced hbehind ?_
    rintro xs _ hxs ⟨js, ys, rfl, hjs, hys⟩
    exact hR xs js ys hxs hjs hys
  simpa [Expression.infixText] using hall

theorem negatedWithin_binary_iff (ho : isBinary o = true) :
    negatedWithin (.node (.op o) [l, r]) = true ↔ isNegatable o = true := by
  obtain ⟨-, -, -, -, hbetween⟩ := isBinary_iff.1 ho
  rw [negatedWithin_binary, isNegatable, Bool.or_eq_true, beq_iff_eq]
  exact (or_iff_left hbetween).symm

/-- An operator between its operands, negated or not. -/
theorem shown_binary {opensL opensR : Prop} (ho : isBinary o = true) (hor : o ≠ .or) (hin : o = .in_ → opensR)
    {xs js ys : List Token} (hxs : Shown (.tree (shape l)) xs ∧ (opensL → opensList xs)) (hjs : Coupling o 0 n js)
    (hys : Shown (.tree (shape r)) ys ∧ (opensR → opensList ys)) :
    Shown (.tree (denied n (shape (.node (.op o) [l, r])))) (xs ++ (js ++ ys)) := by
  obtain ⟨-, hbang, hsign, -, -⟩ := isBinary_iff.1 ho
  rw [shape_op hor hbang hsign]
  exact .binary ho hxs.1 hjs (fun heq => hys.2 (hin heq)) hys.1

theorem printed_binary {opensL opensR : Prop} (hbare : BareFields host w) (ho : isBinary o = true) (hor : o ≠ .or)
    (hin : o = .in_ → opensR) (hopens : opens → opensL) (hl : Printed host atEnd w opensL l)
    (hr : Printed host atEnd w opensR r) : Printed host atEnd w opens (.node (.op o) [l, r]) := by
  obtain ⟨left, hleft, hxs⟩ := hl.shown
  obtain ⟨right, hright, hys⟩ := hr.shown
  constructor
  · refine ⟨_, yields_operator hbare ho hor hleft hright, ?_⟩
    refine hxs.infixText (recovers_operator (.inl ho)) hys fun xs js ys hxs hjs hys => ?_
    exact ⟨shown_binary ho hor hin hxs hjs hys, fun h => opensList_append (hxs.2 (hopens h)) _⟩
  · intro hneg
    -- the `NOT` is written in front of the operator
    have hplace : Expression.negatesInPlace o = true := by rwa [negatedWithin_binary] at hneg
    refine ⟨_, yields_not_within hplace hleft hright, ?_⟩
    exact hxs.infixText (recovers_negated ((negatedWithin_binary_iff ho).1 hneg)) hys fun xs js ys hxs hjs hys =>
      shown_binary ho hor hin hxs hjs hys

/-- A parenthesis opens a list. -/
theorem opensList_of_shown_par (h : Shown (.tree (.node .par ts)) words) : opensList words := by
  generalize hpiece : Piece.tree (.node .par ts) = piece at h
  cases h with
  | operand h =>
    cases hpiece
    have hleaf := isLeaf_of_operandOf? h
    cases hleaf
  | signed _ h =>
    cases hpiece
    have hleaf := isLeaf_of_signedLiteral? h
    cases hleaf
  | parenthesis hopening => exact hopening
  | @binary n _ _ _ _ _ _ _ _ hjoint =>
    cases hjoint <;> cases hpiece
  | @between n _ _ _ _ _ _ _ _ _ hjoint =>
    cases hjoint <;> cases hpiece
  | _ => cases hpiece

theorem printed_or (hl : Printed host atEnd w opens l) (hr : Printed host atEnd w opens' r) :
    Printed host atEnd w True (.node (.op .or) [l, r]) where
  shown := by
    obtain ⟨left, hleft, hxs⟩ := hl.shown
    obtain ⟨right, hright, hys⟩ := hr.shown
    have hsql : Operator.or.sql = "OR" := rfl
    have hinner : Recovers (Shown (.list [.node (.op .or) [shape l, shape r]]))
        (Expression.infixText left Operator.or.sql right).toList :=
      hxs.infixText (recovers_operator (.inl rfl)) hys fun xs js ys hxs hjs hys =>
        .item (Shown.binary (n := 0) rfl hxs.1 hjs (by simp) hys.1)
    refine ⟨_, yields_or hleft hright, ?_⟩
    rw [shape_or]
    have hpar := hinner.par (R := fun tokens => Shown (.tree (.node .par [.node (.op .or) [shape l, shape r]])) tokens ∧
      (True → opensList tokens)) fun opening tokens closing hopening hshown hclosing =>
        ⟨.parenthesis hopening hshown hclosing, fun _ => hopening⟩
    simpa [Expression.infixText, hsql] using hpar
  denied := fun hneg => by cases hneg

theorem shape_between (v lo hi : Tree) :
    shape (.node (.op .between) [v, lo, hi]) = .node (.op .between) [shape v, shape lo, shape hi] :=
  shape_op (by simp) (by simp) (by simp) _

/-- A value and two bounds. -/
theorem Recovers.bounds {P Q R : List Token → Prop} {joint : String} (hv : Recovers P value.toList)
    (hjoint : Recovers (Coupling .between 0 n) joint.toList) (hlo : Recovers Q low.toList) (hhi : Recovers R high.toList)
    {S : List Token → Prop} (hS : ∀ xs js ys and zs, P xs → Coupling .between 0 n js → Q ys →
      and.kind = .keyword .and → R zs → S (xs ++ (js ++ (ys ++ and :: zs)))) :
    Recovers S (value ++ " " ++ joint ++ " " ++ low ++ " AND " ++ high).toList := by
  have hupper : Recovers (fun tokens => ∃ and zs, tokens = and :: zs ∧ and.kind = .keyword .and ∧ R zs)
      ("AND".toList ++ ' ' :: high.toList) := by
    refine recovers_and.spaced hhi ?_
    rintro _ zs ⟨and, rfl, hand⟩ hzs
    exact ⟨and, zs, rfl, hand, hzs⟩
  have hbounds : Recovers (fun tokens => ∃ ys and zs, tokens = ys ++ and :: zs ∧ Q ys ∧
      and.kind = .keyword .and ∧ R zs) (low ++ " AND " ++ high).toList := by
    have hspaced := hlo.spaced hupper (R := fun tokens => ∃ ys and zs, tokens = ys ++ and :: zs ∧ Q ys ∧
      and.kind = .keyword .and ∧ R zs) fun ys _ hys ⟨and, zs, heq, hand, hzs⟩ =>
        ⟨ys, and, zs, congrArg (ys ++ ·) heq, hys, hand, hzs⟩
    simpa using hspaced
  have hall : Recovers S (Expression.infixText value joint (low ++ " AND " ++ high)).toList := by
    refine hv.infixText hjoint hbounds ?_
    rintro xs js _ hxs hjs ⟨ys, and, zs, rfl, hys, hand, hzs⟩
    exact hS xs js ys and zs hxs hjs hys hand hzs
  simpa [Expression.infixText] using hall

theorem printed_between {opensV opensL opensH : Prop} {v lo hi : Tree} (hopens : opens → opensV)
    (hv : Printed host atEnd w opensV v) (hlo : Printed host atEnd w opensL lo)
    (hhi : Printed host atEnd w opensH hi) : Printed host atEnd w opens (.node (.op .between) [v, lo, hi]) := by
  obtain ⟨value, hvalue, hxs⟩ := hv.shown
  obtain ⟨low, hlow, hys⟩ := hlo.shown
  obtain ⟨high, hhigh, hzs⟩ := hhi.shown
  have hsql : Operator.between.sql = "BETWEEN" := rfl
  constructor
  · refine ⟨_, yields_between hvalue hlow hhigh, ?_⟩
    have hbounds := hxs.bounds (recovers_operator (.inr rfl)) hys hzs (S := fun tokens =>
      Shown (.tree (shape (.node (.op .between) [v, lo, hi]))) tokens ∧ (opens → opensList tokens)) ?_
    · simpa [hsql] using hbounds
    · intro xs js ys and zs hxs hjs hys hand hzs
      rw [shape_between]
      exact ⟨Shown.between (n := 0) hxs.1 hjs hys.1 hand hzs.1, fun h => opensList_append (hxs.2 (hopens h)) _⟩
  · intro _
    refine ⟨_, yields_not_between hvalue hlow hhigh, ?_⟩
    have hbounds := hxs.bounds (recovers_negated (o := .between) rfl) hys hzs (S :=
      Shown (.tree (.node (.op .not) [shape (.node (.op .between) [v, lo, hi])]))) ?_
    · simpa [hsql] using hbounds
    · intro xs js ys and zs hxs hjs hys hand hzs
      rw [shape_between]
      exact Shown.between (n := 1) hxs.1 hjs hys.1 hand hzs.1

/-! ## Operators in front of their operand -/

/-- A `not` that stands in front of its operand does so in the shape. -/
theorem negatedWithin_shape (h : negatedWithin t = false) : negatedWithin (shape t) = false := by
  apply negatedWithin_wrapOr
  rcases settled_cases t with ⟨text, rfl, heq⟩ | ⟨ts, rfl, heq⟩ | ⟨u, rfl, heq⟩ | ⟨tag, ts, rfl, heq⟩
  · rw [heq]
    rfl
  · rw [heq]
    generalize ts.map settled = us
    unfold negatedWithin
    split
    · next heq => cases heq
    · next heq =>
      cases heq
      rfl
    · rfl
  · rw [heq]
    rcases withSign_cases (settled u) with hsign | ⟨tag, digits, rfl | rfl, hsign⟩
    all_goals
      rw [hsign]
      rfl
  · rw [heq]
    cases tag with
    | op o => rwa [negatedWithin_map]
    | _ => exact negatedWithin_of_tag (by simp [Tree.tag?])

theorem printed_not (hopens : ¬ opens) (ht : Printed host atEnd w opens' t) :
    Printed host atEnd w opens (.node (.op .not) [t]) where
  shown := by
    rw [shape_not]
    cases hneg : negatedWithin t with
    | true => exact (ht.denied hneg).mono fun _ hshown _ => ⟨hshown, fun h => absurd h hopens⟩
    | false =>
      obtain ⟨text, htext, hrecovers⟩ := ht.shown
      refine ⟨_, yields_not_before hneg htext, ?_⟩
      have hfront : Recovers (fun tokens => Shown (.tree (.node (.op .not) [shape t])) tokens ∧
          (opens → opensList tokens)) ("NOT".toList ++ ' ' :: text.toList) := by
        refine Recovers.spaced spelled_notBefore hrecovers fun nots tokens hnot hshown => ?_
        cases hnot with
        | cons hnot hnil =>
          cases hnil
          exact ⟨.not hnot (negatedWithin_shape hneg) hshown.1, fun h => absurd h hopens⟩
      simpa using hfront
  denied := fun hneg => by cases hneg

/-- A `!` renders as a `not` does. -/
theorem printed_bang (h : Printed host atEnd w opens (.node (.op .not) [t])) :
    Printed host atEnd w opens (.node (.op .bang) [t]) where
  shown := by
    have hrender : renderWith host atEnd (.node (.op .bang) [t]) = renderWith host atEnd (.node (.op .not) [t]) := rfl
    rw [Prints, hrender, shape_bang, ← shape_not]
    exact h.shown
  denied := fun hneg => by cases hneg

/-! ## Signs -/

/-- The digits of a token have no sign. -/
theorem head?_of_isNumber {tag : Tag} {kind : String → TokenKind} (h : IsNumber tag kind) {c : Char} {cs : List Char}
    {digits : String} (hkind : (read c cs).kind = kind digits) : digits.toList.head? ≠ some '-' := by
  obtain ⟨d, ds, hdigits, -, hread⟩ := h.read hkind
  rw [hdigits, List.head?_cons, Ne, Option.some.injEq]
  rintro rfl
  have hminus : read '-' ds = ⟨.symbol .minus, ['-'], ds⟩ := rfl
  rw [hminus] at hread
  cases h <;> cases hread

/-- A number that a minus touches is an operand without it, and a signed number with it. -/
theorem exists_isNumber_of_signedLiteral? {minus number : Token} (h : signedLiteral? minus number = some t) :
    ∃ tag kind digits, IsNumber tag kind ∧ number.kind = kind digits ∧ t = .leaf tag ("-" ++ digits) ∧
      operandOf? number.kind = some (.leaf tag digits) := by
  unfold signedLiteral? at h
  split at h
  · split at h
    · next digits hkind =>
      cases h
      exact ⟨.integer, .integer, digits, .integer, hkind, rfl, by rw [hkind]; rfl⟩
    · next digits hkind =>
      cases h
      exact ⟨.real, .real, digits, .real, hkind, rfl, by rw [hkind]; rfl⟩
    · cases h
  · cases h

/-- An operator between operands is more than a single token. -/
theorem single_ne_append {token : Token} {front joint more : List Token} (hfront : front ≠ []) (hjoint : joint ≠ []) :
    [token] ≠ front ++ (joint ++ more) := by
  intro heq
  rcases List.append_eq_singleton_iff.1 heq.symm with ⟨hnil, -⟩ | ⟨-, hnil⟩
  · exact hfront hnil
  · exact hjoint (List.append_eq_nil_iff.1 hnil).1

/-- What a single operand shows is that operand. -/
theorem operandOf?_of_shown {token : Token} (h : Shown (.tree t) [token]) (htoken : isEnd token.kind = true) :
    operandOf? token.kind = some t := by
  have hkind : ∀ kind, isEnd kind = false → token.kind ≠ kind := by
    rintro kind hkind rfl
    rw [htoken] at hkind
    cases hkind
  generalize hwords : [token] = words at h
  cases h with
  | operand h =>
    obtain rfl := List.singleton_inj.1 hwords
    exact h
  | signed => cases hwords
  | parenthesis hopening =>
    obtain ⟨rfl, -⟩ := List.cons.inj hwords
    exact absurd hopening (hkind _ rfl)
  | not hnot =>
    obtain ⟨rfl, -⟩ := List.cons.inj hwords
    exact absurd hnot (hkind _ rfl)
  | minus hminus =>
    obtain ⟨rfl, -⟩ := List.cons.inj hwords
    exact absurd hminus (hkind _ rfl)
  | binary _ hl hjoint => exact absurd hwords (single_ne_append hl.ends.ne_nil hjoint.ne_nil)
  | between hv hjoint => exact absurd hwords (single_ne_append hv.ends.ne_nil hjoint.ne_nil)

/-- A minus in front of a tree that is shown shows the sign of the tree. -/
theorem shown_minus {minus : Token} (hminus : minus.kind = .symbol .minus) (hunsigned : unsigned? t = none)
    (h : Shown (.tree t) words) (hread : AreRead words) : Shown (.tree (.node (.op .changeSign) [t])) (minus :: words) := by
  refine .minus hminus ?_ h
  rintro number rfl
  cases hsigned : signedLiteral? minus number with
  | none => rfl
  | some u =>
    -- a number that the minus touches would be shown without a sign
    obtain ⟨tag, kind, digits, hkind, hnumber, -, hoperand⟩ := exists_isNumber_of_signedLiteral? hsigned
    have ht := operandOf?_of_shown h (isEnd_of_operandOf? hoperand)
    rw [hoperand, Option.some.injEq] at ht
    subst ht
    rcases hread number (by simp) with hfinish | ⟨c, cs, hcs⟩
    · rw [hfinish] at hoperand
      cases hoperand
    · have hhead := head?_of_isNumber hkind (hcs.symm.trans hnumber)
      rw [unsigned?_leaf (by cases hkind <;> simp) hhead] at hunsigned
      cases hunsigned

theorem kind_of_operandOf? {token : Token} {tag : Tag} {digits : String} (htag : tag = .integer ∨ tag = .real)
    (h : operandOf? token.kind = some (.leaf tag digits)) : ∃ kind, IsNumber tag kind ∧ token.kind = kind digits := by
  unfold operandOf? at h
  split at h
  · next hkind =>
    cases h
    exact ⟨.integer, .integer, hkind⟩
  · next hkind =>
    cases h
    exact ⟨.real, .real, hkind⟩
  all_goals
    cases h
    try simp at htag

/-- A number without a sign is derived for its token. -/
theorem exists_isNumber_of_derives {tag : Tag} {digits : String} (h : Derives k n (.tree (.leaf tag digits)) words)
    (hunsigned : unsigned? (.leaf tag digits) = some (tag, digits)) :
    ∃ token kind, words = [token] ∧ IsNumber tag kind ∧ token.kind = kind digits := by
  obtain ⟨-, htag, hhead⟩ := unsigned?_eq_some hunsigned
  have hoperand : ∀ token : Token, operandOf? token.kind = some (.leaf tag digits) →
      ∃ token' kind, [token] = [token'] ∧ IsNumber tag kind ∧ token'.kind = kind digits := by
    intro token hoperand
    obtain ⟨kind, hkind, htoken⟩ := kind_of_operandOf? htag hoperand
    exact ⟨token, kind, rfl, hkind, htoken⟩
  have hsigned : ∀ minus number : Token, signedLiteral? minus number ≠ some (.leaf tag digits) := by
    intro minus number hsigned
    obtain ⟨tag', kind, digits', -, -, heq, -⟩ := exists_isNumber_of_signedLiteral? hsigned
    cases heq
    simp at hhead
  rcases htag with rfl | rfl
  all_goals
    cases h with
    | operand h => exact hoperand _ h
    | signed _ h => exact absurd h (hsigned _ _)

theorem yields_changeSign (ht : Yields (renderWith host atEnd t) w text) :
    Yields (renderWith host atEnd (.node (.op .changeSign) [t])) w ("-" ++ text) := by
  show Yields (Expression.changedSign [partOf host atEnd t]) w _
  unfold Expression.changedSign
  exact (yields_renderChild rfl ht (.op .changeSign)).bind (Yields.pure _ w)

/-- A minus in front of its operand renders as one, or as the sign of a number. -/
theorem printed_minus (hbare : BareFields host w) (hopens : ¬ opens) (h : Derives k n (.tree t) words)
    (hread : AreRead words) (ht : Printed host atEnd w opens' t) :
    Printed host atEnd w opens (.node (.op .changeSign) [t]) where
  shown := by
    rw [shape_changeSign, withSign]
    split
    · -- the sign of a number: both are written as one word, which stands for the signed number
      next tag digits hunsigned =>
      obtain rfl := eq_leaf_of_unsigned?_shape hunsigned
      obtain ⟨-, htag, hhead⟩ := unsigned?_eq_some hunsigned
      obtain ⟨token, kind, rfl, hkind, htoken⟩ := exists_isNumber_of_derives h (unsigned?_leaf htag hhead)
      have hdigits : leafText? (.leaf tag digits) = some digits := by
        rcases htag with rfl | rfl <;> rfl
      have hsigned : leafText? (.leaf tag ("-" ++ digits)) = some ("-" ++ digits) := by
        rcases htag with rfl | rfl <;> rfl
      rcases hread token (by simp) with hfinish | ⟨c, cs, hcs⟩
      · rw [hfinish] at htoken
        cases hkind <;> cases htoken
      · obtain ⟨text, htext, hrecovers⟩ := (legible_minus hkind (hcs.symm.trans htoken)).recovers
        rw [hsigned, Option.some.injEq] at htext
        subst htext
        refine ⟨_, yields_changeSign (yields_leaf hbare hdigits), hrecovers.mono fun tokens hshown _ => ?_⟩
        exact ⟨hshown, fun h => absurd h hopens⟩
    · -- any other minus, also one that touches a number with a sign
      next hunsigned =>
      obtain ⟨text, htext, hrecovers⟩ := ht.shown
      refine ⟨_, yields_changeSign htext, ?_⟩
      have hsign : Recovers (fun tokens => Shown (.tree (.node (.op .changeSign) [shape t])) tokens ∧
          (opens → opensList tokens)) ('-' :: text.toList) := by
        refine (hrecovers.mono fun tokens hshown hread => And.intro hshown.1 hread).minus ?_
        rintro minus tokens hminus ⟨hshown, hread⟩
        exact ⟨shown_minus hminus hunsigned hshown hread, fun h => absurd h hopens⟩
      simpa using hsign
  denied := fun hneg => by cases hneg

/-! ## Parentheses -/

/-- The items of a list. -/
theorem recovers_list (hne : ts ≠ []) (h : ∀ t ∈ ts, Printed host atEnd w False t) :
    ∃ first more, Yields (Part.renderAll (ts.map (partOf host atEnd))) w (first :: more) ∧
      Recovers (Shown (.list (ts.map shape))) (Text.joinWith "," (first :: more)).toList := by
  induction ts with
  | nil => exact absurd rfl hne
  | cons t ts ih =>
    rw [List.forall_mem_cons] at h
    obtain ⟨text, htext, hrecovers⟩ := h.1.shown
    cases ts with
    | nil =>
      refine ⟨text, [], Yields.bind htext ((Yields.pure [] w).bind (Yields.pure _ w)), ?_⟩
      exact hrecovers.mono fun _ hshown _ => .item hshown.1
    | cons u ts =>
      obtain ⟨first, more, hall, hrecovers'⟩ := ih (by simp) h.2
      refine ⟨text, first :: more, Yields.bind htext (hall.bind (Yields.pure _ w)), ?_⟩
      have hlist := hrecovers.comma hrecovers' (R := Shown (.list ((t :: u :: ts).map shape)))
        fun _ _ _ hshown hcomma hmore => hshown.1.cons hcomma hmore
      simpa [Text.joinWith] using hlist

theorem printed_par (hne : ts ≠ []) (h : ∀ t ∈ ts, Printed host atEnd w False t) :
    Printed host atEnd w True (.node .par ts) where
  shown := by
    have hrender : renderWith host atEnd (.node .par ts) = Expression.parenthesis (ts.map (partOf host atEnd)) := by
      rw [← Part.ofTrees_eq_map]
      rfl
    -- an alternative brings its own parentheses, so that those around it are not written again
    by_cases hor : ∃ t, ts = [t] ∧ isOr t = true
    · obtain ⟨t, rfl, hor⟩ := hor
      have hinner : renderWith host atEnd (.node .par [t]) = renderWith host atEnd t := by
        rw [hrender, List.map_singleton, Expression.parenthesis, isDisjunction_partOf, if_pos hor]
        rfl
      obtain ⟨us, hshape⟩ : ∃ us, shape t = .node .par us := by
        cases t with
        | atom text => cases hor
        | node tag us =>
          rw [isOr, Tree.tag?, beq_iff_eq, Option.some.injEq] at hor
          subst hor
          exact ⟨_, shape_or us⟩
      rw [Prints, hinner, shape_par_or hor]
      refine (h t List.mem_cons_self).shown.mono fun tokens hshown _ => ⟨hshown.1, fun _ => ?_⟩
      rw [hshape] at hshown
      exact opensList_of_shown_par hshown.1
    · have hlist : renderWith host atEnd (.node .par ts) = Expression.parenthesised (ts.map (partOf host atEnd)) := by
        rw [hrender]
        rcases ts with _ | ⟨t, _ | ⟨u, ts⟩⟩
        · exact absurd rfl hne
        · have ht : ¬ isOr t = true := fun ht => hor ⟨t, rfl, ht⟩
          rw [List.map_singleton, Expression.parenthesis, isDisjunction_partOf, if_neg ht]
        · rfl
      obtain ⟨first, more, hall, hrecovers⟩ := recovers_list hne h
      have hpar := hrecovers.par (R := fun tokens => Shown (.tree (.node .par (ts.map shape))) tokens ∧
        (True → opensList tokens)) fun _ _ _ hopening hshown hclosing =>
          ⟨.parenthesis hopening hshown hclosing, fun _ => hopening⟩
      rw [Prints, hlist, shape_par]
      · exact ⟨_, hall.bind (Yields.pure _ w), by simpa using hpar⟩
      · intro t hts
        cases ht : isOr t with
        | false => rfl
        | true => exact absurd ⟨t, hts, ht⟩ hor
  denied := fun hneg => by cases hneg

/-! ## All phrases -/

/-- Is the token neither a text with quotes or backslashes in it nor a tilde, which has no rendering? -/
def isProse : TokenKind → Bool
  | .text content => isPlainLiteral (.text content)
  | .symbol .tilde => false
  | _ => true

/-- The renderings of a piece that was derived for the words. -/
def PrintedPiece (host : Host) (atEnd : WalkM Unit) (w : Walk) (k : Int) : Piece → List Token → Prop
  | .tree t, words => Printed host atEnd w (30 ≤ k ∧ opensList words) t
  | .list ts, _ => ts ≠ [] ∧ ∀ t ∈ ts, Printed host atEnd w False t

theorem legible_of_operandOf? {token : Token} (htoken : token ∈ lex source) (hprose : isProse token.kind = true)
    (h : operandOf? token.kind = some t) : Legible t := by
  refine standsFor_legible.literal token htoken ?_ t h
  cases hkind : token.kind with
  | text content =>
    rw [hkind] at hprose
    exact hprose
  | _ =>
    rw [hkind] at h
    simp [isPlainLiteral, h]

/-- The operators in front of their operand. -/
theorem prefixOperator?_cases {kind : TokenKind} (h : prefixOperator? kind = some o) :
    o = .not ∨ o = .bang ∨ o = .changeSign ∨ o = .invertBits ∧ kind = .symbol .tilde := by
  cases kind with
  | keyword keyword =>
    cases keyword <;> cases h
    simp
  | symbol symbol => cases symbol <;> cases h <;> simp
  | _ => cases h

/-- **A phrase renders as a text that shows its shape.** -/
theorem Grammar.Derives.printed (hbare : BareFields host w) (h : Derives k n piece words)
    (hwords : ∀ token ∈ words, token ∈ lex source ∧ isProse token.kind = true) :
    PrintedPiece host atEnd w k piece words := by
  induction h with
  | @operand k token t h =>
    obtain ⟨htoken, hprose⟩ := hwords token (by simp)
    refine printed_leaf hbare (legible_of_operandOf? htoken hprose h) ?_
    rintro ⟨-, hopens⟩
    have hparen : token.kind = .symbol .leftParen := hopens
    rw [hparen] at h
    cases h
  | @signed k minus number t hminus h =>
    have hlegible := standsFor_legible.signed minus (hwords minus (by simp)).1 number (hwords number (by simp)).1 t h
    refine printed_leaf hbare hlegible ?_
    rintro ⟨-, hopens⟩
    have hparen : minus.kind = .symbol .leftParen := hopens
    rw [hparen] at hminus
    cases hminus
  | parenthesis _ _ _ ih =>
    rw [List.forall_mem_cons, List.forall_mem_append] at hwords
    obtain ⟨hne, hall⟩ := ih hwords.2.1
    exact (printed_par hne hall).weaken fun _ => trivial
  | @before k token o t words ho _ h ih =>
    obtain ⟨⟨-, hprose⟩, hrest⟩ := List.forall_mem_cons.1 hwords
    have hopens : ¬ (30 ≤ k ∧ opensList (token :: words)) := by
      rintro ⟨-, hopens⟩
      have hparen : token.kind = .symbol .leftParen := hopens
      rw [hparen] at ho
      cases ho
    have hread : AreRead words := fun token htoken => exists_read_of_mem_lex (hrest token htoken).1
    have ht : Printed host atEnd w _ t := ih hrest
    rcases prefixOperator?_cases ho with rfl | rfl | rfl | ⟨rfl, htilde⟩
    · exact printed_not hopens ht
    · exact printed_bang (printed_not hopens ht)
    · exact printed_minus hbare hopens h hread ht
    · rw [htilde] at hprose
      cases hprose
  | @binary k n m o l r words joint more ho hl _ _ _ hlist _ ihl ihr =>
    rw [List.forall_mem_append, List.forall_mem_append] at hwords
    have hleft : Printed host atEnd w _ l := ihl hwords.1
    have hright : Printed host atEnd w _ r := ihr hwords.2.2
    by_cases hor : o = .or
    · subst hor
      exact (printed_or hleft hright).weaken fun _ => trivial
    · refine printed_binary hbare ho hor ?_ ?_ hleft hright
      · rintro rfl
        exact ⟨by decide, hlist rfl⟩
      · exact fun hopens => ⟨hopens.1, opensList_of_append_left hl.ne_nil hopens.2⟩
  | @between k n m v lo hi and words joint lower upper hv _ _ _ _ _ _ _ ihv ihlo ihhi =>
    rw [List.forall_mem_append, List.forall_mem_append, List.forall_mem_append, List.forall_mem_cons] at hwords
    have hvalue : Printed host atEnd w _ v := ihv hwords.1
    refine printed_between ?_ hvalue (ihlo hwords.2.2.1) (ihhi hwords.2.2.2.2)
    exact fun hopens => ⟨hopens.1, opensList_of_append_left hv.ne_nil hopens.2⟩
  | @negation k n t words h ih =>
    have ht : Printed host atEnd w _ t := ih hwords
    exact printed_not (fun hopens => absurd (h.eq_zero hopens.1) (by simp)) ht
  | item _ ih =>
    refine ⟨by simp, List.forall_mem_singleton.2 ?_⟩
    exact Printed.weaken (ih hwords) False.elim
  | comma _ _ _ ih iht =>
    rw [List.forall_mem_append, List.forall_mem_cons] at hwords
    obtain ⟨-, hall⟩ := ih hwords.1
    refine ⟨by simp, List.forall_mem_append.2 ⟨hall, List.forall_mem_singleton.2 ?_⟩⟩
    exact Printed.weaken (iht hwords.2.2) False.elim

end RelationSql
