import RelationSql.Proofs.Grammar.Wrapped

/-!
# Signs and negations in one form

A `!` negates as a `not` does, and a minus in front of a number is the sign of the number. `settled` writes
both in the one form that rendered conditions have for them. With its alternatives in parentheses, the settled
tree is what a rendered condition shows (`shape`).
-/

namespace RelationSql.Grammar

variable {o : Operator} {t l r : Tree} {ts : List Tree} {tag : Tag} {digits : String}

/-! ## Signs -/

/-- The number that the tree is, if it has no sign yet. -/
def unsigned? : Tree → Option (Tag × String)
  | .node tag [.atom digits] =>
    if (tag = .integer ∨ tag = .real) ∧ digits.toList.head? ≠ some '-' then some (tag, digits) else none
  | _ => none

/-- A minus in front of a tree, which is the sign of a number that has none yet. -/
def withSign (t : Tree) : Tree :=
  match unsigned? t with
  | some (tag, digits) => .leaf tag ("-" ++ digits)
  | none => .node (.op .changeSign) [t]

/-- Numbers are leaves without a sign. -/
theorem unsigned?_eq_some (h : unsigned? t = some (tag, digits)) :
    t = .leaf tag digits ∧ (tag = .integer ∨ tag = .real) ∧ digits.toList.head? ≠ some '-' := by
  unfold unsigned? at h
  split at h
  · split at h
    · next hnumber =>
      cases h
      exact ⟨rfl, hnumber⟩
    · cases h
  · cases h

theorem unsigned?_leaf (htag : tag = .integer ∨ tag = .real) (hdigits : digits.toList.head? ≠ some '-') :
    unsigned? (.leaf tag digits) = some (tag, digits) :=
  if_pos ⟨htag, hdigits⟩

theorem unsigned?_of_tag (h : t.tag? ≠ some .integer ∧ t.tag? ≠ some .real) : unsigned? t = none := by
  cases hnumber : unsigned? t with
  | none => rfl
  | some number =>
    obtain ⟨rfl, htag, -⟩ := unsigned?_eq_some hnumber
    rcases htag with htag | htag
    · exact absurd (congrArg some htag) h.1
    · exact absurd (congrArg some htag) h.2

/-- A number with a sign gets no further one. -/
theorem unsigned?_withSign (t : Tree) : unsigned? (withSign t) = none := by
  unfold withSign
  split
  · exact if_neg fun hnumber => hnumber.2 (by simp)
  · exact unsigned?_of_tag (by simp [Tree.tag?])

/-! ## One form -/

mutual

/-- The tree with one form for negations and one for signed numbers. -/
def settled : Tree → Tree
  | .atom text => .atom text
  | .node (.op .bang) ts => .node (.op .not) (settledAll ts)
  | .node (.op .changeSign) [t] => withSign (settled t)
  | .node tag ts => .node tag (settledAll ts)

/-- The trees with one form for negations and one for signed numbers. -/
def settledAll : List Tree → List Tree
  | [] => []
  | t :: ts => settled t :: settledAll ts

end

/-- The tree that a rendered condition shows. -/
def shape (t : Tree) : Tree :=
  wrapOr (settled t)

theorem settledAll_eq_map (ts : List Tree) : settledAll ts = ts.map settled := by
  induction ts with
  | nil => simp [settledAll]
  | cons t ts ih => rw [settledAll, ih, List.map_cons]

theorem settled_changeSign (t : Tree) : settled (.node (.op .changeSign) [t]) = withSign (settled t) := by
  simp [settled]

theorem settled_bang (ts : List Tree) : settled (.node (.op .bang) ts) = .node (.op .not) (ts.map settled) := by
  simp [settled, settledAll_eq_map]

/-- Any other node is settled below its root. -/
theorem settled_node (hbang : tag ≠ .op .bang) (hsign : ∀ u, tag = .op .changeSign → ts ≠ [u]) :
    settled (.node tag ts) = .node tag (ts.map settled) := by
  rw [settled, settledAll_eq_map]
  · exact hbang
  · exact hsign

/-- What a tree is settled to. -/
theorem settled_cases (t : Tree) : (∃ text, t = .atom text ∧ settled t = .atom text) ∨
    (∃ ts, t = .node (.op .bang) ts ∧ settled t = .node (.op .not) (ts.map settled)) ∨
    (∃ u, t = .node (.op .changeSign) [u] ∧ settled t = withSign (settled u)) ∨
      ∃ tag ts, t = .node tag ts ∧ settled t = .node tag (ts.map settled) := by
  cases t with
  | atom text => exact .inl ⟨text, rfl, by simp [settled]⟩
  | node tag ts =>
    by_cases hbang : tag = .op .bang
    · subst hbang
      exact .inr (.inl ⟨ts, rfl, settled_bang ts⟩)
    · by_cases hsign : tag = .op .changeSign ∧ ∃ u, ts = [u]
      · obtain ⟨rfl, u, rfl⟩ := hsign
        exact .inr (.inr (.inl ⟨u, rfl, settled_changeSign u⟩))
      · exact .inr (.inr (.inr ⟨tag, ts, rfl, settled_node hbang (fun u htag hts => hsign ⟨htag, u, hts⟩)⟩))

/-- A minus in front of a tree stays a minus, or becomes part of a number. -/
theorem withSign_cases (t : Tree) : withSign t = .node (.op .changeSign) [t] ∨
    ∃ tag digits, (tag = .integer ∨ tag = .real) ∧ withSign t = .leaf tag digits := by
  unfold withSign
  split
  · next hnumber =>
    obtain ⟨-, htag, -⟩ := unsigned?_eq_some hnumber
    exact .inr ⟨_, _, htag, rfl⟩
  · exact .inl rfl

/-! ## Shapes -/

theorem isOr_settled (t : Tree) : isOr (settled t) = isOr t := by
  rcases settled_cases t with ⟨text, rfl, heq⟩ | ⟨ts, rfl, heq⟩ | ⟨u, rfl, heq⟩ | ⟨tag, ts, rfl, heq⟩
  · rw [heq]
  · rw [heq]
    rfl
  · rw [heq]
    rcases withSign_cases (settled u) with hsign | ⟨tag, digits, rfl | rfl, hsign⟩
    all_goals
      rw [hsign]
      rfl
  · rw [heq]
    rfl

/-- A parenthesis keeps its shape, unless it holds an alternative alone. -/
theorem shape_par (h : ∀ t, ts = [t] → isOr t = false) : shape (.node .par ts) = .node .par (ts.map shape) := by
  have hsettled : ∀ t, ts.map settled = [t] → isOr t = false := by
    intro t ht
    obtain ⟨u, rfl, rfl⟩ := List.map_eq_singleton_iff.1 ht
    rw [isOr_settled]
    exact h u rfl
  rw [shape, settled_node (by simp) (by simp), wrapOr_par hsettled, List.map_map]
  rfl

/-- An alternative alone in a parenthesis has the shape of the alternative. -/
theorem shape_par_or (h : isOr t = true) : shape (.node .par [t]) = shape t := by
  cases t with
  | atom text => cases h
  | node tag ts =>
    rw [isOr, Tree.tag?, beq_iff_eq, Option.some.injEq] at h
    subst h
    rw [shape, shape, settled_node (by simp) (by simp), List.map_singleton, settled_node (by simp) (by simp),
      wrapOr_par_or]

theorem shape_or (ts : List Tree) : shape (.node (.op .or) ts) = .node .par [.node (.op .or) (ts.map shape)] := by
  rw [shape, settled_node (by simp) (by simp), wrapOr_or, List.map_map]
  rfl

/-- An operator between operands keeps its shape. -/
theorem shape_op (ho : o ≠ .or) (hbang : o ≠ .bang) (hsign : o ≠ .changeSign) (ts : List Tree) :
    shape (.node (.op o) ts) = .node (.op o) (ts.map shape) := by
  rw [shape, settled_node (by simpa using hbang) (by simp [hsign]), wrapOr_op ho, List.map_map]
  rfl

theorem shape_bang (t : Tree) : shape (.node (.op .bang) [t]) = .node (.op .not) [shape t] := by
  rw [shape, settled_bang, wrapOr_op (by simp)]
  rfl

theorem shape_not (t : Tree) : shape (.node (.op .not) [t]) = .node (.op .not) [shape t] :=
  shape_op (by simp) (by simp) (by simp) [t]

theorem exists_wrapOr_node (tag : Tag) (ts : List Tree) : ∃ tag' us, wrapOr (.node tag ts) = .node tag' us := by
  rcases parenthesised_cases (wrapBelow (.node tag ts)) with heq | ⟨us, -, heq⟩
  · have htag := tag?_wrapBelow (.node tag ts)
    cases hbelow : wrapBelow (.node tag ts) with
    | atom text =>
      rw [hbelow] at htag
      cases htag
    | node tag' us => exact ⟨tag', us, by rw [wrapOr, heq, hbelow]⟩
  · exact ⟨_, _, heq⟩

/-- Wrapping keeps numbers, and makes none. -/
theorem unsigned?_wrapOr (t : Tree) : unsigned? (wrapOr t) = unsigned? t := by
  cases t with
  | atom text => rfl
  | node tag ts =>
    by_cases hnumber : tag = .integer ∨ tag = .real
    · have hwrap : wrapOr (.node tag ts) = .node tag (ts.map wrapOr) := by
        rcases hnumber with rfl | rfl
        all_goals
          rw [wrapOr, wrapBelow, wrapAll_eq_map]
          · rfl
          · simp
      rw [hwrap]
      rcases ts with _ | ⟨u, _ | ⟨v, ts⟩⟩
      · rfl
      · cases u with
        | atom text => rfl
        | node tag' us =>
          obtain ⟨tag'', us', heq⟩ := exists_wrapOr_node tag' us
          rw [List.map_singleton, heq]
          rfl
      · simp [unsigned?]
    · rw [not_or] at hnumber
      have htag : (wrapOr (.node tag ts)).tag? = some tag ∨ (wrapOr (.node tag ts)).tag? = some .par := by
        rcases parenthesised_cases (wrapBelow (.node tag ts)) with heq | ⟨us, -, heq⟩
        · rw [wrapOr, heq, tag?_wrapBelow]
          exact .inl rfl
        · rw [wrapOr, heq]
          exact .inr rfl
      have hnone : unsigned? (.node tag ts) = none := unsigned?_of_tag (by simpa [Tree.tag?] using hnumber)
      rw [hnone]
      apply unsigned?_of_tag
      rcases htag with htag | htag
      · rw [htag]
        simpa using hnumber
      · rw [htag]
        simp

theorem shape_changeSign (t : Tree) : shape (.node (.op .changeSign) [t]) = withSign (shape t) := by
  rw [shape, settled_changeSign, withSign, withSign, shape, unsigned?_wrapOr]
  split
  · next hnumber =>
    obtain ⟨-, htag, -⟩ := unsigned?_eq_some hnumber
    rcases htag with rfl | rfl <;> rfl
  · exact wrapOr_op (by simp) _

theorem eq_atom_of_settled {text : String} (h : settled t = .atom text) : t = .atom text := by
  rcases settled_cases t with ⟨text', rfl, heq⟩ | ⟨ts, rfl, heq⟩ | ⟨u, rfl, heq⟩ | ⟨tag, ts, rfl, heq⟩
  · exact heq.symm.trans h
  · rw [heq] at h
    cases h
  · rw [heq] at h
    rcases withSign_cases (settled u) with hsign | ⟨tag, digits, -, hsign⟩
    all_goals
      rw [hsign] at h
      cases h
  · rw [heq] at h
    cases h

/-- **A tree that is shown as a number without a sign is that number.** -/
theorem eq_leaf_of_unsigned?_shape (h : unsigned? (shape t) = some (tag, digits)) : t = .leaf tag digits := by
  rw [shape, unsigned?_wrapOr] at h
  obtain ⟨hleaf, htag, -⟩ := unsigned?_eq_some h
  rcases settled_cases t with ⟨text, rfl, heq⟩ | ⟨ts, rfl, heq⟩ | ⟨u, rfl, heq⟩ | ⟨tag', ts, rfl, heq⟩
  · rw [heq] at h
    cases h
  · rw [heq, unsigned?_of_tag (by simp [Tree.tag?])] at h
    cases h
  · rw [heq, unsigned?_withSign] at h
    cases h
  · rw [heq] at hleaf
    injection hleaf with htags hmap
    subst htags
    obtain ⟨u, rfl, hu⟩ := List.map_eq_singleton_iff.1 hmap
    rw [eq_atom_of_settled hu]
    rfl

end RelationSql.Grammar
