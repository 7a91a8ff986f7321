import RelationSql.Proofs.Fragment.Segments
import RelationSql.Sql.Value

/-!
# Fragments that differ in their literals

A fragment consists of plain text, markers and protected literals. A template is such a list of pieces
with two contents for every literal, and two fragments are alike if they are the two fillings of one
template (`Alike`). Whatever the contents are, a filling consists of segments of which only the literals
depend on the contents (`flatMap_fragment`, `filterMap_bind?`).
-/

namespace RelationSql.Fragment

/-! ## Plain text -/

variable {text text' more : String}

@[simp]
theorem plain_append : Plain (text ++ more) ↔ Plain text ∧ Plain more :=
  lacks_append

/-- A text of characters of a class without special ones is plain. -/
theorem plain_of_forall {p : Char → Prop} (hp : ∀ c ∈ specials, ¬ p c)
    (h : ∀ c ∈ text.toList, p c) : Plain text :=
  lacks_of_forall hp h

theorem plain_joinWith {separator : String} (hseparator : Plain separator) {texts : List String}
    (h : ∀ text ∈ texts, Plain text) : Plain (Text.joinWith separator texts) :=
  lacks_joinWith hseparator h

theorem plain_toString (n : Nat) : Plain (toString n) :=
  isClass_specials.number n

theorem plain_upper (h : Plain text) : Plain (Text.upper text) :=
  isClass_specials.upper h

/-! ## Templates -/

/-- A piece of a fragment. A literal has a content on either side. -/
inductive Piece where
  | text (written : String)
  | marker (expression : String)
  | literal (contents : String × String)
  deriving DecidableEq, Repr

namespace Piece

/-- The text and the expressions are plain, and the contents of the literals belong together. -/
def Sound (P : String → String → Prop) : Piece → Prop
  | .text written => Plain written
  | .marker expression => Plain expression
  | .literal contents => P contents.1 contents.2

/-- The piece with something in the place of a marker. -/
def filled (filling : List Char) (pick : String × String → String) : Piece → List Char
  | .text written => written.toList
  | .marker _ => filling
  | .literal contents => protect (Value.quoteText (pick contents)).toList

/-- The piece as it stands in a fragment. -/
def fragment (pick : String × String → String) : Piece → List Char
  | .marker expression => (insertBind expression).toList
  | piece => piece.filled [] pick

/-- The piece as it stands in a statement, where a placeholder is in the place of a marker. -/
def sql (placeholder : List Char) (pick : String × String → String) : Piece → List Char
  | .text written => written.toList
  | .marker _ => placeholder
  | .literal contents => (Value.quoteText (pick contents)).toList

/-- The expression of a marker. -/
def bind? : Piece → Option String
  | .marker expression => some expression
  | _ => none

end Piece

/-- A fragment or a statement by its pieces. -/
abbrev Template := List Piece

variable {P : String → String → Prop} {pick : String × String → String} {template : Template}

/-- A quoted text starts with its quote. -/
theorem head?_quoteText_ne (content : String) : (Value.quoteText content).toList.head? ≠ some ']' := by
  rw [Value.quoteText, String.toList_ofList, Value.wrapDoubled, List.cons_append, List.head?_cons]
  decide

namespace Piece

/-- The segment that the piece is filled to. -/
def segment (pick : String × String → String) : Piece → Segment
  | .text written => .text written
  | .marker expression => .bind expression
  | .literal contents => .literal (Value.quoteText (pick contents))

variable {piece : Piece}

theorem fragment_segment (piece : Piece) : (piece.segment pick).fragment = piece.fragment pick := by
  cases piece <;> rfl

theorem sql_segment (placeholder : List Char) (piece : Piece) :
    (piece.segment pick).sql placeholder = piece.sql placeholder pick := by
  cases piece <;> rfl

theorem bind?_segment (piece : Piece) : (piece.segment pick).bind? = piece.bind? := by
  cases piece <;> rfl

theorem sound_segment (h : piece.Sound P) : (piece.segment pick).Sound := by
  cases piece with
  | text written => exact h
  | marker expression => exact trivial
  | literal contents => exact head?_quoteText_ne (pick contents)

/-- The expression of a sound marker is kept. -/
theorem kept_of_bind? {expression : String} (h : piece.Sound P) (hbind : piece.bind? = some expression) :
    Kept expression := by
  cases piece with
  | marker =>
    cases hbind
    exact Plain.kept h
  | text => cases hbind
  | literal => cases hbind

end Piece

/-- A filled template consists of segments. -/
theorem flatMap_fragment (pick : String × String → String) (template : Template) :
    template.flatMap (Piece.fragment pick) =
      (template.map (Piece.segment pick)).flatMap Segment.fragment := by
  rw [List.flatMap_map]
  exact congrArg (List.flatMap · template) (funext fun piece => piece.fragment_segment.symm)

theorem flatMap_sql (placeholder : List Char) (pick : String × String → String) (template : Template) :
    template.flatMap (Piece.sql placeholder pick) =
      (template.map (Piece.segment pick)).flatMap (Segment.sql placeholder) := by
  rw [List.flatMap_map]
  exact congrArg (List.flatMap · template) (funext fun piece => (piece.sql_segment placeholder).symm)

/-- The contents of the literals do not show in the expressions. -/
theorem filterMap_bind? (pick : String × String → String) (template : Template) :
    template.filterMap Piece.bind? = (template.map (Piece.segment pick)).filterMap Segment.bind? := by
  rw [List.filterMap_map]
  exact congrArg (List.filterMap · template) (funext fun piece => piece.bind?_segment.symm)

/-! ## Alike fragments -/

/-- The fragments are the two fillings of one template. -/
def Alike (P : String → String → Prop) (text text' : String) : Prop :=
  ∃ template : Template, (∀ piece ∈ template, piece.Sound P) ∧
    text.toList = template.flatMap (Piece.fragment Prod.fst) ∧
    text'.toList = template.flatMap (Piece.fragment Prod.snd)

theorem Plain.alike (h : Plain text) : Alike P text text :=
  ⟨[.text text], by simpa [Piece.Sound] using h, by simp [Piece.fragment, Piece.filled],
    by simp [Piece.fragment, Piece.filled]⟩

theorem alike_insertBind (h : Plain text) : Alike P (insertBind text) (insertBind text) :=
  ⟨[.marker text], by simpa [Piece.Sound] using h, by simp [Piece.fragment],
    by simp [Piece.fragment]⟩

theorem alike_literal (h : P text text') :
    Alike P (protectText (Value.quoteText text)) (protectText (Value.quoteText text')) :=
  ⟨[.literal (text, text')], by simpa [Piece.Sound] using h,
    by simp [Piece.fragment, Piece.filled, protectText],
    by simp [Piece.fragment, Piece.filled, protectText]⟩

theorem Alike.append {more' : String} (h : Alike P text text') (hmore : Alike P more more') :
    Alike P (text ++ more) (text' ++ more') := by
  obtain ⟨front, hfront, hleft, hright⟩ := h
  obtain ⟨rest, hrest, hleft', hright'⟩ := hmore
  refine ⟨front ++ rest, ?_, ?_, ?_⟩
  · simpa [or_imp, forall_and] using And.intro hfront hrest
  · rw [String.toList_append, hleft, hleft', List.flatMap_append]
  · rw [String.toList_append, hright, hright', List.flatMap_append]

theorem alike_joinWith {separator : String} (hseparator : Plain separator)
    {texts texts' : List String} (h : List.Forall₂ (Alike P) texts texts') :
    Alike P (Text.joinWith separator texts) (Text.joinWith separator texts') := by
  induction h with
  | nil => exact Plain.alike (show Plain "" by decide)
  | cons hfirst hrest ih =>
    cases hrest with
    | nil => exact hfirst
    | cons => exact (hfirst.append hseparator.alike).append ih

end RelationSql.Fragment
