import RelationSql.Fragment.Literal

/-!
# Bind markers

A bind expression stands in a fragment as `[[expression]]`. Markers are taken out only when the
finished statement is rendered, so the binds come in the order of the text.

A marker starts at the leftmost `[[` that a `]]` follows on the same line. It ends with the run of
closing brackets that starts at the first `]]`: two of them close the marker, the others belong to
the expression. `cut` takes a statement apart into its markers and the text around them.
-/

namespace RelationSql.Fragment

/-- The marker of a bind expression. -/
def insertBind (expression : String) : String :=
  "[[" ++ expression ++ "]]"

/-- Reads the marker whose opening brackets were just read: its expression and what follows it. -/
def readMarker : List Char → Option (List Char × List Char)
  | [] => none
  | ']' :: ']' :: cs => some (cs.takeWhile (· == ']'), cs.dropWhile (· == ']'))
  | c :: cs =>
    if c = '\n' then none else (readMarker cs).map fun parts => (c :: parts.1, parts.2)

/-- What follows a marker is shorter than the text after its opening brackets. -/
theorem length_readMarker_lt {cs expression rest : List Char}
    (h : readMarker cs = some (expression, rest)) : rest.length < cs.length := by
  fun_induction readMarker cs generalizing expression with
  | case1 => cases h
  | case2 cs =>
    simp only [Option.some.injEq, Prod.mk.injEq] at h
    have := (List.dropWhile_sublist (· == ']') (l := cs)).length_le
    rw [h.2] at this
    simp only [List.length_cons]
    omega
  | case3 => cases h
  | case4 c cs _ _ ih =>
    obtain ⟨parts, hp, he⟩ := Option.map_eq_some_iff.1 h
    obtain ⟨e, r⟩ := parts
    simp only [Prod.mk.injEq] at he
    have hparts : readMarker cs = some (e, rest) := by rw [hp, he.2]
    have := ih hparts
    simp only [List.length_cons]
    omega

/-- A statement cut at its markers. -/
structure Cut where
  /-- Each marker's expression with the text between it and the marker before. -/
  markers : List (List Char × List Char)
  /-- The text after the last marker. -/
  tail : List Char
  deriving DecidableEq, Repr

/-- Puts one character of plain text in front. -/
def Cut.cons (c : Char) : Cut → Cut
  | ⟨[], tail⟩ => ⟨[], c :: tail⟩
  | ⟨(before, expression) :: markers, tail⟩ => ⟨(c :: before, expression) :: markers, tail⟩

/-- Puts a marker in front. -/
def Cut.marker (expression : List Char) (cut : Cut) : Cut :=
  ⟨([], expression) :: cut.markers, cut.tail⟩

/-- Takes a statement apart at its markers. -/
def cut : List Char → Cut
  | '[' :: '[' :: cs =>
    match _h : readMarker cs with
    | some (expression, rest) => (cut rest).marker expression
    | none => (cut ('[' :: cs)).cons '['
  | c :: cs => (cut cs).cons c
  | [] => ⟨[], []⟩
termination_by text => text.length
decreasing_by
  · have := length_readMarker_lt _h
    simp only [List.length_cons]
    omega
  · simp only [List.length_cons]
    omega
  · simp only [List.length_cons]
    omega

/-- The bind expressions in the order of the text. -/
def Cut.expressions (cut : Cut) : List (List Char) :=
  cut.markers.map Prod.snd

/-- The text with one filling in the place of every marker. -/
def Cut.fill (filling : List Char) (cut : Cut) : List Char :=
  cut.markers.flatMap (fun marker => marker.1 ++ filling) ++ cut.tail

end RelationSql.Fragment
