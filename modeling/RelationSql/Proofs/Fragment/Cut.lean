import RelationSql.Fragment.Marker

/-!
# Cutting a text at its markers

A text into which markers were put is cut at exactly these markers (`cut_marked`), if the text around
them holds no opening bracket and no marker is followed by a closing one. An expression may hold
brackets of its own: it only must not close its marker early (`Bindable`).
-/

namespace RelationSql.Fragment

/-! ## Markers -/

/-- Can the expression stand in a marker? It is one line, and two closing brackets stand together only
in the run of closing brackets at its end. -/
structure Bindable (expression : List Char) : Prop where
  line : '\n' ∉ expression
  closes : ∀ before after, expression = before ++ ']' :: ']' :: after → ∀ c ∈ after, c = ']'

/-- What follows the first character of an expression can stand in a marker, too. -/
theorem Bindable.tail {c : Char} {cs : List Char} (h : Bindable (c :: cs)) : Bindable cs where
  line := fun hmem => h.line (List.mem_cons_of_mem c hmem)
  closes := by
    intro before after heq
    exact h.closes (c :: before) after (by rw [heq, List.cons_append])

theorem takeWhile_brackets {run rest : List Char} (hrun : ∀ c ∈ run, c = ']')
    (hrest : rest.head? ≠ some ']') : (run ++ rest).takeWhile (· == ']') = run := by
  rw [List.takeWhile_append_of_pos fun c hc => by simp [hrun c hc]]
  cases rest with
  | nil => simp
  | cons c rest =>
    have hc : c ≠ ']' := by simpa using hrest
    simp [hc]

theorem dropWhile_brackets {run rest : List Char} (hrun : ∀ c ∈ run, c = ']')
    (hrest : rest.head? ≠ some ']') : (run ++ rest).dropWhile (· == ']') = rest := by
  rw [List.dropWhile_append_of_pos fun c hc => by simp [hrun c hc]]
  cases rest with
  | nil => rfl
  | cons c rest =>
    have hc : c ≠ ']' := by simpa using hrest
    simp [hc]

/-- Two closing brackets behind a run of them stand as well in front of it. -/
theorem brackets_append {run : List Char} (hrun : ∀ c ∈ run, c = ']') (rest : List Char) :
    run ++ ']' :: ']' :: rest = ']' :: ']' :: (run ++ rest) := by
  induction run with
  | nil => rfl
  | cons c run ih =>
    rw [List.forall_mem_cons] at hrun
    rw [List.cons_append, ih hrun.2, hrun.1]
    rfl

/-- A run of closing brackets closes a marker with its last two. -/
theorem readMarker_brackets {run rest : List Char} (hrun : ∀ c ∈ run, c = ']')
    (hrest : rest.head? ≠ some ']') :
    readMarker (run ++ ']' :: ']' :: rest) = some (run, rest) := by
  rw [brackets_append hrun, readMarker, takeWhile_brackets hrun hrest, dropWhile_brackets hrun hrest]

/-- A character that closes no marker belongs to the expression. -/
theorem readMarker_cons {c : Char} {cs : List Char} (hline : c ≠ '\n')
    (hopen : c = ']' → cs.head? ≠ some ']') :
    readMarker (c :: cs) = (readMarker cs).map fun parts => (c :: parts.1, parts.2) := by
  rw [readMarker, if_neg hline]
  rintro rest rfl rfl
  exact hopen rfl rfl

/-- **An expression is read back from its marker.** -/
theorem readMarker_append {expression rest : List Char} (h : Bindable expression)
    (hrest : rest.head? ≠ some ']') :
    readMarker (expression ++ ']' :: ']' :: rest) = some (expression, rest) := by
  induction expression with
  | nil => exact readMarker_brackets (by simp) hrest
  | cons c cs ih =>
    by_cases hrun : ∀ d ∈ c :: cs, d = ']'
    · exact readMarker_brackets hrun hrest
    · have hline : c ≠ '\n' := fun hc => h.line (hc ▸ List.mem_cons_self)
      have hopen : c = ']' → (cs ++ ']' :: ']' :: rest).head? ≠ some ']' := by
        rintro rfl hhead
        cases cs with
        | nil => exact hrun (by simp)
        | cons d ds =>
          -- two brackets in front leave only brackets behind them
          obtain rfl : d = ']' := by simpa using hhead
          exact hrun (by simpa using h.closes [] ds rfl)
      rw [List.cons_append, readMarker_cons hline hopen, ih h.tail]
      rfl

/-- An expression that is only closing brackets can stand in a marker. -/
theorem bindable_brackets {run : List Char} (hrun : ∀ c ∈ run, c = ']') : Bindable run where
  line := fun hmem => absurd (hrun _ hmem) (by decide)
  closes := by
    rintro before after rfl c hc
    exact hrun c (by simp [hc])

/-- An expression that is read back from its marker can stand in one. -/
theorem bindable_of_readMarker {expression rest : List Char}
    (hread : readMarker (expression ++ ']' :: ']' :: rest) = some (expression, rest)) :
    Bindable expression := by
  induction expression with
  | nil => exact bindable_brackets (by simp)
  | cons c cs ih =>
    by_cases hopen : c = ']' ∧ (cs ++ ']' :: ']' :: rest).head? = some ']'
    · -- the marker is closed at once, so the expression is the run of brackets behind
      obtain ⟨rfl, hhead⟩ := hopen
      apply bindable_brackets
      cases cs with
      | nil => simp
      | cons d ds =>
        obtain rfl : d = ']' := by simpa using hhead
        simp only [List.cons_append, readMarker, Option.some.injEq, Prod.mk.injEq] at hread
        intro e he
        rw [← hread.1] at he
        exact eq_of_beq (List.all_eq_true.1 List.all_takeWhile e he)
    · have hline : c ≠ '\n' := by
        rintro rfl
        simp [readMarker] at hread
      rw [List.cons_append, readMarker_cons hline fun hc hhead => hopen ⟨hc, hhead⟩,
        Option.map_eq_some_iff] at hread
      obtain ⟨parts, hparts, heq⟩ := hread
      obtain ⟨read, left⟩ := parts
      cases heq
      have htail := ih hparts
      refine ⟨?_, ?_⟩
      · rw [List.mem_cons, not_or]
        exact ⟨Ne.symm hline, htail.line⟩
      · rintro (_ | ⟨d, before⟩) after heq
        · -- a bracket in front of another would have closed the marker
          rw [List.nil_append, List.cons.injEq] at heq
          obtain ⟨rfl, rfl⟩ : c = ']' ∧ read = ']' :: after := heq
          exact absurd ⟨rfl, rfl⟩ hopen
        · rw [List.cons_append, List.cons.injEq] at heq
          exact htail.closes before after heq.2

/-- **An expression can stand in a marker exactly if it is read back from its marker.** -/
theorem bindable_iff (expression : List Char) :
    Bindable expression ↔ readMarker (expression ++ [']', ']']) = some (expression, []) :=
  ⟨fun h => readMarker_append h (by simp), bindable_of_readMarker⟩

instance (expression : List Char) : Decidable (Bindable expression) :=
  decidable_of_iff _ (bindable_iff expression).symm

/-! ## Any expressions -/

section Reading

variable {cs expression read rest left : List Char}

/-- A marker reads one line, up to two closing brackets that no third one follows. -/
theorem readMarker_spec (h : readMarker cs = some (read, left)) :
    cs = read ++ ']' :: ']' :: left ∧ '\n' ∉ read := by
  fun_induction readMarker cs generalizing read with
  | case1 => cases h
  | case2 cs =>
    cases h
    have hrun : ∀ c ∈ cs.takeWhile (· == ']'), c = ']' := fun c hc =>
      eq_of_beq (List.all_eq_true.1 List.all_takeWhile c hc)
    refine ⟨?_, fun hmem => absurd (hrun _ hmem) (by decide)⟩
    rw [brackets_append hrun, List.takeWhile_append_dropWhile]
  | case3 => cases h
  | case4 c cs _ hline ih =>
    obtain ⟨⟨_, _⟩, hread, heq⟩ := Option.map_eq_some_iff.1 h
    cases heq
    obtain ⟨rfl, hlines⟩ := ih hread
    refine ⟨rfl, ?_⟩
    rw [List.mem_cons, not_or]
    exact ⟨Ne.symm hline, hlines⟩

/-- An expression on one line is read at least in part. -/
theorem isSome_readMarker (h : '\n' ∉ expression) (rest : List Char) :
    (readMarker (expression ++ ']' :: ']' :: rest)).isSome := by
  induction expression with
  | nil => rfl
  | cons c cs ih =>
    rw [List.mem_cons, not_or] at h
    rw [List.cons_append]
    by_cases hclosed : c = ']' ∧ (cs ++ ']' :: ']' :: rest).head? = some ']'
    · obtain ⟨rfl, hhead⟩ := hclosed
      obtain ⟨ds, hds⟩ := List.head?_eq_some_iff.1 hhead
      rw [hds]
      rfl
    · rw [readMarker_cons (Ne.symm h.1) fun hc hhead => hclosed ⟨hc, hhead⟩, Option.isSome_map]
      exact ih h.2

/-- A marker reads no more than the expression that was put in. -/
theorem length_readMarker_le (hrest : rest.head? ≠ some ']')
    (h : readMarker (expression ++ ']' :: ']' :: rest) = some (read, left)) :
    read.length ≤ expression.length := by
  induction expression generalizing read with
  | nil =>
    rw [readMarker_append (bindable_brackets (by simp)) hrest] at h
    cases h
    exact Nat.le_refl _
  | cons c cs ih =>
    by_cases hclosed : c = ']' ∧ (cs ++ ']' :: ']' :: rest).head? = some ']'
    · -- what is read is a run of brackets, and if it is longer than the expression, so is the expression
      obtain ⟨rfl, hhead⟩ := hclosed
      obtain ⟨ds, hds⟩ := List.head?_eq_some_iff.1 hhead
      have hrun : ∀ c ∈ read, c = ']' := by
        rw [List.cons_append, hds, readMarker] at h
        cases h
        exact fun c hc => eq_of_beq (List.all_eq_true.1 List.all_takeWhile c hc)
      refine Nat.le_of_not_lt fun hlonger => ?_
      have hread : read <+: ']' :: cs ++ ']' :: ']' :: rest := ⟨_, (readMarker_spec h).1.symm⟩
      have hfront : ']' :: cs <+: read :=
        List.prefix_of_prefix_length_le (List.prefix_append _ _) hread (Nat.le_of_lt hlonger)
      have hexpression : ∀ c ∈ ']' :: cs, c = ']' := fun c hc => hrun c (hfront.subset hc)
      rw [readMarker_brackets hexpression hrest] at h
      cases h
      exact Nat.lt_irrefl _ hlonger
    · have hline : c ≠ '\n' := by
        rintro rfl
        simp [readMarker] at h
      rw [List.cons_append, readMarker_cons hline fun hc hhead => hclosed ⟨hc, hhead⟩,
        Option.map_eq_some_iff] at h
      obtain ⟨⟨part, _⟩, hread, heq⟩ := h
      cases heq
      exact Nat.succ_le_succ (ih hread)

end Reading

/-! ## The whole text -/

/-- A character that opens no marker is cut off alone. -/
theorem cut_cons {c : Char} (h : c ≠ '[') (cs : List Char) : cut (c :: cs) = (cut cs).cons c := by
  rw [cut]
  rintro rest rfl
  exact absurd rfl h

/-- A marker is cut off with its expression. -/
theorem cut_marker {cs expression rest : List Char} (h : readMarker cs = some (expression, rest)) :
    cut ('[' :: '[' :: cs) = (cut rest).marker expression := by
  rw [cut]
  split
  · next heq =>
    rw [h] at heq
    cases heq
    rfl
  · next heq =>
    rw [h] at heq
    cases heq

/-- Text without opening brackets in front of a text whose cut starts with a marker. -/
theorem cut_append_marker {text rest before expression : List Char}
    {markers : List (List Char × List Char)} {tail : List Char} (h : '[' ∉ text)
    (hcut : cut rest = ⟨(before, expression) :: markers, tail⟩) :
    cut (text ++ rest) = ⟨(text ++ before, expression) :: markers, tail⟩ := by
  induction text with
  | nil => exact hcut
  | cons c cs ih =>
    rw [List.mem_cons, not_or] at h
    rw [List.cons_append, cut_cons (Ne.symm h.1), ih h.2]
    rfl

/-- Text without opening brackets holds no marker. -/
theorem cut_of_plain {text : List Char} (h : '[' ∉ text) : cut text = ⟨[], text⟩ := by
  induction text with
  | nil => rw [cut]
  | cons c cs ih =>
    rw [List.mem_cons, not_or] at h
    rw [cut_cons (Ne.symm h.1), ih h.2]
    rfl

/-- A text with its markers put back in. -/
def Cut.marked (cut : Cut) : List Char :=
  cut.markers.flatMap (fun marker => marker.1 ++ '[' :: '[' :: (marker.2 ++ [']', ']'])) ++ cut.tail

/-- The texts around the markers, from the first to the last. -/
def Cut.texts (cut : Cut) : List (List Char) :=
  cut.markers.map Prod.fst ++ [cut.tail]

/-- Texts without opening brackets, between them expressions that can stand in markers, and no closing
bracket right behind a marker. -/
structure Cut.Clean (cut : Cut) : Prop where
  plain : ∀ text ∈ cut.texts, '[' ∉ text
  bindable : ∀ expression ∈ cut.expressions, Bindable expression
  behind : ∀ text ∈ cut.texts.tail, text.head? ≠ some ']'

/-- Behind a marker of a clean text stands no closing bracket. -/
theorem head?_marked {markers : List (List Char × List Char)} {tail : List Char}
    (h : ∀ text ∈ (⟨markers, tail⟩ : Cut).texts, text.head? ≠ some ']') :
    (⟨markers, tail⟩ : Cut).marked.head? ≠ some ']' := by
  cases markers with
  | nil => exact h tail (by simp [Cut.texts])
  | cons marker markers =>
    obtain ⟨text, expression⟩ := marker
    have htext := h text (by simp [Cut.texts])
    cases text with
    | nil => simp [Cut.marked]
    | cons c cs => simpa [Cut.marked] using htext

/-- **A text is cut at the markers that were put into it, and nowhere else.** -/
theorem cut_marked {parts : Cut} (h : parts.Clean) : cut parts.marked = parts := by
  obtain ⟨markers, tail⟩ := parts
  induction markers with
  | nil => exact cut_of_plain (h.plain tail (by simp [Cut.texts]))
  | cons marker markers ih =>
    obtain ⟨text, expression⟩ := marker
    have hrest : (⟨markers, tail⟩ : Cut).Clean := by
      refine ⟨fun t ht => h.plain t ?_, fun e he => h.bindable e ?_, fun t ht => h.behind t ?_⟩
      · exact List.mem_cons_of_mem text ht
      · exact List.mem_cons_of_mem expression he
      · exact List.mem_of_mem_tail ht
    have hread : readMarker (expression ++ ']' :: ']' :: (⟨markers, tail⟩ : Cut).marked) =
        some (expression, (⟨markers, tail⟩ : Cut).marked) :=
      readMarker_append (h.bindable expression (by simp [Cut.expressions])) (head?_marked h.behind)
    have hcut : cut ('[' :: '[' :: (expression ++ ']' :: ']' :: (⟨markers, tail⟩ : Cut).marked)) =
        ⟨([], expression) :: markers, tail⟩ := by
      rw [cut_marker hread, ih hrest]
      rfl
    have hsplit : (⟨(text, expression) :: markers, tail⟩ : Cut).marked =
        text ++ '[' :: '[' :: (expression ++ ']' :: ']' :: (⟨markers, tail⟩ : Cut).marked) := by
      simp [Cut.marked]
    rw [hsplit, cut_append_marker (h.plain text (by simp [Cut.texts])) hcut, List.append_nil]

end RelationSql.Fragment
