import RelationSql.Proofs.Fragment.Cut
import RelationSql.Proofs.Fragment.Lacks
import RelationSql.Proofs.Fragment.Literal

/-!
# Segments of a statement

A statement consists of plain texts, markers of any expressions and protected literals (`Segment`). A
marker whose expression can stand in it is cut off as a whole, and of any other a part is left behind. So
the expressions that come out are those that were put in exactly if all of them can stand in markers and
hold no escape (`restore_expressions_iff`), and in this case nothing of them is left in the text
(`restore_fill`).
-/

namespace RelationSql.Fragment

variable {text : String}

/-! ## Plain text -/

/-- The characters with a meaning in fragments or in markers. -/
def specials : List Char := ['[', ']', escape, '\n']

/-- The text holds no brackets, escape characters or line feeds. -/
def Plain (text : String) : Prop :=
  ∀ c ∈ specials, c ∉ text.toList

instance (text : String) : Decidable (Plain text) :=
  inferInstanceAs (Decidable (∀ c ∈ specials, c ∉ text.toList))

theorem isClass_specials : IsClass specials := by
  decide

theorem Plain.bindable (h : Plain text) : Bindable text.toList where
  line := h '\n' (by decide)
  closes := by
    intro before after heq
    exact absurd (by simp [heq]) (h ']' (by decide))

/-- Can the expression stand in a marker, and does it come out of it unchanged? -/
def Kept (expression : String) : Prop :=
  Bindable expression.toList ∧ ¬ HoldsEscape expression.toList

instance (expression : String) : Decidable (Kept expression) :=
  inferInstanceAs (Decidable (_ ∧ _))

theorem Plain.kept (h : Plain text) : Kept text :=
  ⟨h.bindable, (restore_eq_self_iff _).1 (restore_of_not_mem (h escape (by decide)))⟩

/-! ## Plain texts and markers -/

@[simp]
theorem expressions_cons (c : Char) (parts : Cut) : (parts.cons c).expressions = parts.expressions := by
  rcases parts with ⟨_ | ⟨marker, markers⟩, tail⟩ <;> rfl

@[simp]
theorem fill_cons (c : Char) (parts : Cut) (filling : List Char) :
    (parts.cons c).fill filling = c :: parts.fill filling := by
  rcases parts with ⟨_ | ⟨marker, markers⟩, tail⟩ <;> rfl

@[simp]
theorem expressions_marker (expression : List Char) (parts : Cut) :
    (parts.marker expression).expressions = expression :: parts.expressions :=
  rfl

@[simp]
theorem fill_marker (expression : List Char) (parts : Cut) (filling : List Char) :
    (parts.marker expression).fill filling = filling ++ parts.fill filling := by
  simp [Cut.fill, Cut.marker]

/-- The expressions of a text are those behind its plain front. -/
theorem expressions_cut_append {front : List Char} (h : '[' ∉ front) (rest : List Char) :
    (cut (front ++ rest)).expressions = (cut rest).expressions := by
  induction front with
  | nil => rfl
  | cons c front ih =>
    rw [List.mem_cons, not_or] at h
    rw [List.cons_append, cut_cons (Ne.symm h.1), expressions_cons, ih h.2]

/-- A plain front stays in front of a text with fillings. -/
theorem fill_cut_append {front : List Char} (h : '[' ∉ front) (rest filling : List Char) :
    (cut (front ++ rest)).fill filling = front ++ (cut rest).fill filling := by
  induction front with
  | nil => rfl
  | cons c front ih =>
    rw [List.mem_cons, not_or] at h
    rw [List.cons_append, cut_cons (Ne.symm h.1), fill_cons, ih h.2, List.cons_append]

/-- What is cut out of a text stands on one line. -/
theorem lineFeed_not_mem_expressions (cs : List Char) : ∀ e ∈ (cut cs).expressions, '\n' ∉ e := by
  fun_induction cut cs with
  | case1 cs expression rest hread ih =>
    exact List.forall_mem_cons.2 ⟨(readMarker_spec hread).2, ih⟩
  | case2 cs _ ih => rwa [expressions_cons]
  | case3 c cs _ ih => rwa [expressions_cons]
  | case4 => exact List.forall_mem_nil _

/-- Restoring brings in no line feed. -/
theorem lineFeed_mem_of_restore {cs : List Char} (h : '\n' ∈ restore cs) : '\n' ∈ cs := by
  fun_induction restore cs with
  | case1 | case2 => exact h
  | case3 cs ih | case4 cs _ ih =>
    rw [List.mem_cons] at h
    simpa using .inr (ih (h.resolve_left (by decide)))
  | case5 d cs _ _ ih | case6 c d cs _ ih =>
    rw [List.mem_cons] at h ⊢
    exact h.imp_right ih

/-- **The expression of a marker comes out as it was put in exactly if it can stand in a marker and holds
no escape.** Otherwise it is cut off too early, or it is no expression at all. -/
theorem restore_marker_iff {expression rest : List Char} (hrest : rest.head? ≠ some ']')
    (more : List (List Char)) :
    (cut ('[' :: '[' :: (expression ++ ']' :: ']' :: rest))).expressions.map restore = expression :: more ↔
      (Bindable expression ∧ ¬ HoldsEscape expression) ∧ (cut rest).expressions.map restore = more := by
  constructor
  · intro hmap
    cases hread : readMarker (expression ++ ']' :: ']' :: rest) with
    | none =>
      -- the expression goes on behind its line, and no marker does
      have hline : '\n' ∈ expression := by
        by_contra hline
        have hsome := isSome_readMarker hline rest
        rw [hread] at hsome
        cases hsome
      obtain ⟨read, hmem, heq⟩ := List.mem_map.1 (hmap ▸ List.mem_cons_self : expression ∈ List.map _ _)
      rw [← heq] at hline
      exact absurd (lineFeed_mem_of_restore hline) (lineFeed_not_mem_expressions _ _ hmem)
    | some parts =>
      obtain ⟨read, left⟩ := parts
      rw [cut_marker hread, expressions_marker, List.map_cons, List.cons.injEq] at hmap
      obtain ⟨hrestored, hmore⟩ := hmap
      -- neither the marker nor restoring makes the expression longer, so both keep it
      have hlength : (restore read).length = read.length :=
        Nat.le_antisymm (length_restore_le read) (hrestored ▸ length_readMarker_le hrest hread)
      have hescape := (length_restore_eq_iff read).1 hlength
      obtain rfl : read = expression := ((restore_eq_self_iff read).2 hescape).symm.trans hrestored
      obtain rfl : rest = left := by simpa using (readMarker_spec hread).1
      exact ⟨⟨bindable_of_readMarker hread, hescape⟩, hmore⟩
  · rintro ⟨⟨hbindable, hescape⟩, hmore⟩
    rw [cut_marker (readMarker_append hbindable hrest), expressions_marker, List.map_cons, hmore,
      (restore_eq_self_iff expression).2 hescape]

/-! ## Segments -/

/-- A segment of a statement. -/
inductive Segment where
  | text (written : String)
  | bind (expression : String)
  | literal (quoted : String)
  deriving DecidableEq, Repr

namespace Segment

/-- The text is plain, and a literal closes no marker. -/
def Sound : Segment → Prop
  | .text written => Plain written
  | .bind _ => True
  | .literal quoted => quoted.toList.head? ≠ some ']'

/-- The segment with something in the place of a marker. -/
def filled (filling : List Char) : Segment → List Char
  | .text written => written.toList
  | .bind _ => filling
  | .literal quoted => protect quoted.toList

/-- The segment as it stands in a fragment. -/
def fragment : Segment → List Char
  | .bind expression => (insertBind expression).toList
  | segment => segment.filled []

/-- The segment as it stands in a statement, where a placeholder is in the place of a marker. -/
def sql (placeholder : List Char) : Segment → List Char
  | .text written => written.toList
  | .bind _ => placeholder
  | .literal quoted => quoted.toList

/-- The expression of a marker. -/
def bind? : Segment → Option String
  | .bind expression => some expression
  | _ => none

end Segment

variable {segments : List Segment}

/-- A literal that closes no marker closes none when it is protected. -/
theorem head?_protect {cs : List Char} (h : cs.head? ≠ some ']') : (protect cs).head? ≠ some ']' := by
  cases cs with
  | nil => exact h
  | cons c cs =>
    rw [protect]
    split
    · simp [escape]
    · split
      · simp [escape]
      · exact h

/-- What is no marker holds no opening bracket. -/
theorem bracket_not_mem_filled {segment : Segment} (h : segment.Sound) : '[' ∉ segment.filled [] := by
  cases segment with
  | text written => exact h '[' (by decide)
  | bind expression => exact List.not_mem_nil
  | literal quoted => exact bracket_not_mem_protect _

/-- No segment starts with a closing bracket. -/
theorem head?_fragment (h : ∀ segment ∈ segments, segment.Sound) :
    (segments.flatMap Segment.fragment).head? ≠ some ']' := by
  induction segments with
  | nil => simp
  | cons segment segments ih =>
    rw [List.forall_mem_cons] at h
    obtain ⟨hsegment, hrest⟩ := h
    have hfront {front : List Char} (hfront : front.head? ≠ some ']') :
        (front ++ segments.flatMap Segment.fragment).head? ≠ some ']' := by
      cases front with
      | nil => exact ih hrest
      | cons c front => exact hfront
    rw [List.flatMap_cons]
    cases segment with
    | text written => exact hfront fun hhead => hsegment ']' (by decide) (List.mem_of_head? hhead)
    | bind expression => exact hfront (by simp [Segment.fragment, insertBind])
    | literal quoted => exact hfront (head?_protect hsegment)

/-- A marker in front of a text. -/
theorem toList_insertBind_append (expression : String) (rest : List Char) :
    (insertBind expression).toList ++ rest = '[' :: '[' :: (expression.toList ++ ']' :: ']' :: rest) := by
  simp [insertBind]

/-- **The expressions of markers come out as they were put in exactly if all of them are kept.** -/
theorem restore_expressions_iff (h : ∀ segment ∈ segments, segment.Sound) :
    (cut (segments.flatMap Segment.fragment)).expressions.map restore =
        (segments.filterMap Segment.bind?).map String.toList ↔
      ∀ expression ∈ segments.filterMap Segment.bind?, Kept expression := by
  induction segments with
  | nil => simp [cut, Cut.expressions]
  | cons segment segments ih =>
    rw [List.forall_mem_cons] at h
    obtain ⟨hsegment, hrest⟩ := h
    have hplain := bracket_not_mem_filled hsegment
    have hbehind {front : List Char} (hfront : '[' ∉ front) :
        (cut (front ++ segments.flatMap Segment.fragment)).expressions.map restore =
            (segments.filterMap Segment.bind?).map String.toList ↔
          ∀ expression ∈ segments.filterMap Segment.bind?, Kept expression := by
      rw [expressions_cut_append hfront]
      exact ih hrest
    rw [List.flatMap_cons]
    cases segment with
    | bind expression =>
      show (cut ((insertBind expression).toList ++ _)).expressions.map restore = expression.toList :: _ ↔
        ∀ e ∈ expression :: segments.filterMap Segment.bind?, Kept e
      rw [toList_insertBind_append, restore_marker_iff (head?_fragment hrest), ih hrest, List.forall_mem_cons]
      rfl
    | text written => exact hbehind hplain
    | literal quoted => exact hbehind hplain

/-- Markers of kept expressions are filled as a whole. -/
theorem fill_cut_segments (h : ∀ segment ∈ segments, segment.Sound)
    (hbinds : ∀ expression ∈ segments.filterMap Segment.bind?, Bindable expression.toList)
    (filling : List Char) :
    (cut (segments.flatMap Segment.fragment)).fill filling = segments.flatMap (Segment.filled filling) := by
  induction segments with
  | nil => simp [cut, Cut.fill]
  | cons segment segments ih =>
    rw [List.forall_mem_cons] at h
    obtain ⟨hsegment, hrest⟩ := h
    have hplain := bracket_not_mem_filled hsegment
    rw [List.flatMap_cons, List.flatMap_cons]
    cases segment with
    | bind expression =>
      obtain ⟨hbind, hbinds⟩ := List.forall_mem_cons.1 hbinds
      show (cut ((insertBind expression).toList ++ _)).fill filling = filling ++ _
      rw [toList_insertBind_append, cut_marker (readMarker_append hbind (head?_fragment hrest)), fill_marker,
        ih hrest hbinds]
    | text written => exact (fill_cut_append hplain _ filling).trans (congrArg _ (ih hrest hbinds))
    | literal quoted => exact (fill_cut_append hplain _ filling).trans (congrArg _ (ih hrest hbinds))

/-- **Restoring brings back the literals and changes nothing else.** -/
theorem restore_filled (h : ∀ segment ∈ segments, segment.Sound) {placeholder : List Char}
    (hplaceholder : escape ∉ placeholder) :
    restore (segments.flatMap (Segment.filled placeholder)) =
      segments.flatMap (Segment.sql placeholder) := by
  induction segments with
  | nil => rfl
  | cons segment segments ih =>
    rw [List.forall_mem_cons] at h
    obtain ⟨hsegment, hrest⟩ := h
    rw [List.flatMap_cons, List.flatMap_cons, ← ih hrest]
    cases segment with
    | text written => exact restore_append_of_not_mem (hsegment escape (by decide)) _
    | bind expression => exact restore_append_of_not_mem hplaceholder _
    | literal quoted => exact restore_protect_append _ _

end RelationSql.Fragment
