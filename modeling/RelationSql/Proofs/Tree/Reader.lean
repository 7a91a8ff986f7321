import RelationSql.Tree.Printer

/-!
# The written form of a tree is read back

A reader takes the written form of a tree one character at a time (`Reader.step`). It keeps the nodes that
are open, each with its children so far. From the first character of a tree to the last it takes the tree
(`reads_chars`), whichever characters the atoms show as they are. So trees that are written alike are
equal, whatever stands in their atoms (`chars_unambiguous`).
-/

namespace RelationSql.Tree

open RelationSql.Text

/-! ## The reader -/

/-- What a reader expects next. The beginning of a name or an atom is kept until its end. -/
inductive Expects where
  | tree
  /-- The colon behind an opening bracket. -/
  | colon
  /-- More of the name of a tag. -/
  | name (front : List Char)
  /-- More of an atom. -/
  | content (front : List Char)
  /-- What a backslash stands for. -/
  | escape (front : List Char)
  /-- The brace in front of a code point. -/
  | brace (front : List Char)
  /-- More of a code point. -/
  | code (front : List Char) (value : Nat)
  /-- A further child of the innermost open node, or its end. -/
  | separator
  /-- The space behind a comma. -/
  | space
  /-- Nothing more: the tree was read. -/
  | nothing (tree : Tree)

/-- A reader: what it expects, and the open nodes, the innermost first, each with its children so far. -/
structure Reader where
  expects : Expects
  opened : List (Tag × List Tree)

namespace Reader

/-- Hands a tree that was read to the innermost open node. -/
def handOver (tree : Tree) : List (Tag × List Tree) → Reader
  | [] => ⟨.nothing tree, []⟩
  | (tag, children) :: opened => ⟨.separator, (tag, children ++ [tree]) :: opened⟩

/-- Goes on with the innermost open node, or closes it. -/
def separate (c : Char) : List (Tag × List Tree) → Option Reader
  | [] => none
  | (tag, children) :: opened =>
    if c = ',' then some ⟨.space, (tag, children) :: opened⟩
    else if c = ']' then some (handOver (.node tag children) opened)
    else none

/-- The character that a letter or sign behind a backslash stands for. -/
def escaped? (c : Char) : Option Char :=
  if c = '"' then some '"'
  else if c = '\\' then some '\\'
  else if c = 't' then some '\t'
  else if c = 'r' then some '\r'
  else if c = 'n' then some '\n'
  else if c = '0' then some '\x00'
  else none

/-- The value of a hexadecimal digit. -/
def hexValue? (c : Char) : Option Nat :=
  (List.range 16).find? fun value => value.digitChar == c

/-- Takes one character. -/
def step (r : Reader) (c : Char) : Option Reader :=
  match r.expects with
  | .tree =>
    if c = '"' then some ⟨.content [], r.opened⟩
    else if c = '[' then some ⟨.colon, r.opened⟩
    else none
  | .colon => if c = ':' then some ⟨.name [], r.opened⟩ else none
  | .name front =>
    if c = ',' ∨ c = ']' then
      (Tag.ofName? (String.ofList front)).bind fun tag => separate c ((tag, []) :: r.opened)
    else some ⟨.name (front ++ [c]), r.opened⟩
  | .content front =>
    if c = '"' then some (handOver (.atom (String.ofList front)) r.opened)
    else if c = '\\' then some ⟨.escape front, r.opened⟩
    else some ⟨.content (front ++ [c]), r.opened⟩
  | .escape front =>
    if c = 'u' then some ⟨.brace front, r.opened⟩
    else (escaped? c).map fun d => ⟨.content (front ++ [d]), r.opened⟩
  | .brace front => if c = '\x7b' then some ⟨.code front 0, r.opened⟩ else none
  | .code front value =>
    if c = '\x7d' then some ⟨.content (front ++ [Char.ofNat value]), r.opened⟩
    else (hexValue? c).map fun digit => ⟨.code front (16 * value + digit), r.opened⟩
  | .separator => separate c r.opened
  | .space => if c = ' ' then some ⟨.tree, r.opened⟩ else none
  | .nothing _ => none

end Reader

/-- The tree with this written form. -/
def ofText? (text : String) : Option Tree :=
  (text.toList.foldlM Reader.step ⟨.tree, []⟩).bind fun r =>
    match r.expects with
    | .nothing tree => some tree
    | _ => none

/-! ## Taking a text -/

/-- The reader takes the text and is then in the second state. -/
def Reads (r : Reader) (text : List Char) (r' : Reader) : Prop :=
  text.foldlM Reader.step r = some r'

variable {r r' r'' : Reader} {cs more : List Char} {c : Char} {front : List Char}
  {opened : List (Tag × List Tree)} {visible : Char → Bool}

theorem Reads.nil : Reads r [] r := rfl

theorem Reads.cons (h : r.step c = some r') (h' : Reads r' cs r'') : Reads r (c :: cs) r'' := by
  rw [Reads, List.foldlM_cons, h]
  exact h'

theorem Reads.append (h : Reads r cs r') (h' : Reads r' more r'') : Reads r (cs ++ more) r'' := by
  rw [Reads, List.foldlM_append, h]
  exact h'

/-- A character that is taken alike leads on alike. -/
theorem Reads.of_step_eq (h : r.step c = r'.step c) (h' : Reads r' (c :: cs) r'') :
    Reads r (c :: cs) r'' := by
  rw [Reads, List.foldlM_cons, h]
  exact h'

/-! ## Atoms -/

/-- A digit has its value, and is no brace. -/
theorem hexValue?_digitChar {digit : Nat} (h : digit < 16) :
    Reader.hexValue? digit.digitChar = some digit ∧ digit.digitChar ≠ '\x7d' := by
  have hall : ∀ digit < 16,
      Reader.hexValue? digit.digitChar = some digit ∧ digit.digitChar ≠ '\x7d' := by
    decide
  exact hall digit h

/-- A digit of a code point is taken. -/
theorem step_digitChar {value digit : Nat} (h : digit < 16) :
    Reader.step ⟨.code front value, opened⟩ digit.digitChar =
      some ⟨.code front (16 * value + digit), opened⟩ := by
  obtain ⟨hdigit, hbrace⟩ := hexValue?_digitChar h
  rw [Reader.step]
  dsimp only
  rw [if_neg hbrace, hdigit]
  rfl

/-- The digits of a code point are taken as its value. -/
theorem reads_hexDigits (value : Nat) :
    Reads ⟨.code front 0, opened⟩ (hexDigits value) ⟨.code front value, opened⟩ := by
  induction value using Nat.strongRecOn with
  | ind value ih =>
    rw [hexDigits, Nat.toDigits_eq_if (by decide)]
    split
    · next hsmall =>
      have hstep := @step_digitChar front opened 0 value hsmall
      rw [Nat.mul_zero, Nat.zero_add] at hstep
      exact .cons hstep .nil
    · next hlarge =>
      have hfront := ih (value / 16) (by omega)
      have hlast := @step_digitChar front opened (value / 16) (value % 16) (by omega)
      rw [Nat.div_add_mod] at hlast
      exact hfront.append (.cons hlast .nil)

/-- **A character of an atom is taken as itself**, however it is written. -/
theorem reads_escapeChar (visible : Char → Bool) (c : Char) :
    Reads ⟨.content front, opened⟩ (escapeChar visible c) ⟨.content (front ++ [c]), opened⟩ := by
  -- a named escape is two characters, and the code point of a hidden character is digits in braces
  have hnamed (d : Char) (hu : d ≠ 'u') (hd : Reader.escaped? d = some c) :
      Reads ⟨.content front, opened⟩ ['\\', d] ⟨.content (front ++ [c]), opened⟩ := by
    have hbehind : Reader.step ⟨.escape front, opened⟩ d = some ⟨.content (front ++ [c]), opened⟩ := by
      rw [Reader.step]
      dsimp only
      rw [if_neg hu, hd]
      rfl
    exact .cons rfl (.cons hbehind .nil)
  rw [escapeChar]
  split
  · next hc => exact hnamed '"' (by decide) (by rw [hc]; rfl)
  · next hquote =>
    split
    · next hc => exact hnamed '\\' (by decide) (by rw [hc]; rfl)
    · next hslash =>
      split
      · next hc => exact hnamed 't' (by decide) (by rw [hc]; rfl)
      · split
        · next hc => exact hnamed 'r' (by decide) (by rw [hc]; rfl)
        · split
          · next hc => exact hnamed 'n' (by decide) (by rw [hc]; rfl)
          · split
            · next hc => exact hnamed '0' (by decide) (by rw [hc]; rfl)
            · split
              · have hstep : Reader.step ⟨.content front, opened⟩ c =
                    some ⟨.content (front ++ [c]), opened⟩ := by
                  rw [Reader.step]
                  dsimp only
                  rw [if_neg hquote, if_neg hslash]
                exact .cons hstep .nil
              · have hclose : Reader.step ⟨.code front c.toNat, opened⟩ '\x7d' =
                    some ⟨.content (front ++ [c]), opened⟩ := by
                  rw [Reader.step]
                  dsimp only
                  rw [if_pos rfl, Char.ofNat_toNat]
                exact .cons rfl (.cons rfl (.cons rfl ((reads_hexDigits _).append (.cons hclose .nil))))

/-- The characters of an atom are taken one by one. -/
theorem reads_content (visible : Char → Bool) (content : List Char) :
    Reads ⟨.content front, opened⟩ (content.flatMap (escapeChar visible))
      ⟨.content (front ++ content), opened⟩ := by
  induction content generalizing front with
  | nil =>
    rw [List.append_nil]
    exact .nil
  | cons c content ih =>
    have htail := @ih (front ++ [c])
    rw [List.append_assoc, List.singleton_append] at htail
    rw [List.flatMap_cons]
    exact (reads_escapeChar visible c).append htail

/-- **An atom is taken as its text.** -/
theorem reads_quoteAtom (visible : Char → Bool) (text : String) :
    Reads ⟨.tree, opened⟩ (quoteAtom visible text.toList) (Reader.handOver (.atom text) opened) := by
  have hclose : Reader.step ⟨.content ([] ++ text.toList), opened⟩ '"' =
      some (Reader.handOver (.atom text) opened) := by
    rw [Reader.step]
    dsimp only
    rw [if_pos rfl, List.nil_append, String.ofList_toList]
  exact .cons rfl ((reads_content visible text.toList).append (.cons hclose .nil))

/-! ## Nodes -/

/-- No name of a tag holds a comma or a bracket. -/
theorem ne_of_mem_name (tag : Tag) : ∀ c ∈ tag.name.toList, ¬ (c = ',' ∨ c = ']') := by
  have hall : (Tag.all.all fun tag => tag.name.toList.all fun c => !(c == ',' || c == ']')) = true := by
    decide
  intro c hc
  have hname := List.all_eq_true.1 (List.all_eq_true.1 hall tag tag.mem_all) c hc
  simpa using hname

/-- The name of a tag is taken up to its end. -/
theorem reads_name {name : List Char} (h : ∀ c ∈ name, ¬ (c = ',' ∨ c = ']')) :
    Reads ⟨.name front, opened⟩ name ⟨.name (front ++ name), opened⟩ := by
  induction name generalizing front with
  | nil =>
    rw [List.append_nil]
    exact .nil
  | cons c name ih =>
    rw [List.forall_mem_cons] at h
    have hstep : Reader.step ⟨.name front, opened⟩ c = some ⟨.name (front ++ [c]), opened⟩ := by
      rw [Reader.step]
      dsimp only
      rw [if_neg h.1]
    have htail := @ih (front ++ [c]) h.2
    rw [List.append_assoc, List.singleton_append] at htail
    exact .cons hstep htail

/-- At the end of its name a node is opened. -/
theorem step_name (tag : Tag) (hc : c = ',' ∨ c = ']') :
    Reader.step ⟨.name tag.name.toList, opened⟩ c =
      Reader.step ⟨.separator, (tag, []) :: opened⟩ c := by
  rw [Reader.step, Reader.step]
  dsimp only
  rw [if_pos hc, String.ofList_toList, Tag.ofName?_name]
  rfl

mutual

/-- **The written form of a tree is taken as the tree.** -/
theorem reads_chars (visible : Char → Bool) (opened : List (Tag × List Tree)) :
    (tree : Tree) → Reads ⟨.tree, opened⟩ (chars visible tree) (Reader.handOver tree opened)
  | .atom text => by
    rw [chars]
    exact reads_quoteAtom visible text
  | .node tag children => by
    have hchildren := reads_charsAll visible tag [] opened children
    have hclose : Reader.step ⟨.separator, (tag, [] ++ children) :: opened⟩ ']' =
        some (Reader.handOver (.node tag children) opened) := rfl
    have hinner := hchildren.append (.cons hclose .nil)
    -- whether a comma or the bracket stands behind the name, it opens the node
    have hopen : Reads ⟨.name ([] ++ tag.name.toList), opened⟩ (charsAll visible children ++ [']'])
        (Reader.handOver (.node tag children) opened) := by
      rw [List.nil_append]
      cases children with
      | nil => exact .of_step_eq (step_name tag (.inr rfl)) hinner
      | cons child children => exact .of_step_eq (step_name tag (.inl rfl)) hinner
    have hname := (@reads_name [] opened _ (ne_of_mem_name tag)).append hopen
    rw [chars, List.append_assoc]
    exact .cons rfl (.cons rfl hname)

/-- The children of a node are taken one after the other. -/
theorem reads_charsAll (visible : Char → Bool) (tag : Tag) (before : List Tree)
    (opened : List (Tag × List Tree)) : (trees : List Tree) →
    Reads ⟨.separator, (tag, before) :: opened⟩ (charsAll visible trees)
      ⟨.separator, (tag, before ++ trees) :: opened⟩
  | [] => by
    rw [charsAll, List.append_nil]
    exact .nil
  | tree :: trees => by
    have hfirst := reads_chars visible ((tag, before) :: opened) tree
    have hmore := reads_charsAll visible tag (before ++ [tree]) opened trees
    rw [List.append_assoc, List.singleton_append] at hmore
    rw [charsAll]
    exact .cons rfl (.cons rfl (hfirst.append hmore))

end

/-! ## Trees and their written forms -/

/-- **The tree is recovered from its written form**, whichever characters are shown as they are. -/
theorem ofText?_chars (visible : Char → Bool) (tree : Tree) :
    ofText? (String.ofList (tree.chars visible)) = some tree := by
  have hread : (tree.chars visible).foldlM Reader.step ⟨.tree, []⟩ = some (Reader.handOver tree []) :=
    reads_chars visible [] tree
  rw [ofText?, String.toList_ofList, hread]
  rfl

/-- **Written forms are unambiguous.** One reader recovers every tree from its text, whatever its atoms hold
and whichever characters are shown as they are. So trees with one text are equal, even if other characters
are shown in the one than in the other. -/
theorem chars_unambiguous :
    (∀ visible tree, ofText? (String.ofList (tree.chars visible)) = some tree) ∧
      (∀ tree, ofText? tree.text = some tree) ∧
      (∀ visible visible' s t, chars visible s = chars visible' t → s = t) ∧
      ∀ s t, text s = text t → s = t := by
  refine ⟨ofText?_chars, ofText?_chars isVisible, ?_, ?_⟩
  · intro visible visible' s t h
    have hs := ofText?_chars visible s
    rw [h, ofText?_chars visible' t] at hs
    exact (Option.some.inj hs).symm
  · intro s t h
    have hs := ofText?_chars isVisible s
    rw [← text, h, text, ofText?_chars isVisible t] at hs
    exact (Option.some.inj hs).symm

/-- The atom closes its own quote and its node, and opens another one; a space without width stands behind
it. Read as a list of nodes, it would be another tree. -/
theorem chars_unambiguous_brackets :
    text (.node (.op .nullSafeEqual) [.leaf .field "\"], [:void]\u200b", .node .void []]) =
        "[:<=>, [:field, \"\\\"], [:void]\\u\x7b200b\x7d\"], [:void]]" ∧
      ofText? "[:<=>, [:field, \"\\\"], [:void]\\u\x7b200b\x7d\"], [:void]]" =
        some (.node (.op .nullSafeEqual) [.leaf .field "\"], [:void]\u200b", .node .void []]) ∧
      chars (fun _ => true) (.atom "\n") = chars (fun _ => false) (.atom "\n") ∧
      (Tree.atom "\n" : Tree) = .atom "\n" := by
  obtain ⟨-, hread, halike, -⟩ := chars_unambiguous
  have htext : text (.node (.op .nullSafeEqual) [.leaf .field "\"], [:void]\u200b", .node .void []]) =
      "[:<=>, [:field, \"\\\"], [:void]\\u\x7b200b\x7d\"], [:void]]" := by
    decide +kernel
  have hescaped : chars (fun _ => true) (.atom "\n") = chars (fun _ => false) (.atom "\n") := rfl
  refine ⟨htext, ?_, hescaped, halike _ _ _ _ hescaped⟩
  rw [← htext]
  exact hread _

end RelationSql.Tree
