import RelationSql.Proofs.Source.Spelling

/-!
# What a token sees of the text behind it

Where a token ends depends on the characters behind it, but on little of them. Two texts that are the
same up to one place, and have two quotes there, two blanks or two ASCII letters, are the same to every
token that ends before that place (`read_agree`), however they go on.
-/

namespace RelationSql.Source

open RelationSql.Text

/-- Two characters that no token tells apart behind its end. -/
inductive Kindred : Char → Char → Prop where
  | quote : Kindred '\'' '\''
  | blank {c d : Char} (hc : isBlank c = true) (hd : isBlank d = true) : Kindred c d
  | letter {c d : Char} (hc : c.isAlpha = true) (hd : d.isAlpha = true) : Kindred c d

/-- Two texts agree up to the place where they first differ, and there stand two characters that belong
together. -/
inductive Agree (K : Char → Char → Prop) : List Char → List Char → Prop where
  | same (cs : List Char) : Agree K cs cs
  | differ {c d : Char} (h : K c d) (cs ds : List Char) : Agree K (c :: cs) (d :: ds)
  | cons (c : Char) {cs ds : List Char} (rest : Agree K cs ds) : Agree K (c :: cs) (c :: ds)

variable {K L : Char → Char → Prop}

namespace Agree

theorem imp {cs ds : List Char} (h : Agree K cs ds) (hKL : ∀ c d, K c d → L c d) : Agree L cs ds := by
  induction h with
  | same cs => exact .same cs
  | differ hcd cs ds => exact .differ (hKL _ _ hcd) cs ds
  | cons c _ ih => exact ih.cons c

theorem append (front : List Char) {cs ds : List Char} (h : Agree K cs ds) :
    Agree K (front ++ cs) (front ++ ds) := by
  induction front with
  | nil => exact h
  | cons c front ih => exact ih.cons c

/-- A class with none of the characters in which the texts differ takes the same from both. -/
theorem takeWhile {p : Char → Bool} (hp : ∀ c d, K c d → p c = false ∧ p d = false)
    {cs ds : List Char} (h : Agree K cs ds) : ds.takeWhile p = cs.takeWhile p := by
  induction h with
  | same => rfl
  | differ hcd => simp [hp _ _ hcd]
  | cons c _ ih => simp [List.takeWhile_cons, ih]

/-- What the class leaves of the texts agrees as well. -/
theorem dropWhile {p : Char → Bool} (hp : ∀ c d, K c d → p c = false ∧ p d = false)
    {cs ds : List Char} (h : Agree K cs ds) : Agree K (cs.dropWhile p) (ds.dropWhile p) := by
  induction h with
  | same cs => exact .same _
  | differ hcd cs ds =>
    obtain ⟨hc, hd⟩ := hp _ _ hcd
    rw [List.dropWhile_cons_of_neg (by simp [hc]), List.dropWhile_cons_of_neg (by simp [hd])]
    exact .differ hcd cs ds
  | cons c hrest ih =>
    rw [List.dropWhile_cons, List.dropWhile_cons]
    split
    · exact ih
    · exact hrest.cons c

/-- A text with none of the characters in which the texts differ is found in front of both or of
none. -/
theorem after? {front : List Char} (hfront : ∀ a ∈ front, ∀ c d, K c d → a ≠ c ∧ a ≠ d)
    {cs ds : List Char} (h : Agree K cs ds) : (after? front ds).isSome = (after? front cs).isSome := by
  induction front generalizing cs ds with
  | nil => rfl
  | cons a front ih =>
    rw [List.forall_mem_cons] at hfront
    cases h with
    | same => rfl
    | differ hcd =>
      obtain ⟨hc, hd⟩ := hfront.1 _ _ hcd
      simp [Text.after?, hc, hd]
    | cons c hrest =>
      simp only [Text.after?]
      split
      · exact ih hfront.2 hrest
      · rfl

/-- The same symbol is read off both texts. -/
theorem readSymbol? {table : List (String × Symbol)}
    (htable : ∀ entry ∈ table, ∀ a ∈ entry.1.toList, ∀ c d, K c d → a ≠ c ∧ a ≠ d)
    {cs ds : List Char} (h : Agree K cs ds) :
    (readSymbol? ds table).map (fun reading => (reading.kind, reading.lexeme)) =
      (readSymbol? cs table).map fun reading => (reading.kind, reading.lexeme) := by
  induction table with
  | nil => rfl
  | cons entry table ih =>
    obtain ⟨spelling, symbol⟩ := entry
    rw [List.forall_mem_cons] at htable
    have hfound := h.after? htable.1
    rw [Source.readSymbol?, Source.readSymbol?]
    cases hcs : Text.after? spelling.toList cs with
    | some rest =>
      rw [hcs] at hfound
      obtain ⟨rest', hds⟩ := Option.isSome_iff_exists.1 hfound
      rw [hds]
      rfl
    | none =>
      rw [hcs] at hfound
      have hds : Text.after? spelling.toList ds = none := by simpa using hfound
      rw [hds]
      exact ih htable.2

end Agree

/-! ## Kindred characters -/

/-- No quote, blank or letter is a digit. -/
theorem isDigit_of_kindred (c d : Char) (h : Kindred c d) : c.isDigit = false ∧ d.isDigit = false := by
  have hblank : ∀ e : Char, isBlank e = true → e.isDigit = false := by
    intro e he
    cases hdigit : e.isDigit with
    | false => rfl
    | true => rw [isBlank_of_isDigit hdigit] at he; cases he
  have hletter : ∀ e : Char, e.isAlpha = true → e.isDigit = false := by
    intro e he
    have hrange := toNat_of_isAlpha he
    cases hdigit : e.isDigit with
    | false => rfl
    | true =>
      simp only [Char.isDigit, Bool.and_eq_true, decide_eq_true_eq, UInt32.le_iff_toNat_le] at hdigit
      have hrange' : 0x30 ≤ e.toNat ∧ e.toNat ≤ 0x39 := hdigit
      omega
  cases h with
  | quote => decide
  | blank hc hd => exact ⟨hblank c hc, hblank d hd⟩
  | letter hc hd => exact ⟨hletter c hc, hletter d hd⟩

/-- No symbol is written with a quote, a blank or a letter. -/
theorem sign_of_mem_spellings {entry : String × Symbol} (hentry : entry ∈ Symbol.spellings) {a : Char}
    (ha : a ∈ entry.1.toList) :
    (a == '\'' || a == '"') = false ∧ isBlank a = false ∧ a.isAlpha = false := by
  have hsigns : (Symbol.spellings.all fun entry => entry.1.toList.all fun a =>
      !(a == '\'' || a == '"') && (!isBlank a && !a.isAlpha)) = true := by decide
  have hsign := List.all_eq_true.1 (List.all_eq_true.1 hsigns entry hentry) a ha
  simp only [Bool.and_eq_true, Bool.not_eq_true'] at hsign
  exact hsign

/-- No symbol is written with one of two kindred characters. -/
theorem ne_of_kindred {entry : String × Symbol} (hentry : entry ∈ Symbol.spellings) {a : Char}
    (ha : a ∈ entry.1.toList) (c d : Char) (h : Kindred c d) : a ≠ c ∧ a ≠ d := by
  obtain ⟨hquote, hblank, halpha⟩ := sign_of_mem_spellings hentry ha
  cases h with
  | quote =>
    have hne : a ≠ '\'' := by
      rintro rfl
      cases hquote
    exact ⟨hne, hne⟩
  | blank hc hd =>
    constructor <;> rintro rfl
    · rw [hblank] at hc; cases hc
    · rw [hblank] at hd; cases hd
  | letter hc hd =>
    constructor <;> rintro rfl
    · rw [halpha] at hc; cases hc
    · rw [halpha] at hd; cases hd

/-- Every ASCII letter starts a word. -/
theorem isNameStart_of_isAlpha {c : Char} (h : c.isAlpha = true) : isNameStart c = true := by
  have hrange := toNat_of_isAlpha h
  rw [isNameStart, isLetter_of_ascii c (by omega), h]
  rfl

/-- No blank goes on a word. -/
theorem isNameRest_of_isBlank {c : Char} (h : isBlank c = true) : isNameRest c = false := by
  cases hrest : isNameRest c with
  | false => rfl
  | true =>
    have hstart : isNameStart c = false := by
      cases hstart : isNameStart c with
      | false => rfl
      | true => rw [isBlank_of_isNameStart hstart] at h; cases h
    have hdigit : c.isDigit = false := by
      cases hdigit : c.isDigit with
      | false => rfl
      | true => rw [isBlank_of_isDigit hdigit] at h; cases h
    have hdecimal : decimalRanges.contains c = false :=
      contains_of_areDisjoint (by decide +kernel) h
    have hnumeral : numeralRanges.contains c = false :=
      contains_of_areDisjoint (by decide +kernel) h
    -- a word goes on with the characters that start one, and with numbers
    have hcases : isNameStart c = true ∨ isNumber c = true := by
      simp only [isNameRest, Bool.or_eq_true] at hrest
      simp only [isNameStart, Bool.or_eq_true]
      rcases hrest with (hletter | hnumber) | hunder
      · exact .inl (.inl hletter)
      · exact .inr hnumber
      · exact .inl (.inr hunder)
    rcases hcases with hcase | hcase
    · rw [hstart] at hcase; cases hcase
    · simp [isNumber, hdigit, hdecimal, hnumeral] at hcase

/-! ## Reading a token -/

/-- A quoted text ends where it is closed, whatever follows. -/
theorem readQuoted_of_closed {quote : Char} {cs : List Char} {quoted : QuotedText}
    (h : readQuoted quote cs = some quoted) (more : List Char) :
    readQuoted quote (quoted.lexeme ++ more) = some ⟨quoted.content, quoted.lexeme, more⟩ := by
  fun_induction readQuoted quote cs generalizing quoted with
  | case1 => cases h
  | case2 => cases h
  | case3 c cs ih =>
    obtain ⟨tail, ht, rfl⟩ := Option.map_eq_some_iff.1 h
    simp [QuotedText.cons, readQuoted, ih ht]
  | case4 cs hnil hcons =>
    cases h
    have hquote : quote ≠ '\\' := by
      rintro rfl
      cases cs with
      | nil => exact hnil rfl rfl
      | cons d ds => exact hcons d ds rfl rfl
    rw [List.cons_append, readQuoted_cons hquote, if_pos rfl, List.nil_append]
  | case5 c cs hnil hcons hc ih =>
    obtain ⟨tail, ht, rfl⟩ := Option.map_eq_some_iff.1 h
    have hslash : c ≠ '\\' := by
      rintro rfl
      cases cs with
      | nil => exact hnil rfl rfl
      | cons d ds => exact hcons d ds rfl rfl
    simp [QuotedText.cons, readQuoted_cons hslash, hc, ih ht]

/-- The same number is read off both texts. -/
theorem Agree.readNumber {cs ds : List Char} (h : Agree Kindred cs ds) :
    (readNumber ds).kind = (readNumber cs).kind ∧
      (readNumber ds).lexeme = (readNumber cs).lexeme := by
  have htake := h.takeWhile isDigit_of_kindred
  have hdrop := h.dropWhile isDigit_of_kindred
  have hpoint : ∀ c d, Kindred c d → '.' ≠ c ∧ '.' ≠ d :=
    @ne_of_kindred (".", .dot) (by decide) '.' (by decide)
  unfold Source.readNumber
  rw [htake]
  generalize cs.dropWhile Char.isDigit = rest at hdrop ⊢
  generalize ds.dropWhile Char.isDigit = rest' at hdrop ⊢
  cases hdrop with
  | same => exact ⟨rfl, rfl⟩
  | @differ c d hcd =>
    obtain ⟨hc, hd⟩ := hpoint c d hcd
    dsimp only
    split
    · next heq => exact absurd (List.cons.inj heq).1.symm hd
    · split
      · next heq => exact absurd (List.cons.inj heq).1.symm hc
      · exact ⟨rfl, rfl⟩
  | cons c hrest =>
    by_cases hc : c = '.'
    · subst hc
      cases hrest with
      | same => exact ⟨rfl, rfl⟩
      | differ hcd => simp [isDigit_of_kindred _ _ hcd]
      | cons d hrest =>
        have hbehind := (hrest.cons d).takeWhile isDigit_of_kindred
        simp only [hbehind]
        split <;> exact ⟨rfl, rfl⟩
    · dsimp only
      split
      · next heq => exact absurd (List.cons.inj heq).1 hc
      · split
        · next heq => exact absurd (List.cons.inj heq).1 hc
        · exact ⟨rfl, rfl⟩

/-- A word that ends in front of one text ends in front of the other. -/
theorem Agree.takeWhile_eq_nil {cs ds : List Char} (h : Agree Kindred cs ds)
    (hcs : cs.takeWhile isNameRest = []) : ds.takeWhile isNameRest = [] := by
  cases h with
  | same => exact hcs
  | differ hcd =>
    cases hcd with
    | quote => exact List.takeWhile_cons_of_neg (by decide)
    | blank _ hd => exact List.takeWhile_cons_of_neg (by simp [isNameRest_of_isBlank hd])
    | letter hc _ =>
      -- a letter would have gone on the word
      have hstart := isNameRest_of_isNameStart _ (isNameStart_of_isAlpha hc)
      rw [List.takeWhile_cons_of_pos hstart] at hcs
      cases hcs
  | cons c hrest =>
    cases hc : isNameRest c with
    | true => rw [List.takeWhile_cons_of_pos hc] at hcs; cases hcs
    | false => exact List.takeWhile_cons_of_neg (by simp [hc])

/-- **The same token is read in front of texts that agree.** -/
theorem read_agree {kind : TokenKind} {c : Char} {cs more more' : List Char}
    (h : read c (cs ++ more) = ⟨kind, c :: cs, more⟩) (hmore : Agree Kindred more more') :
    read c (cs ++ more') = ⟨kind, c :: cs, more'⟩ := by
  have hagree : Agree Kindred (c :: (cs ++ more)) (c :: (cs ++ more')) := (hmore.append cs).cons c
  -- what is left follows from what is used up
  suffices hsame : (read c (cs ++ more')).kind = kind ∧ (read c (cs ++ more')).lexeme = c :: cs by
    have happ := read_append c (cs ++ more')
    rw [hsame.2, ← List.cons_append] at happ
    have hrest := List.append_cancel_left happ
    obtain ⟨hkind, hlexeme⟩ := hsame
    revert hkind hlexeme hrest
    cases read c (cs ++ more')
    rintro rfl rfl rfl
    rfl
  have hsymbols := hagree.readSymbol? fun entry hentry a ha => ne_of_kindred hentry ha
  unfold read at h ⊢
  cases hfound : readSymbol? (c :: (cs ++ more)) Symbol.spellings with
  | some reading =>
    rw [hfound] at h hsymbols
    cases h
    obtain ⟨reading', hfound', heq⟩ := Option.map_eq_some_iff.1 hsymbols
    rw [hfound']
    exact ⟨congrArg Prod.fst heq, congrArg Prod.snd heq⟩
  | none =>
    rw [hfound] at h hsymbols
    rw [Option.map_none, Option.map_eq_none_iff] at hsymbols
    rw [hsymbols]
    dsimp only at h ⊢
    split
    · next hquote =>
      rw [if_pos hquote] at h
      unfold readText at h ⊢
      cases hclosed : readQuoted c (cs ++ more) with
      | some quoted =>
        rw [hclosed] at h
        simp only [Reading.mk.injEq, List.cons.injEq, true_and] at h
        obtain ⟨hkind, hlexeme, -⟩ := h
        have hagain := readQuoted_of_closed hclosed more'
        rw [hlexeme] at hagain
        rw [hagain]
        exact ⟨hkind, rfl⟩
      | none =>
        rw [hclosed] at h
        simp only [Reading.mk.injEq, List.cons.injEq, true_and] at h
        obtain ⟨hkind, hlexeme, rfl⟩ := h
        -- a text that is not closed is the whole rest
        cases hmore with
        | same =>
          rw [hclosed]
          exact ⟨hkind, by simp⟩
    · next hquote =>
      rw [if_neg hquote] at h
      split
      · next hdigit =>
        rw [if_pos hdigit] at h
        have hnumber := hagree.readNumber
        rw [h] at hnumber
        exact hnumber
      · next hdigit =>
        rw [if_neg hdigit] at h
        split
        · next hname =>
          rw [if_pos hname] at h
          simp only [readWord, Reading.mk.injEq] at h ⊢
          obtain ⟨hkind, hword, -⟩ := h
          -- the word is used up, so nothing behind it goes on with it
          have hall : ∀ d ∈ c :: cs, isNameRest d = true := by
            rw [← hword]
            exact forall_mem_takeWhile _
          have hsplit (tail : List Char) : (c :: (cs ++ tail)).takeWhile isNameRest =
              c :: cs ++ tail.takeWhile isNameRest := List.takeWhile_append_of_pos hall
          rw [hsplit] at hword
          have hend := hmore.takeWhile_eq_nil (List.append_right_eq_self.1 hword)
          rw [hsplit, hend, List.append_nil]
          rw [hsplit, hword] at hkind
          exact ⟨hkind, rfl⟩
        · next hname =>
          rw [if_neg hname] at h
          simp only [Reading.mk.injEq] at h ⊢
          exact ⟨h.1, h.2.1⟩

end RelationSql.Source
