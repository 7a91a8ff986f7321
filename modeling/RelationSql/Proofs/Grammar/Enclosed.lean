import RelationSql.Proofs.Grammar.Member

/-!
# Sources in parentheses among others

Relations, and sources in parentheses, are joined by `from`, `and` and `or`. Each of the three groups from
the left, and `from` binds tightest (`Series`). Wherever a relation may stand, such a series leaves its
tree (`runTokens_series`). So a source in parentheses has the same node at every place: alone, on either
side of a joint, and in parentheses again (`Position`, `Position.Fits.isSeries`).
-/

namespace RelationSql.Grammar

open RelationSql.Source (Span Token TokenKind Keyword Words)

/-! ## Series -/

/-- What stands between two relations. -/
inductive Joint where
  | from_ | and | or
  deriving DecidableEq, Repr

namespace Joint

def keyword : Joint → Keyword
  | from_ => .from_
  | and => .and
  | or => .or

def tag : Joint → Tag
  | from_ => .from_
  | and => .clauseAnd
  | or => .clauseOr

/-- The joint as it is written between two relations. -/
def spelling (joint : Joint) : String :=
  " " ++ joint.keyword.spelling ++ " "

/-- No joint binds as tightly as a scope. -/
theorem tier_lt_scope (joint : Joint) : tier joint.tag < tier .scope := by
  cases joint <;> decide

theorem isParen_tag (joint : Joint) : joint.tag.isParen = false := by
  cases joint <;> rfl

end Joint

/-- Relations, and sources in parentheses, with joints that bind at least as tightly as the tier tells. On
the right of a joint all others bind tighter. -/
inductive Series : Int → List Token → Tree → Prop where
  | single {least : Int} {words : List Token} {t : Tree} (hleast : least ≤ tier .scope)
      (h : Scoped words t) : Series least words t
  | joined {least : Int} {words more : List Token} {t u : Tree} (joint : Joint) {word : Token}
      (hleast : least ≤ tier joint.tag) (h : Series (tier joint.tag) words t)
      (hword : word.kind = .keyword joint.keyword) (hmore : Series (tier joint.tag + 1) more u) :
      Series least (words ++ word :: more) (.node joint.tag [t, u])

variable {least : Int} {words : List Token} {t u : Tree} {m m₁ : Machine} {word : Token}

/-- A series stays what it is further on in a source. -/
theorem Series.shift (h : Series least words t) (count : Nat) :
    Series least (words.map (Token.shift count)) t := by
  induction h with
  | single hleast h => exact .single hleast (h.shift count)
  | joined joint hleast _ hword _ ih ihmore =>
    rw [List.map_append, List.map_cons]
    exact .joined joint hleast ih hword ihmore

/-! ## Reading a series -/

/-- A series may stand here, outside of all parentheses. -/
structure Machine.AtSeries (least : Int) (m : Machine) : Prop where
  expects : m.expects = .relation
  paren : m.paren? = none
  loose : ∀ f ∈ m.frames.head?, tier f.tag < least

/-- The second machine has read a series that closes to the tree where the first one stood. -/
structure Machine.Finishes (least : Int) (m : Machine) (t : Tree) (m₁ : Machine) : Prop where
  expects : m₁.expects = .afterRelation
  paren : m₁.paren? = none
  closes : ∀ p : Tag → Bool, (∀ tag, least ≤ tier tag → p tag = true) →
    m₁.closeWhile? p = ((m.append t).expecting .afterRelation).closeWhile? p

/-- Where a series may stand, a relation may. -/
theorem Machine.AtSeries.atMember (hm : m.AtSeries least) (hleast : least ≤ tier .scope) : m.AtMember where
  expects := hm.expects
  paren := hm.paren
  loose f hf := Int.lt_of_lt_of_le (hm.loose f hf) hleast

/-- What is looser than a relation is closed with it. -/
theorem Machine.Completes.finishes (h : m.Completes t m₁) (hexpects : m₁.expects = .afterRelation)
    (hleast : least ≤ tier .scope) : m.Finishes least t m₁ where
  expects := hexpects
  paren := h.paren
  closes p hp := by
    have hfilter : tier .scope ≤ tier .filter := by decide
    rw [h.closes p fun tag htag => hp tag (Int.le_trans hleast (Int.le_trans hfilter htag)), hexpects]

/-- A joint behind a series takes it into a new node. -/
theorem Machine.AtSeries.step_joint {joint : Joint} (hm : m.AtSeries least)
    (h : m.Finishes (tier joint.tag) t m₁) (hleast : least ≤ tier joint.tag)
    (hword : word.kind = .keyword joint.keyword) (rest : List Token) :
    m₁.step word rest = one (m.push ⟨joint.tag, word.span, [t]⟩ |>.expecting .relation) := by
  have hstop : ∀ f ∈ ((m.append t).expecting .afterRelation).frames.head?,
      decide (tier joint.tag ≤ tier f.tag) = false := by
    refine head?_frames_append (P := fun tag => decide (tier joint.tag ≤ tier tag) = false) ?_ t
    intro f hf
    exact decide_eq_false (Int.not_le.2 (Int.lt_of_lt_of_le (hm.loose f hf) hleast))
  -- closing up to the joint's tier leaves what stood there before, with the series as its newest tree
  have hclose : m₁.closeTier (tier joint.tag) word.span = .ok ((m.append t).expecting .afterRelation) := by
    rw [Machine.closeTier, h.closes _ fun _ htag => decide_eq_true htag, closeWhile?_of_stop hstop]
    rfl
  have htake := takeLast?_append (m.expecting .afterRelation) t
  rw [append_expecting] at htake
  have hopen : m₁.openOver joint.tag .relation word.span =
      .ok ((m.push ⟨joint.tag, word.span, [t]⟩).expecting .relation) := by
    rw [Machine.openOver, hclose]
    simp only [bind, Except.bind, htake, orNear]
    rfl
  have hstep : m₁.step word rest = m₁.openOver joint.tag .relation word.span >>= one := by
    rw [Machine.step, h.expects]
    cases joint <;> simp only [Machine.afterRelation, hword, Joint.keyword, Joint.tag]
  rw [hstep, hopen]
  rfl

/-- Behind a joint, a series that binds tighter may stand. -/
theorem Machine.AtSeries.push (hm : m.AtSeries least) (joint : Joint) (span : Span) (t : Tree) :
    Machine.AtSeries (tier joint.tag + 1) ((m.push ⟨joint.tag, span, [t]⟩).expecting .relation) where
  expects := rfl
  paren := by
    show (⟨joint.tag, span, [t]⟩ :: m.frames : List Frame).find? _ = none
    rw [List.find?_cons, joint.isParen_tag]
    exact hm.paren
  loose f hf := by
    cases hf
    exact Int.lt_succ _

/-- A series behind a joint closes with it. -/
theorem Machine.Finishes.joined {joint : Joint} {span : Span}
    (h : Machine.Finishes (tier joint.tag + 1) ((m.push ⟨joint.tag, span, [t]⟩).expecting .relation) u m₁)
    (hleast : least ≤ tier joint.tag) : m.Finishes least (.node joint.tag [t, u]) m₁ where
  expects := h.expects
  paren := h.paren
  closes p hp := by
    have hcomplete : Frame.isComplete ⟨joint.tag, span, [u, t]⟩ = true := by cases joint <;> rfl
    have hbelow : least ≤ tier joint.tag + 1 := Int.le_add_one hleast
    rw [h.closes p fun tag htag => hp tag (Int.le_trans hbelow htag)]
    exact closeWhile?_push (f := ⟨joint.tag, span, [u, t]⟩) (hp _ hleast) hcomplete _

/-- **The words of a series leave its tree**, wherever a series may stand. -/
theorem runTokens_series (h : Series least words t) (hm : m.AtSeries least) (rest : List Token) :
    ∃ m₁, m.Finishes least t m₁ ∧ runTokens m (words ++ rest) = runTokens m₁ rest := by
  induction h generalizing m rest with
  | single hleast h =>
    obtain ⟨m₁, hm₁, hexpects, hrun⟩ := runTokens_scoped h (hm.atMember hleast) rest
    exact ⟨m₁, hm₁.finishes hexpects hleast, hrun⟩
  | @joined least words more t u joint word hleast h hword hmore ih ihmore =>
    -- the series in front may be one of the same joint, so it stands where that joint is not closed
    have hbelow : m.AtSeries (tier joint.tag) :=
      ⟨hm.expects, hm.paren, fun f hf => Int.lt_of_lt_of_le (hm.loose f hf) hleast⟩
    obtain ⟨m₁, hm₁, hrun⟩ := ih hbelow (word :: (more ++ rest))
    obtain ⟨m₂, hm₂, hrun'⟩ := ihmore (hm.push joint word.span t) rest
    refine ⟨m₂, hm₂.joined hleast, ?_⟩
    rw [List.append_assoc, List.cons_append, hrun, runTokens_cons (by rw [hword]; rfl),
      hm.step_joint hm₁ hleast hword]
    exact hrun'

/-! ## Series as texts -/

/-- The text is a series with this tree. -/
def IsSeries (least : Int) (text : String) (t : Tree) : Prop :=
  ∃ words, Words 0 text.toList words ∧ Series least words t

variable {a b : String}

theorem IsScoped.isSeries (h : IsScoped a t) (hleast : least ≤ tier .scope) : IsSeries least a t := by
  obtain ⟨words, hwords, hscoped⟩ := h
  exact ⟨words, hwords, .single hleast hscoped⟩

/-- A series with nothing looser than a scope is a relation or a source in parentheses. -/
theorem IsSeries.isScoped (h : IsSeries (tier .scope) a t) : IsScoped a t := by
  obtain ⟨words, hwords, hseries⟩ := h
  cases hseries with
  | single _ hscoped => exact ⟨words, hwords, hscoped⟩
  | joined joint hleast => exact absurd hleast (Int.not_le.2 joint.tier_lt_scope)

/-- **A joint groups from the left.** -/
theorem IsSeries.joined {joint : Joint} (h : IsSeries (tier joint.tag) a t)
    (h' : IsSeries (tier joint.tag + 1) b u) (hleast : least ≤ tier joint.tag) :
    IsSeries least (a ++ joint.spelling ++ b) (.node joint.tag [t, u]) := by
  obtain ⟨words, hwords, hseries⟩ := h
  obtain ⟨words', hwords', hseries'⟩ := h'
  obtain ⟨c, cs, hspelling, hread⟩ : ∃ c cs, joint.spelling.toList = ' ' :: (c :: cs ++ [' ']) ∧
      Source.read c cs = ⟨.keyword joint.keyword, c :: cs, []⟩ := by
    cases joint
    · exact ⟨'f', "rom".toList, rfl, rfl⟩
    · exact ⟨'a', "nd".toList, rfl, rfl⟩
    · exact ⟨'o', "r".toList, rfl, rfl⟩
  obtain ⟨span, count, hboth⟩ := hwords.beside hwords' hread rfl
  refine ⟨_, ?_, @Series.joined _ _ _ _ _ joint ⟨_, span⟩ hleast hseries rfl (hseries'.shift count)⟩
  rw [String.toList_append, String.toList_append, hspelling, List.append_assoc]
  simpa using hboth

/-- **A series is parsed into its tree.** -/
theorem parse_of_isSeries (h : IsSeries least a t) : parse a = .ok (.node .query [t]) := by
  obtain ⟨words, hwords, hseries⟩ := h
  obtain ⟨last, hlast, hlex⟩ := Source.lex_of_words hwords
  obtain ⟨m, hm, hrun⟩ := runTokens_series hseries (m := .start) ⟨rfl, rfl, nofun⟩ [last]
  have hclose := hm.closes (fun _ => true) fun _ _ => rfl
  have hfinish : runTokens m [last] = .ok (.node .query [t]) := by
    unfold runTokens
    rw [hlast]
    dsimp only
    rw [Machine.finish, hm.expects, hm.paren, hclose]
    rfl
  rw [parse, parseTokens, hlex, hrun, hfinish]

/-! ## Positions -/

/-- A place for a source in parentheses: there alone, in front of a scope, on one side of a joint, or in
parentheses around such a place. -/
inductive Position where
  | here
  | inScope (place : Position) (name : String)
  | before (place : Position) (joint : Joint) (text : String) (tree : Tree)
  | behind (text : String) (tree : Tree) (joint : Joint) (place : Position)
  | enclosed (place : Position)

namespace Position

/-- The text with a source at the place. -/
def text (source : String) : Position → String
  | here => "(" ++ source ++ ")"
  | inScope place name => place.text source ++ " in " ++ name
  | before place joint other _ => place.text source ++ joint.spelling ++ other
  | behind other _ joint place => other ++ joint.spelling ++ place.text source
  | enclosed place => "(" ++ place.text source ++ ")"

/-- The tree with the tree of a source at the place. -/
def tree (t : Tree) : Position → Tree
  | here => .node .clausePar [t]
  | inScope place name => .node .scope [place.tree t, .atom name]
  | before place joint _ other => .node joint.tag [place.tree t, other]
  | behind _ other joint place => .node joint.tag [other, place.tree t]
  | enclosed place => .node .clausePar [place.tree t]

/-- The others are series, and no joint is looser than the tier or than its surroundings allow. -/
inductive Fits : Int → Position → Prop where
  | here {least : Int} (hleast : least ≤ tier .scope) : Fits least here
  | inScope {least : Int} {place : Position} {name : String} (hleast : least ≤ tier .scope)
      (h : Fits (tier .scope) place) (hname : IsName name) : Fits least (place.inScope name)
  | before {least : Int} {place : Position} {joint : Joint} {text : String} {tree : Tree}
      (hleast : least ≤ Grammar.tier joint.tag) (h : Fits (Grammar.tier joint.tag) place)
      (hother : IsSeries (Grammar.tier joint.tag + 1) text tree) : Fits least (place.before joint text tree)
  | behind {least : Int} {place : Position} {joint : Joint} {text : String} {tree : Tree}
      (hleast : least ≤ Grammar.tier joint.tag) (hother : IsSeries (Grammar.tier joint.tag) text tree)
      (h : Fits (Grammar.tier joint.tag + 1) place) : Fits least (place.behind text tree joint)
  | enclosed {least least' : Int} {place : Position} (hleast : least ≤ tier .scope) (h : Fits least' place) :
      Fits least place.enclosed

/-- **A source in parentheses has its node at every place.** -/
theorem Fits.isSeries {place : Position} (h : place.Fits least) (hparse : parse a = .ok (.node .query [t])) :
    IsSeries least (place.text a) (place.tree t) := by
  induction h with
  | here hleast => exact (isScoped_parenthesis hparse).isSeries hleast
  | inScope hleast _ hname ih => exact (ih.isScoped.in_ hname).isSeries hleast
  | before hleast _ hother ih => exact ih.joined hother hleast
  | behind hleast hother _ ih => exact hother.joined ih hleast
  | enclosed hleast _ ih => exact (isScoped_parenthesis (parse_of_isSeries ih)).isSeries hleast

end Position

end RelationSql.Grammar
