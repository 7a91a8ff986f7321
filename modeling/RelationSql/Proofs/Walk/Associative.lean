import RelationSql.Proofs.Grammar.Member
import RelationSql.Proofs.Walk.Clauses
import RelationSql.Proofs.Walk.Marked

/-!
# Chains of chains

How a chain is nested makes no difference to the contexts in which its members are walked: each of three
relations is walked from the same context in `(a from b) from c` and in `a from (b from c)`. Only the mark of
the chain is set once more in front of `b` where it is in the outer relation. So the two end in the same way,
whatever `a` and `b` are, exactly if the walk over `c` leaves the mark (`from_assoc`).

A hook can take the mark back by putting another query in the place of the one under construction, and then
the nesting can be told from the result (`strangers_not_assoc`). No hook of a script does
(`Script.domain_keepsMark`).
-/

namespace RelationSql

open Grammar WalkM

/-- The same error, but for the source that the failure of a hook is told with. -/
def CompileError.SameReason (fault fault' : CompileError) : Prop :=
  fault' = fault ∨
    ∃ source source' reason, fault = .failed source reason ∧ fault' = .failed source' reason

/-- The same query, or the same error but for the source it is told with. -/
def SameCompile (result result' : Except CompileError Query) : Prop :=
  SameOutcome CompileError.SameReason Eq result result'

/-! ## Trees -/

section Trees

variable {host : Host} {atEnd : WalkM Unit} {c : Tree} {w : Walk}

/-- The walk over the innermost relation of a chain leaves the mark of the chain, unless it fails. -/
def LeavesMarked (host : Host) (atEnd : WalkM Unit) (c : Tree) (w : Walk) : Prop :=
  ∀ text left, (renderWith host atEnd c).runFrom w.inward = (.ok text, left) → left.query.distinct = true

/-- A chain of chains does the same however it is nested, if the walk over its innermost relation leaves the
mark of the chain. -/
theorem renderWith_from_assoc (a b : Tree) (hc : LeavesMarked host atEnd c w) :
    (renderWith host atEnd (.node .from_ [.node .from_ [a, b], c])).runFrom w =
      (renderWith host atEnd (.node .from_ [a, .node .clausePar [.node .from_ [b, c]]])).runFrom w := by
  rw [runFrom_from, runFrom_from, renderWith_clausePar, runFrom_from]
  -- the inner relation of the inner chain is in the same place as the inner relation of the whole chain
  have hplace : w.inward.inward = w.inward := rfl
  rw [hplace]
  unfold LeavesMarked at hc
  revert hc
  rcases (renderWith host atEnd c).runFrom w.inward with ⟨fault | text, behind⟩
  · intro _
    rfl
  · intro hc
    have hkept := hc text behind rfl
    have hmarked : (behind.outward w.context).inward = behind.outward w.inward.context := by
      obtain ⟨domain, context, query⟩ := behind
      have hquery : { query with distinct := true } = query := by
        rw [← hkept]
      simp [Walk.outward, Walk.inward, hquery]
    dsimp only
    rw [runFrom_from, hmarked]
    rcases (renderWith host atEnd b).runFrom (behind.outward w.inward.context) with ⟨fault | text, left⟩
    · rfl
    · have houter : Walk.outward (behind.outward w.context).context left =
          Walk.outward w.context { left with context := w.inward.context } := rfl
      dsimp only
      rw [houter]
      rcases (renderWith host atEnd a).runFrom
        (Walk.outward w.context { left with context := w.inward.context }) with ⟨fault | text, left⟩
      · rfl
      · rfl

/-- **A chain of chains does the same however it is nested, for all of its outer relations, exactly if the walk
over its innermost one leaves the mark of the chain.** -/
theorem renderWith_from_assoc_iff :
    (∀ a b : Tree, (renderWith host atEnd (.node .from_ [.node .from_ [a, b], c])).runFrom w =
      (renderWith host atEnd (.node .from_ [a, .node .clausePar [.node .from_ [b, c]]])).runFrom w) ↔
        LeavesMarked host atEnd c w := by
  refine ⟨fun h text left hc => ?_, fun hc a b => renderWith_from_assoc a b hc⟩
  -- outer relations that do nothing leave the mark that is set in front of them, or else that of the walk
  -- over the innermost one
  have hvoid (w : Walk) : (renderWith host atEnd (.node .void [])).runFrom w = (.ok "", w) := rfl
  have hsame := h (.node .void []) (.node .void [])
  have hplace : w.inward.inward = w.inward := rfl
  rw [runFrom_from, runFrom_from, renderWith_clausePar, runFrom_from, hplace, hc] at hsame
  simp only [runFrom_from, hvoid] at hsame
  exact (congrArg (fun result => result.2.query.distinct) hsame).symm

end Trees

/-! ## Sources -/

/-- The steps end with the same error, or with the same value and state. -/
def SameRun {α : Type} (x y : Except CompileError α × Walk) : Prop :=
  x = y ∨ ∃ fault, x.1 = .error fault ∧ y.1 = .error fault

/-- What steps that run the same are followed by runs the same. -/
theorem SameRun.bind {α β : Type} {steps steps' : WalkM α} {w : Walk}
    (h : SameRun (steps.runFrom w) (steps'.runFrom w)) (next : α → WalkM β) :
    SameRun ((steps >>= next).runFrom w) ((steps' >>= next).runFrom w) := by
  rcases h with h | ⟨fault, h, h'⟩
  · left
    rw [runFrom_bind, runFrom_bind, h]
  · exact .inr ⟨fault, runFrom_bind_error h next, runFrom_bind_error h' next⟩

/-- Behind the same steps, it is enough that what follows them runs the same. -/
theorem SameRun.behind {α β : Type} {steps : WalkM α} {next next' : α → WalkM β} {w : Walk}
    (h : ∀ a left, steps.runFrom w = (.ok a, left) →
      SameRun ((next a).runFrom left) ((next' a).runFrom left)) :
    SameRun ((steps >>= next).runFrom w) ((steps >>= next').runFrom w) := by
  rw [runFrom_bind, runFrom_bind]
  revert h
  rcases steps.runFrom w with ⟨fault | a, left⟩
  · exact fun _ => .inl rfl
  · exact fun h => h a left rfl

/-- What a walk comes to is told with the source only where a hook fails. -/
theorem sameCompile_outcome (source source' : String) (result : Except CompileError Unit × Walk) :
    SameCompile (Catalog.outcome source result) (Catalog.outcome source' result) := by
  obtain ⟨fault | _, w⟩ := result
  · cases fault with
    | resolver reason => exact .error (.inr ⟨source, source', reason, rfl, rfl⟩)
    | _ => exact .error (.inl rfl)
  · exact .ok rfl

/-- Runs that end the same are told the same. -/
theorem SameRun.sameCompile {x y : Except CompileError Unit × Walk} (h : SameRun x y)
    (source source' : String) :
    SameCompile (Catalog.outcome source x) (Catalog.outcome source' y) := by
  rcases h with rfl | ⟨fault, hx, hy⟩
  · exact sameCompile_outcome source source' x
  · have hsame : Catalog.outcome source' y = Catalog.outcome source' x := by
      obtain ⟨outcome, left⟩ := x
      obtain ⟨outcome', left'⟩ := y
      obtain rfl : outcome = .error fault := hx
      obtain rfl : outcome' = .error fault := hy
      cases fault <;> rfl
    rw [hsame]
    exact sameCompile_outcome source source' x

variable {catalog : Catalog}

/-- The walk over the tree of a source begins in this state, behind the hook in front of it. -/
def Catalog.BeginsAt (catalog : Catalog) (options : Options) (domain : String) (w : Walk) : Prop :=
  ∃ start, catalog.domains.find? domain = some start ∧
    (do (← catalog.activeDomain).before (catalog.host options maxDepth) : WalkM Unit).runFrom
      (catalog.start options start) = (.ok (), w)

/-- Sources compile to the same if the walks over their clauses do the same from where they begin. -/
theorem sameCompile_of_begins {options : Options} {source source' domain : String} {t t' : Tree}
    (hparse : parse source = .ok (.node .query [t])) (hparse' : parse source' = .ok (.node .query [t']))
    (h : ∀ w, catalog.BeginsAt options domain w →
      SameRun ((render (catalog.host options Catalog.maxDepth) (.node .query [t])).runFrom w)
        ((render (catalog.host options Catalog.maxDepth) (.node .query [t'])).runFrom w)) :
    SameCompile (catalog.compile options domain source) (catalog.compile options domain source') := by
  rw [Catalog.compile, Catalog.compile, hparse, hparse']
  cases hstart : catalog.domains.find? domain with
  | none => exact .error (.inl rfl)
  | some start =>
    dsimp only
    refine SameRun.sameCompile ?_ source source'
    refine SameRun.behind fun active _ hactive => SameRun.behind fun _ left hbefore => ?_
    have hbegins : catalog.BeginsAt options domain left :=
      ⟨start, hstart, (runFrom_bind_of_ok hactive _).trans hbefore⟩
    exact SameRun.bind (h left hbegins) _

/-- The walk over a source of one clause does the same where the walk over the clause does. -/
theorem sameRun_query {host : Host} {t t' : Tree} {w : Walk}
    (h : (render host t).runFrom w = (render host t').runFrom w) :
    SameRun ((render host (.node .query [t])).runFrom w) ((render host (.node .query [t'])).runFrom w) := by
  rw [render, render, renderWith_query, renderWith_query]
  exact SameRun.bind (SameRun.bind (.inl h) _) _

/-- Sources whose clauses do the same compile to the same. -/
theorem sameCompile_of_parse {options : Options} {source source' : String} {t t' : Tree}
    (hparse : parse source = .ok (.node .query [t])) (hparse' : parse source' = .ok (.node .query [t']))
    (h : render (catalog.host options Catalog.maxDepth) t =
      render (catalog.host options Catalog.maxDepth) t') (domain : String) :
    SameCompile (catalog.compile options domain source) (catalog.compile options domain source') :=
  sameCompile_of_begins hparse hparse' fun w _ => sameRun_query (congrArg (fun steps => steps.runFrom w) h)

/-- The walk over the innermost of three clauses leaves the mark of their chain where a compile begins. -/
def Catalog.LeavesMarked (catalog : Catalog) (options : Options) (domain : String) (c : Tree) : Prop :=
  ∀ w, catalog.BeginsAt options domain w →
    let host := catalog.host options maxDepth
    RelationSql.LeavesMarked host (defaultOrder host) c w

/-- **`from` is associative but for the mark of a chain.** Both nestings of three clauses end in the same way
from a state of a walk, with the same error or with the same query, active domain and context, whatever the
two outer clauses are, exactly if the walk over the innermost one leaves the mark; it does where no hook of the
catalog takes it back. Parentheses around the two outer members of a chain of three never make a difference to
a compile, and those around the two inner members make none where the walk over the innermost one leaves the
mark. -/
theorem from_assoc (catalog : Catalog) (options : Options) :
    (∀ (depth : Nat) (c : Tree) (w : Walk),
      let host := catalog.host options depth
      (∀ a b : Tree, (render host (.node .from_ [.node .from_ [a, b], c])).runFrom w =
        (render host (.node .from_ [a, .node .clausePar [.node .from_ [b, c]]])).runFrom w) ↔
          LeavesMarked host (defaultOrder host) c w) ∧
    (catalog.KeepsMark → ∀ (depth : Nat) (c : Tree) (w : Walk),
      let host := catalog.host options depth
      LeavesMarked host (defaultOrder host) c w) ∧
    ∀ (domain first second third : String) (a b c : Tree),
      IsMember first a → IsMember second b → IsMember third c →
        SameCompile (catalog.compile options domain (first ++ " from " ++ second ++ " from " ++ third))
          (catalog.compile options domain
            ("(" ++ (first ++ " from " ++ second) ++ ")" ++ " from " ++ third)) ∧
        (catalog.LeavesMarked options domain c →
          SameCompile (catalog.compile options domain (first ++ " from " ++ second ++ " from " ++ third))
            (catalog.compile options domain
              (first ++ " from " ++ ("(" ++ (second ++ " from " ++ third) ++ ")")))) := by
  refine ⟨fun depth c w => renderWith_from_assoc_iff, fun h depth c w text left hrun => ?_, ?_⟩
  · have hkept := keepsMark_render (Catalog.host_keepsMark h options depth) c w.inward rfl
    rwa [render, hrun] at hkept
  · intro domain first second third a b c ha hb hc
    have hplain := parse_of_isChain ((ha.isChain.from_ hb).from_ hc)
    have hleft := parse_of_isChain
      ((isScoped_parenthesis (parse_of_isChain (ha.isChain.from_ hb))).isMember.isChain.from_ hc)
    have hright := parse_of_isChain
      (ha.isChain.from_ (isScoped_parenthesis (parse_of_isChain (hb.isChain.from_ hc))).isMember)
    exact ⟨sameCompile_of_parse hplain hleft rfl domain, fun hmarked =>
      sameCompile_of_begins hplain hright fun w hw =>
        sameRun_query (renderWith_from_assoc a b (hmarked w hw))⟩

/-! ## A domain of people -/

/-- People and the relations between them, each one more use of their table. -/
def people : Script where
  name := "people"
  mainTable := "people"
  mainClass := "Person"
  default := Dictionary.empty.insert "scope" "known"
  scopes := [{ names := ["known", "family"], compare := some ("friend_id", "id") }]
  fields := [{ names := ["id", "friend_id", "age"] }]
  relations := fun kind => if kind = .filter then Dictionary.empty.insert "*" [.addTable "people"] else .empty

theorem keepsMark_people : (Catalog.addDomain people.domain {}).KeepsMark := by
  intro name domain hfound
  have hentry := hfound
  rw [show (Catalog.addDomain people.domain {}).domains =
    Dictionary.empty.insert "people" people.domain from rfl, Dictionary.find?_insert] at hentry
  split at hentry
  · cases hentry
    exact people.domain_keepsMark
  · cases hentry

/-- A condition on one field. -/
theorem conditions_age : Conditions "age > 3"
    (.node (.op .greater) [.leaf .field "age", .leaf .integer "3"]) := by
  have hwords : Source.Words 0 "age > 3".toList
      [⟨.name "age", ⟨0, 3⟩⟩, ⟨.symbol .greater, ⟨4, 5⟩⟩, ⟨.integer "3", ⟨6, 7⟩⟩] := by
    refine ⟨⟨⟨.finish, ⟨7, 7⟩⟩, rfl, ?_⟩, by decide⟩
    decide +kernel
  exact ⟨_, hwords, by decide, by decide, ⟨.finish, ⟨7, 7⟩⟩, rfl, rfl⟩

/-- A scoped relation, a relation in parentheses and a relation with a condition. -/
theorem friends_from_parents_from_children_assoc :
    SameCompile
        ((Catalog.addDomain people.domain {}).compile {} "people"
          "friends in family from (parents) from children where age > 3")
        ((Catalog.addDomain people.domain {}).compile {} "people"
          "(friends in family from (parents)) from children where age > 3") ∧
      SameCompile
        ((Catalog.addDomain people.domain {}).compile {} "people"
          "friends in family from (parents) from children where age > 3")
        ((Catalog.addDomain people.domain {}).compile {} "people"
          "friends in family from ((parents) from children where age > 3)") := by
  have hfriends : IsName "friends" := ⟨'f', "riends".toList, rfl, rfl⟩
  have hfamily : IsName "family" := ⟨'f', "amily".toList, rfl, rfl⟩
  have hparents : IsName "parents" := ⟨'p', "arents".toList, rfl, rfl⟩
  have hchildren : IsName "children" := ⟨'c', "hildren".toList, rfl, rfl⟩
  obtain ⟨-, hmarked, hassoc⟩ := from_assoc (Catalog.addDomain people.domain {}) {}
  have hboth := hassoc "people" _ _ _ _ _ _ (hfriends.isScoped.in_ hfamily).isMember
    (isScoped_parenthesis (parse_of_isChain hparents.isScoped.isMember.isChain)).isMember
    (hchildren.isScoped.where_ conditions_age)
  exact ⟨hboth.1, hboth.2 fun w _ => hmarked keepsMark_people _ _ w⟩

/-! ## Strangers -/

/-- The people, and strangers who put a new query in the place of the one under construction. -/
def forgetful : Domain :=
  { people.domain with
    relation := fun host kind name =>
      if name = "strangers" then do
        modifyQuery fun q => .new q.dialect q.mainTable q.mainClass
        return true
      else people.domain.relation host kind name }

/-- Sources that compile to the same leave the same mark. -/
theorem SameCompile.distinct_eq {result result' : Except CompileError Query} (h : SameCompile result result')
    {marked : Bool} (hmarked : result.map Query.distinct = .ok marked) :
    result'.map Query.distinct = .ok marked := by
  cases h with
  | error _ => cases hmarked
  | ok heq => exact heq ▸ hmarked

/-- The strangers take the mark back, and the parents in the outer relation set it once more behind them. -/
theorem distinct_plain_strangers :
    ((Catalog.addDomain forgetful {}).compile {} "people" "friends from parents from strangers").map
      Query.distinct = .ok true := by
  decide +kernel

/-- The parents in the inner relation do not. -/
theorem distinct_nested_strangers :
    ((Catalog.addDomain forgetful {}).compile {} "people" "friends from (parents from strangers)").map
      Query.distinct = .ok false := by
  decide +kernel

/-- **A hook that replaces the query tells the nesting of a chain.** -/
theorem strangers_not_assoc :
    ¬ SameCompile
      ((Catalog.addDomain forgetful {}).compile {} "people" "friends from parents from strangers")
      ((Catalog.addDomain forgetful {}).compile {} "people" "friends from (parents from strangers)") := by
  intro hsame
  cases distinct_nested_strangers.symm.trans (hsame.distinct_eq distinct_plain_strangers)

end RelationSql
