import Mathlib.Data.List.Induction
import Mathlib.Tactic.Common
import RelationSql.Proofs.Walk.Associative

/-!
# The order of a chain

A chain visits its members from the innermost to the outermost (`chain_in_order`). Each member starts in
a context of its own, which says where in the chain it stands and nothing of the other members; its
relation is resolved in the first scope written behind it, and its condition is rendered right after. As
no member of a longer chain is both the outermost and the innermost, custom queries are looked for only
where a relation stands alone.
-/

namespace RelationSql

open Grammar WalkM

/-! ## Chains -/

/-- A member of a chain: a relation, the scopes behind it in the order in which they are written, and the
condition behind them. -/
structure Element where
  relation : String
  scopes : List String := []
  condition : Option Tree := none

namespace Element

/-- The tree of the relation with its scopes. -/
def inScopes (e : Element) : Tree :=
  e.scopes.foldl (fun t scope => .node .scope [t, .atom scope]) (.leaf .relation e.relation)

/-- The tree of the member. -/
def tree (e : Element) : Tree :=
  match e.condition with
  | none => e.inScopes
  | some condition => .node .filter [e.inScopes, condition]

end Element

/-- The tree of a chain, from its outermost member on. -/
def chainOf (first : Element) (more : List Element) : Tree :=
  more.foldl (fun outer e => .node .from_ [outer, e.tree]) first.tree

/-! ## Visits -/

/-- The context of the member at a place of a chain. All else is as in the context of a walk that has not
begun. -/
def contextAt (place length : Nat) : Context where
  first := place == 0
  last := place + 1 == length

/-- Asks the active domain for a relation, without looking for a custom query. -/
def Clause.ask (host : Host) (name : String) : WalkM Unit := do
  Clause.askDomain host (← get).domain name RelationKind.all

/-- Resolves the relation of a member, in the first scope behind it if there is one. -/
def Element.resolve (resolve : String → WalkM Unit) (e : Element) : WalkM Unit :=
  match e.scopes with
  | [] => resolve e.relation
  | scope :: _ => within (fun c => { c with scope := some scope }) (resolve e.relation)

/-- Resolves the relation of a member, and adds its condition. -/
def Element.visit (resolve : String → WalkM Unit) (render : Tree → WalkM String) (e : Element) :
    WalkM Unit := do
  e.resolve resolve
  match e.condition with
  | none => return
  | some condition => do
    enterPhase .filter
    addFilter (← render condition)

/-- Marks the query in front of a member, unless it is the outermost. -/
def markInner (place : Nat) : WalkM Unit :=
  if place = 0 then return else modifyQuery fun q => { q with distinct := true }

/-- Visits members with their places, each in its own context. -/
def visits (resolve : String → WalkM Unit) (render : Tree → WalkM String) (length : Nat) :
    List (Element × Nat) → WalkM Unit
  | [] => return
  | (e, place) :: rest => do
    markInner place
    within (fun _ => contextAt place length) (e.visit resolve render)
    visits resolve render length rest

/-- Visits the members of a chain, the last one first. -/
def visitChain (resolve : String → WalkM Unit) (render : Tree → WalkM String)
    (elements : List Element) : WalkM Unit :=
  visits resolve render elements.length elements.zipIdx.reverse

/-! ## One member -/

variable {host : Host} (atEnd : WalkM Unit)

/-- Only the innermost of scopes around a relation counts. -/
theorem within_scope_within_scope (scope other : String) (steps : WalkM Unit) :
    within (fun c => { c with scope := some other }) (within (fun c => { c with scope := some scope }) steps) =
      within (fun c => { c with scope := some scope }) steps := by
  apply WalkM.ext
  intro w
  simp only [runFrom_within]

/-- Steps in a changed context, silently or not. -/
theorem within_silently (change : Context → Context) (steps : WalkM Unit) :
    within change (silently steps) = silently (within change steps) := by
  apply WalkM.ext
  intro w
  simp only [silently, runFrom_bind, runFrom_within]
  rcases steps.runFrom { w with context := change w.context } with ⟨fault | _, left⟩
  · rfl
  · rfl

/-- A relation with scopes is resolved in the first of them. -/
theorem renderWith_inScopes (e : Element) :
    renderWith host atEnd e.inScopes = silently (e.resolve (Clause.relation host)) := by
  obtain ⟨relation, scopes, condition⟩ := e
  induction scopes using List.reverseRecOn with
  | nil => rfl
  | append_singleton scopes other ih =>
    have htree : Element.inScopes ⟨relation, scopes ++ [other], condition⟩ =
        .node .scope [Element.inScopes ⟨relation, scopes, condition⟩, .atom other] := by
      simp [Element.inScopes]
    rw [htree, renderWith_scope, ih, within_silently]
    cases scopes with
    | nil => rfl
    | cons scope scopes =>
      exact congrArg silently (within_scope_within_scope scope other (Clause.relation host relation))

/-- **A member is visited.** -/
theorem renderWith_element (e : Element) :
    renderWith host atEnd e.tree =
      silently (e.visit (Clause.relation host) (renderWith host atEnd)) := by
  obtain ⟨relation, scopes, condition⟩ := e
  cases condition with
  | none =>
    show renderWith host atEnd (Element.inScopes _) = _
    rw [renderWith_inScopes, Element.visit, silently, silently, bind_assoc]
    rfl
  | some condition =>
    show renderWith host atEnd (.node .filter [Element.inScopes ⟨relation, scopes, some condition⟩,
      condition]) = _
    rw [renderWith_filter, renderWith_inScopes, Element.visit, silently, silently, silently]
    simp only [bind_assoc]
    rfl

/-! ## All members -/

/-- Visits depend on no context, and leave the one that they find. -/
theorem runFrom_visits (resolve : String → WalkM Unit) (render : Tree → WalkM String) (length : Nat)
    (places : List (Element × Nat)) (context : Context) (w : Walk) :
    (visits resolve render length places).runFrom { w with context := context } =
      (((visits resolve render length places).runFrom w).1,
        { ((visits resolve render length places).runFrom w).2 with context := context }) := by
  induction places generalizing w with
  | nil => rfl
  | cons visited rest ih =>
    obtain ⟨e, place⟩ := visited
    have hmark (w : Walk) : ∃ q, (markInner place).runFrom w = (.ok (), { w with query := q }) ∧
        (markInner place).runFrom { w with context := context } =
          (.ok (), { w with context := context, query := q }) := by
      unfold markInner
      split
      · exact ⟨w.query, rfl, rfl⟩
      · exact ⟨_, rfl, rfl⟩
    obtain ⟨q, hmark, hmark'⟩ := hmark w
    rw [visits, runFrom_bind_of_ok hmark, runFrom_bind_of_ok hmark', runFrom_bind, runFrom_bind,
      runFrom_within, runFrom_within]
    dsimp only
    rcases (e.visit resolve render).runFrom
      { domain := w.domain, context := contextAt place length, query := q } with ⟨fault | _, left⟩
    · rfl
    · dsimp only
      rw [ih { left with context := w.context }]

theorem runFrom_markInner (place : Nat) (w : Walk) :
    (markInner (place + 1)).runFrom w = (.ok (), { w with query := { w.query with distinct := true } }) :=
  rfl

/-- A longer chain takes the chain so far as its outer relation. -/
theorem chainOf_append (first : Element) (more : List Element) (e : Element) :
    chainOf first (more ++ [e]) = .node .from_ [chainOf first more, e.tree] := by
  simp [chainOf]

theorem reverse_zipIdx_append (elements : List Element) (e : Element) :
    (elements ++ [e]).zipIdx.reverse = (e, elements.length) :: elements.zipIdx.reverse := by
  simp [List.zipIdx_append]

/-- **A chain visits its members**, wherever it stands in a longer one: only the innermost member knows
whether it is the last. -/
theorem runFrom_chainOf (first : Element) (more : List Element) :
    ∀ {length : Nat} {w : Walk}, more.length + 1 ≤ length →
      w.context = { last := more.length + 1 == length } →
      (within id (renderWith host atEnd (chainOf first more))).runFrom w =
        (silently (visits (Clause.relation host) (renderWith host atEnd) length
          (first :: more).zipIdx.reverse)).runFrom w := by
  -- a chain grows at its inner end: the new member is visited first, and the others one place further out
  induction more using List.reverseRecOn with
  | nil =>
    intro length w _ hw
    have hcontext : contextAt 0 length = w.context := hw.symm
    have hplaces : ([first] : List Element).zipIdx.reverse = [(first, 0)] := rfl
    have hmark : (markInner 0).runFrom w = (.ok (), w) := rfl
    show (within id (renderWith host atEnd first.tree)).runFrom w = _
    rw [hplaces, visits, renderWith_element, silently, silently, runFrom_within, runFrom_bind,
      runFrom_bind, runFrom_bind_of_ok hmark, runFrom_bind, runFrom_within, hcontext]
    have hid : ({ w with context := id w.context } : Walk) = w := rfl
    rw [hid]
    rcases (first.visit (Clause.relation host) (renderWith host atEnd)).runFrom w with
      ⟨fault | _, left⟩
    · rfl
    · rfl
  | append_singleton more e ih =>
    intro length w hlength hw
    rw [List.length_append, List.length_singleton] at hlength hw
    have hcontext : contextAt (more.length + 1) length = w.inward.context := by
      rw [Walk.inward, hw]
      rfl
    have hinner : w.inward = { w with
        context := contextAt (more.length + 1) length, query := { w.query with distinct := true } } := by
      rw [hcontext]
      rfl
    have hplaces : (first :: (more ++ [e])).zipIdx.reverse =
        (e, more.length + 1) :: (first :: more).zipIdx.reverse :=
      reverse_zipIdx_append (first :: more) e
    rw [hplaces, visits, chainOf_append, runFrom_within, silently, runFrom_bind,
      runFrom_bind_of_ok (runFrom_markInner _ w), runFrom_bind, runFrom_within]
    dsimp only [id]
    rw [runFrom_from, renderWith_element, hinner, silently, runFrom_bind]
    rcases (e.visit (Clause.relation host) (renderWith host atEnd)).runFrom { w with
        context := contextAt (more.length + 1) length, query := { w.query with distinct := true } } with
      ⟨fault | _, behind⟩
    · rfl
    · dsimp only
      have hlater : (behind.outward w.context).context = { last := more.length + 1 == length } := by
        have hlast : (more.length + 1 == length) = false := by
          rw [beq_eq_false_iff_ne]
          omega
        rw [Walk.outward, hw, hlast]
      have houter := ih (Nat.le_of_succ_le hlength) hlater
      have hvisits := runFrom_visits (Clause.relation host) (renderWith host atEnd) length
        (first :: more).zipIdx.reverse w.context (behind.outward w.context)
      have hback : ({ behind.outward w.context with context := w.context } : Walk) =
          { behind with context := w.context } := rfl
      rw [hback] at hvisits
      rw [hvisits]
      have hid : ({ behind.outward w.context with context := id (behind.outward w.context).context } :
          Walk) = behind.outward w.context := rfl
      rw [runFrom_within, silently, runFrom_bind, hid] at houter
      rw [runFrom_pure]
      dsimp only
      -- both runs of the outer part end in the same way
      revert houter
      rcases (renderWith host atEnd (chainOf first more)).runFrom (behind.outward w.context) with
        ⟨fault | text, left⟩
      · rcases (visits (Clause.relation host) (renderWith host atEnd) length
          (first :: more).zipIdx.reverse).runFrom (behind.outward w.context) with ⟨fault' | _, left'⟩
        · intro houter
          cases houter
          rfl
        · intro houter
          cases houter
      · rcases (visits (Clause.relation host) (renderWith host atEnd) length
          (first :: more).zipIdx.reverse).runFrom (behind.outward w.context) with ⟨fault' | _, left'⟩
        · intro houter
          cases houter
        · intro houter
          cases houter
          rfl

/-! ## Custom queries -/

/-- A member of a longer chain is not both the outermost and the innermost. -/
theorem contextAt_not_alone {length : Nat} (hlength : 2 ≤ length) (place : Nat) :
    ((contextAt place length).first && (contextAt place length).last) = false := by
  simp only [contextAt, Bool.and_eq_false_iff, beq_eq_false_iff_ne]
  omega

/-- A relation that does not stand alone is asked for. -/
theorem runFrom_relation_of_not_alone {w : Walk} (h : (w.context.first && w.context.last) = false)
    (name : String) : (Clause.relation host name).runFrom w = (Clause.ask host name).runFrom w := by
  have hcustom : Clause.customQuery? host w name = none := by
    unfold Clause.customQuery?
    rw [h]
    cases host.options.group <;> rfl
  unfold Clause.relation Clause.ask
  rw [runFrom_bind_of_ok (yields_get w), runFrom_bind_of_ok (yields_get w), hcustom]

/-- In a longer chain, every relation is asked for. -/
theorem visits_ask (render : Tree → WalkM String) {length : Nat} (hlength : 2 ≤ length)
    (places : List (Element × Nat)) :
    visits (Clause.relation host) render length places = visits (Clause.ask host) render length places := by
  induction places with
  | nil => rfl
  | cons visited rest ih =>
    obtain ⟨e, place⟩ := visited
    have hresolve (w : Walk) : (e.resolve (Clause.relation host)).runFrom
          { w with context := contextAt place length } =
        (e.resolve (Clause.ask host)).runFrom { w with context := contextAt place length } := by
      have halone := contextAt_not_alone hlength place
      unfold Element.resolve
      split
      · exact runFrom_relation_of_not_alone halone e.relation
      · rw [runFrom_within, runFrom_within, runFrom_relation_of_not_alone halone e.relation]
    have hvisit : within (fun _ => contextAt place length) (e.visit (Clause.relation host) render) =
        within (fun _ => contextAt place length) (e.visit (Clause.ask host) render) := by
      apply WalkM.ext
      intro w
      rw [runFrom_within, runFrom_within, Element.visit, Element.visit, runFrom_bind, runFrom_bind,
        hresolve]
    rw [visits, visits, hvisit, ih]

/-! ## Sources -/

/-- A text in front of a joined text. -/
theorem foldl_join_append (separator front text : String) (more : List String) :
    more.foldl (fun joined text => joined ++ separator ++ text) (front ++ text) =
      front ++ more.foldl (fun joined text => joined ++ separator ++ text) text := by
  induction more generalizing text with
  | nil => rfl
  | cons next more ih =>
    rw [List.foldl_cons, List.foldl_cons, ← ih, String.append_assoc, String.append_assoc,
      String.append_assoc]

/-- Texts may be joined from the left. -/
theorem joinWith_eq_foldl (separator text : String) (more : List String) :
    Text.joinWith separator (text :: more) =
      more.foldl (fun joined text => joined ++ separator ++ text) text := by
  induction more generalizing text with
  | nil => rfl
  | cons next more ih =>
    rw [Text.joinWith, ih, List.foldl_cons, foldl_join_append]
    exact List.cons_ne_nil next more

/-- The texts of members with ` from ` between neighbours are a chain. -/
theorem isChain_joinWith {first : Element} {more : List Element} {texts : List String}
    (h : List.Forall₂ (fun text e => IsMember text e.tree) texts (first :: more)) :
    IsChain (Text.joinWith " from " texts) (chainOf first more) := by
  cases h with
  | @cons text _ texts _ hfirst hmore =>
    have hjoined {joined : String} {t : Tree} (hjoined : IsChain joined t) :
        IsChain (texts.foldl (fun joined text => joined ++ " from " ++ text) joined)
          (more.foldl (fun outer e => .node .from_ [outer, e.tree]) t) := by
      induction hmore generalizing joined t with
      | nil => exact hjoined
      | cons hmember _ ih => exact ih (hjoined.from_ hmember)
    rw [joinWith_eq_foldl]
    exact hjoined hfirst.isChain

/-- **The order of a chain.** Relations with scopes and conditions, written with `from` between
neighbours, are parsed into a chain. From a context in which nothing has been asked for, the chain visits
its members once each, the last one first, each in the context of its own place (`visitChain`); so where
the chain has several members, no relation is replaced by a custom query. -/
theorem chain_in_order (host : Host) (first : Element) (more : List Element) :
    (∀ texts : List String,
      List.Forall₂ (fun text e => IsMember text e.tree) texts (first :: more) →
        parse (Text.joinWith " from " texts) = .ok (.node .query [chainOf first more])) ∧
    ∀ w : Walk, w.context = {} →
      (within id (render host (chainOf first more))).runFrom w =
          (silently (visitChain (Clause.relation host) (render host) (first :: more))).runFrom w ∧
        (more ≠ [] → (within id (render host (chainOf first more))).runFrom w =
          (silently (visitChain (Clause.ask host) (render host) (first :: more))).runFrom w) := by
  refine ⟨fun texts htexts => parse_of_isChain (isChain_joinWith htexts), fun w hw => ?_⟩
  have hcontext : w.context = { last := more.length + 1 == (first :: more).length } := by
    rw [hw, List.length_cons, beq_self_eq_true]
  have hvisits := @runFrom_chainOf host (defaultOrder host) first more _ _ (Nat.le_refl _) hcontext
  refine ⟨hvisits, fun hmore => ?_⟩
  have hlength : 2 ≤ (first :: more).length := by
    cases more with
    | nil => exact absurd rfl hmore
    | cons e more => simp
  rw [visitChain, ← visits_ask (render host) hlength]
  exact hvisits

/-- Three relations, the outermost with two scopes and the innermost with a condition. -/
theorem friends_from_parents_from_children_visited :
    let host := (Catalog.addDomain people.domain {}).host {} 2
    let old := .node (.op .greater) [.leaf .field "age", .leaf .integer "3"]
    let first : Element := { relation := "friends", scopes := ["family", "known"] }
    let more : List Element :=
      [{ relation := "parents" }, { relation := "children", condition := some old }]
    let w := Catalog.start {} {} people.domain
    parse "friends in family in known from parents from children where age > 3" =
        .ok (.node .query [chainOf first more]) ∧
      (within id (render host (chainOf first more))).runFrom w =
        (silently (visitChain (Clause.ask host) (render host) (first :: more))).runFrom w := by
  intro host old first more w
  have hfriends : IsName "friends" := ⟨'f', "riends".toList, rfl, rfl⟩
  have hfamily : IsName "family" := ⟨'f', "amily".toList, rfl, rfl⟩
  have hknown : IsName "known" := ⟨'k', "nown".toList, rfl, rfl⟩
  have hparents : IsName "parents" := ⟨'p', "arents".toList, rfl, rfl⟩
  have hchildren : IsName "children" := ⟨'c', "hildren".toList, rfl, rfl⟩
  have horder := chain_in_order host first more
  refine ⟨?_, ((horder.2 w rfl).2 (by simp [more]))⟩
  have hjoined : Text.joinWith " from " ["friends" ++ " in " ++ "family" ++ " in " ++ "known", "parents",
        "children" ++ " where " ++ "age > 3"] =
      "friends in family in known from parents from children where age > 3" := by
    decide
  rw [← hjoined]
  exact horder.1 _ (.cons ((hfriends.isScoped.in_ hfamily).in_ hknown).isMember
    (.cons hparents.isScoped.isMember (.cons (hchildren.isScoped.where_ conditions_age) .nil)))

end RelationSql
