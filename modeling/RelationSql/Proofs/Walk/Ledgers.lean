import RelationSql.Proofs.Grammar.Formation
import RelationSql.Proofs.Walk.Spoken

/-!
# What a source leaves in a ledger

A walk over a well-formed tree leads from the ledger in front of the tree to the ledger that the tree says
(`Gauge.Traced`, `traced_of_formed`), or to an error that is allowed. So a compiled query is written by
the ledger of its source (`Catalog.Weighed.compile`), however deep the hooks of its domains call each
other.
-/

namespace RelationSql

open Grammar WalkM RelationSql.Part RelationSql.Fragment

/-! ## Ledgers of trees -/

namespace Scale

variable {W : Type} [AddCommMonoid W] {scale : Scale W}

theorem after_from (t u : Tree) (l : Ledger W) :
    scale.after (.node .from_ [t, u]) l = scale.after t (scale.after u l) := by
  rw [after]

theorem after_filter (t u : Tree) (l : Ledger W) :
    scale.after (.node .filter [t, u]) l = (scale.after t l).filter (scale.weigh u) := by
  rw [after]

theorem after_having (t u : Tree) (l : Ledger W) :
    scale.after (.node .having [t, u]) l =
      { scale.after u (scale.after t l) with having_ := scale.weigh u } := by
  rw [after]

theorem after_clauseOr (ts : List Tree) (l : Ledger W) :
    scale.after (.node .clauseOr ts) l = l.unite (scale.branchesAfter ts l) := by
  rw [after]

/-- The other nodes leave behind what their first child does. -/
theorem after_first {tag : Tag} (hlink : tag ≠ .from_) (hor : tag ≠ .clauseOr) (hfilter : tag ≠ .filter)
    (hhaving : tag ≠ .having) (t : Tree) (ts : List Tree) (l : Ledger W) :
    scale.after (.node tag (t :: ts)) l = scale.after t l := by
  cases tag with
  | from_ => exact absurd rfl hlink
  | clauseOr => exact absurd rfl hor
  | filter => exact absurd rfl hfilter
  | having => exact absurd rfl hhaving
  | _ => rfl

theorem after_atom (text : String) (l : Ledger W) : scale.after (.atom text) l = l := by
  rfl

/-- An expression leaves every ledger as it is. -/
theorem after_expression {swallows : Prop} {role : Role} {t : Tree} (ht : Formed swallows role t)
    (hrole : role = .expression) (l : Ledger W) : scale.after t l = l := by
  have hfirst {tag : Tag} {ts : List Tree} (hlink : tag ≠ .from_) (hor : tag ≠ .clauseOr)
      (hfilter : tag ≠ .filter) (hhaving : tag ≠ .having) (h : ∀ t ∈ ts, scale.after t l = l) :
      scale.after (.node tag ts) l = l := by
    cases ts with
    | nil => cases tag <;> first | contradiction | rfl
    | cons t ts => rw [after_first hlink hor hfilter hhaving, h t List.mem_cons_self]
  have hleaf {tag : Tag} (text : String) (hlink : tag ≠ .from_) (hor : tag ≠ .clauseOr)
      (hfilter : tag ≠ .filter) (hhaving : tag ≠ .having) : scale.after (.leaf tag text) l = l :=
    hfirst hlink hor hfilter hhaving (List.forall_mem_singleton.2 (after_atom text l))
  have hnumber {t : Tree} (ht : IsNumber t) : scale.after t l = l := by
    cases ht <;> exact hleaf _ (by decide) (by decide) (by decide) (by decide)
  induction ht with
  | field ht =>
    obtain ⟨-⟩ := ht
    exact hleaf _ (by decide) (by decide) (by decide) (by decide)
  | number ht => exact hnumber ht
  | string | template => exact hleaf _ (by decide) (by decide) (by decide) (by decide)
  | null => exact hfirst (by decide) (by decide) (by decide) (by decide) (by simp)
  | parenthesis _ _ ih => exact hfirst (by decide) (by decide) (by decide) (by decide) fun t ht => ih t ht rfl
  | operator _ _ ih => exact hfirst (by simp) (by simp) (by simp) (by simp) fun t ht => ih t ht rfl
  | call _ _ ih => rw [after_first (by decide) (by decide) (by decide) (by decide), ih rfl]
  | interval ht _ => rw [after_first (by decide) (by decide) (by decide) (by decide), hnumber ht]
  | _ => cases hrole

end Scale

namespace Gauge

open Scale

variable {W : Type} [AddCommMonoid W] (g : Gauge W)

/-! ## Relations -/

/-- A walk that comes to a relation. Where a custom query may replace what is there, there is nothing that
weighs anything. -/
structure Enters (l : Ledger W) (w : Walk) : Prop where
  holds : g.Holds l w
  alone : w.context.first = true → w.context.last = true → (∃ custom, g.Offers custom) → l = 0

variable {g} {host : Host} {atEnd : WalkM Unit} {l l' : Ledger W} (hg : g.Lawful) (h : host.Weighed g)

theorem Holds.enters_of_swallows (hswallows : g.swallows) {w : Walk} (hw : g.Holds l w) (hg : g.Lawful) :
    g.Enters l w := by
  refine ⟨hw, fun _ _ hoffers => ?_⟩
  have := hg.replaced hswallows hoffers
  exact Ledger.ext (Subsingleton.elim _ _) (Subsingleton.elim _ _)

section Relations

include hg h

theorem runs_askDomain (domain : String) {name : String} (hname : g.Word name) (kinds : List RelationKind) :
    g.Runs l l (Clause.askDomain host domain name kinds) fun _ => True := by
  induction kinds with
  | nil => exact .throw hg trivial
  | cons kind kinds ih =>
    have hask : g.Runs l l
        (do if ← host.relation domain kind name then return
            else Clause.askDomain host domain name kinds) fun _ => True := by
      refine (h.relation l domain kind name hname).bind fun found _ => ?_
      cases found with
      | true => exact .pure trivial
      | false => exact ih
    have hkind : g.Runs l l (modifyContext fun c => { c with scopeType := some kind }) fun _ => True :=
      .modifyContext fun _ => id
    unfold Clause.askDomain
    split
    · exact hkind.bind fun _ _ => hask
    · exact hask

/-- A relation keeps the ledger. -/
theorem ends_relation {name : String} (hname : g.Word name) :
    Ends g.faults (g.Enters l) (Clause.relation host name) fun _ => g.Holds l := by
  unfold Clause.relation
  refine Ends.get_bind fun w hw => ?_
  cases hcustom : Clause.customQuery? host w name with
  | none =>
    exact (Ends.imp (runs_askDomain hg h w.domain hname RelationKind.all) (fun _ => id)
      fun _ _ hleft => hleft.2).of_eq hw.holds
  | some custom =>
    have hoffered : (w.context.first && w.context.last) = true ∧ g.Offers custom := by
      unfold Clause.customQuery? at hcustom
      rw [h.options, h.customs] at hcustom
      obtain ⟨group, hgroup, hcustom⟩ := Option.bind_eq_some_iff.1 hcustom
      split at hcustom
      · next halone => exact ⟨halone, group, w.domain, name, hgroup, hcustom⟩
      · cases hcustom
    obtain ⟨halone, hoffers⟩ := hoffered
    rw [Bool.and_eq_true] at halone
    obtain rfl := hw.alone halone.1 halone.2 ⟨custom, hoffers⟩
    rintro _ rfl
    exact ⟨hw.holds.query.applyCustom hg (hg.customs custom hoffers), hw.holds.name⟩

end Relations

/-! ## Items of clauses -/

section Items

include hg h

theorem runs_field {t : Tree} (ht : IsField t) : g.Runs l l (renderWith host atEnd t) g.Word := by
  obtain ⟨hname⟩ := ht
  exact (h.resolveField hg (hg.isClass.word hname.lacks)).imp fun _ htext => htext.1

/-- The entries of an order are names with their directions. -/
theorem runs_ordering {t : Tree} (ht : IsOrdering t) : g.Runs l l (renderWith host atEnd t) g.Word := by
  have hdirection {t : Tree} (ht : IsField t) {word : String} (hword : Lacks reserved word) :
      g.Runs l l (do return (← renderWith host atEnd t) ++ " " ++ word) g.Word :=
    (runs_field hg h ht).bind fun text htext =>
      .pure ((htext.append (hg.isClass.word (by decide))).append (hg.isClass.word hword))
  cases ht with
  | field ht => exact runs_field hg h ht
  | asc ht => exact hdirection ht (by decide)
  | desc ht => exact hdirection ht (by decide)

omit h in
theorem runs_items {items : List Tree}
    (hitems : ∀ t ∈ items, g.Runs l l (renderWith host atEnd t) g.Word) :
    g.Runs l l (do return Text.joinWith ", " (← renderAll (ofTrees (renderNode host atEnd) items)))
      g.Word := by
  have hall : g.Runs l l (renderAll (ofTrees (renderNode host atEnd) items)) fun texts =>
      ∀ text ∈ texts, g.Word text := by
    induction items with
    | nil => exact .pure (by simp)
    | cons t items ih =>
      rw [List.forall_mem_cons] at hitems
      refine Runs.bind hitems.1 fun text htext => (ih hitems.2).bind fun texts htexts => ?_
      exact .pure (List.forall_mem_cons.2 ⟨htext, htexts⟩)
  exact hall.bind fun texts htexts => .pure (lacks_joinWith (hg.isClass.word (by decide)) htexts)

end Items

/-! ## Clauses -/

/-- A walk over the tree renders nothing and leads from one ledger to the other. -/
def Arrives (g : Gauge W) (host : Host) (atEnd : WalkM Unit) (l : Ledger W) (t : Tree) (l' : Ledger W) :
    Prop :=
  Ends g.faults (g.Enters l) (renderWith host atEnd t) fun text w => text = "" ∧ g.Holds l' w

/-- A walk over the clause arrives at the ledger of the tree, and so does each of its branches. -/
structure Traced (g : Gauge W) (host : Host) (atEnd : WalkM Unit) (t : Tree) : Prop where
  clause : ∀ l, g.Arrives host atEnd l t (g.after t l)
  branches : ∀ l, List.Forall₂ (g.Arrives host atEnd l) t.orBranches (g.branchesAfter [t] l)

/-- What is no alternative is its only branch. -/
theorem Traced.of_clause {t : Tree} (ht : t.tag? ≠ some .clauseOr)
    (h : ∀ l, g.Arrives host atEnd l t (g.after t l)) : g.Traced host atEnd t := by
  refine ⟨h, fun l => ?_⟩
  have hbranches : t.orBranches = [t] ∧ g.branchesAfter [t] l = [g.after t l] := by
    cases t with
    | atom text => exact ⟨rfl, rfl⟩
    | node tag ts =>
      cases tag with
      | clauseOr => exact absurd rfl ht
      | _ => exact ⟨rfl, rfl⟩
  rw [hbranches.1, hbranches.2]
  exact .cons (h l) .nil

theorem branchesAfter_cons (t : Tree) (ts : List Tree) (l : Ledger W) :
    g.branchesAfter (t :: ts) l = g.branchesAfter [t] l ++ g.branchesAfter ts l := by
  cases t with
  | atom text => rfl
  | node tag us =>
    cases tag with
    | clauseOr => rw [branchesAfter, branchesAfter, branchesAfter, List.append_nil]
    | _ => rfl

/-- The branches of several trees are traced one after the other. -/
theorem branches_traced {ts : List Tree} (hts : ∀ t ∈ ts, g.Traced host atEnd t) (l : Ledger W) :
    List.Forall₂ (g.Arrives host atEnd l) (Tree.orBranchesOf ts) (g.branchesAfter ts l) := by
  induction ts with
  | nil => exact .nil
  | cons t ts ih =>
    rw [List.forall_mem_cons] at hts
    rw [branchesAfter_cons, Tree.orBranchesOf]
    exact List.rel_append (hts.1.branches l) (ih hts.2)

/-- A clause that renders nothing. -/
theorem Arrives.of_silently {steps : WalkM Unit} {t : Tree}
    (hsteps : renderWith host atEnd t = silently steps)
    (h : Ends g.faults (g.Enters l) steps fun _ => g.Holds l') : g.Arrives host atEnd l t l' := by
  rw [Arrives, hsteps]
  exact h.bind fun _ => .pure fun _ hw => ⟨rfl, hw⟩

/-- The clause in front, and then steps of the clause itself. -/
theorem Arrives.bind {t : Tree} {α : Type} {next : String → WalkM α} {m : Ledger W}
    (ht : g.Arrives host atEnd l t m) (hnext : g.Runs m l' (next "") fun _ => True) :
    Ends g.faults (g.Enters l) (renderWith host atEnd t >>= next) fun _ => g.Holds l' :=
  Ends.bind ht fun text => .of_and fun heq => by
    subst heq
    exact Ends.imp hnext (fun _ => id) fun _ _ hleft => hleft.2

section Clauses

variable {t u : Tree}

theorem arrives_scope {name : String} (ht : g.Traced host atEnd t) :
    g.Arrives host atEnd l (.node .scope [t, .atom name]) (g.after t l) := by
  rw [Arrives, renderWith_scope]
  exact (ht.clause l).within (fun w hw => ⟨⟨hw.holds.query, hw.holds.name⟩, hw.alone⟩)
    fun _ w left hw hleft => ⟨hleft.1, hleft.2.query, hw.holds.name⟩

/-- A chain. Its inner relation comes first, and neither of its ends stands alone. -/
theorem arrives_from {m : Ledger W} (hu : g.Arrives host atEnd l u m)
    (ht : Ends g.faults (g.Enters m) (renderWith host atEnd t) fun _ => g.Holds l') :
    g.Arrives host atEnd l (.node .from_ [t, u]) l' := by
  refine .of_silently (renderWith_from atEnd t u) ?_
  refine Ends.bind (Q := fun _ => g.Holds l) ?_ fun _ => ?_
  · exact fun w hw => ⟨hw.holds.query.setDistinct true, hw.holds.name⟩
  refine Ends.bind (Q := fun _ => g.Holds m) ?_ fun _ => ?_
  · exact hu.within (fun w hw => ⟨⟨hw.query, hw.name⟩, fun hfirst => nomatch hfirst⟩)
      fun _ w left hw hleft => ⟨hleft.2.query, hw.name⟩
  refine Ends.bind (Q := fun _ => g.Holds l') ?_ fun _ => .pure fun _ => id
  exact ht.within (fun w hw => ⟨⟨hw.query, hw.name⟩, fun _ hlast => nomatch hlast⟩)
    fun _ w left hw hleft => ⟨hleft.query, hw.name⟩

theorem arrives_filter (ht : g.Traced host atEnd t) (hu : g.Speaking host atEnd u) :
    g.Arrives host atEnd l (.node .filter [t, u]) ((g.after t l).filter (g.weigh u)) := by
  refine .of_silently (renderWith_filter atEnd t u) ((ht.clause l).bind ?_)
  refine (Runs.enterPhase _).bind fun _ _ => (hu _).bind fun text htext => ?_
  exact .addFilter htext.weighs

/-- The clause in front, and then the items behind it. -/
theorem ends_items {m : Ledger W} {items : List Tree} {Q : String → Prop} (ht : g.Arrives host atEnd l t m)
    (hitems : g.Runs m l' (do
      return Text.joinWith ", " (← renderAll (ofTrees (renderNode host atEnd) items))) Q)
    (tag : Tag) (phase : Phase) :
    Ends g.faults (g.Enters l) (Clause.items tag phase (ofTrees (renderNode host atEnd) (t :: items)))
      fun body w => Q body ∧ g.Holds l' w := by
  exact Ends.bind ht fun text => .of_and fun _ => (Runs.enterPhase phase).bind fun _ _ => hitems

/-- A change of the query with the text of the items. -/
theorem Arrives.change {steps : WalkM String} {change : String → Query → Query} {m : Ledger W}
    {Q : String → Prop}
    (hsteps : renderWith host atEnd t = silently (do
      let body ← steps
      modifyQuery (change body)))
    (h : Ends g.faults (g.Enters l) steps fun body w => Q body ∧ g.Holds m w)
    (hchange : ∀ body, Q body → ∀ q, g.Written m q → g.Written l' (change body q)) :
    g.Arrives host atEnd l t l' := by
  refine .of_silently hsteps (Ends.bind h fun body => ?_)
  rintro w ⟨hbody, hw⟩
  exact ⟨hchange body hbody _ hw.query, hw.name⟩

section Lawful

include hg

/-- A condition on groups takes the place of the one before it. -/
theorem arrives_having {m : Ledger W} {x : W} (ht : g.Traced host atEnd t)
    (hu : g.Runs (g.after t l) m (renderWith host atEnd u) (g.weighs x)) :
    g.Arrives host atEnd l (.node .having [t, u]) { m with having_ := x } := by
  have hbody : g.Runs (g.after t l) m (do
      return Text.joinWith ", " (← renderAll (ofTrees (renderNode host atEnd) [u]))) (g.weighs x) := by
    have hsteps : (do
        return Text.joinWith ", " (← renderAll (ofTrees (renderNode host atEnd) [u]))) =
        renderWith host atEnd u := by
      have hall : renderAll (ofTrees (renderNode host atEnd) [u]) = (do
          return [← renderWith host atEnd u]) := rfl
      rw [hall, bind_assoc]
      exact bind_pure _
    rw [hsteps]
    exact hu
  refine Arrives.change rfl (ends_items (ht.clause l) hbody .having .having) ?_
  exact fun body hweighs q hq => hq.setHaving (hg.light_append (hg.word (by decide)) hweighs)

include h

theorem arrives_order {items : List Tree} (ht : g.Traced host atEnd t)
    (hitems : ∀ u ∈ items, IsOrdering u) :
    g.Arrives host atEnd l (.node .order (t :: items)) (g.after t l) := by
  have hbody := @runs_items W _ g host atEnd (g.after t l) hg items
    fun u hu => runs_ordering hg h (hitems u hu)
  refine Arrives.change rfl (ends_items (ht.clause l) hbody .order .order) ?_
  exact fun body hword q hq => hq.setOrder ((hg.isClass.word (by decide)).append hword)

theorem arrives_group {items : List Tree} (ht : g.Traced host atEnd t) (hitems : ∀ u ∈ items, IsField u) :
    g.Arrives host atEnd l (.node .group (t :: items)) (g.after t l) := by
  have hbody := @runs_items W _ g host atEnd (g.after t l) hg items
    fun u hu => runs_field hg h (hitems u hu)
  refine Arrives.change rfl (ends_items (ht.clause l) hbody .group .group) ?_
  exact fun body hword q hq => hq.setGroup ((hg.isClass.word (by decide)).append hword)

end Lawful

/-! ### Pages -/

section Pages

include hg

/-- A number is rendered as its digits. -/
theorem runs_count (hu : IsCount u) : g.Runs l l (renderWith host atEnd u) g.Word := by
  obtain ⟨hdigits⟩ := hu
  exact .pure (hg.isClass.word hdigits.lacks.1)

theorem runs_setLimit {count : String} (hcount : g.Word count) :
    g.Runs l l (Clause.setLimit count) fun _ => True :=
  .modifyQuery fun _ hq => hq.setLimit ((hg.isClass.word (by decide)).append hcount)

theorem runs_setOffset {offset : String} (hoffset : g.weighs 0 offset) :
    g.Runs l l (Clause.setOffset offset) fun _ => True :=
  .modifyQuery fun _ hq => hq.setOffset (hg.light_append (hg.word (by decide)) hoffset)

theorem arrives_limit {counts : List Tree} (ht : g.Traced host atEnd t)
    (hlength : counts.length = 1 ∨ counts.length = 2) (hcounts : ∀ u ∈ counts, IsCount u) :
    g.Arrives host atEnd l (.node .limit (t :: counts)) (g.after t l) := by
  rcases hlength with hlength | hlength
  · obtain ⟨u, rfl⟩ := List.length_eq_one_iff.1 hlength
    rw [List.forall_mem_singleton] at hcounts
    have hsteps : renderWith host atEnd (.node .limit [t, u]) = silently (do
        let _ ← renderWith host atEnd t
        enterPhase .limit
        Clause.setLimit (← renderWith host atEnd u)) := rfl
    refine .of_silently hsteps ((ht.clause l).bind ?_)
    exact (Runs.enterPhase _).bind fun _ _ => (runs_count hg hcounts).bind fun _ => runs_setLimit hg
  · obtain ⟨u, v, rfl⟩ := List.length_eq_two.1 hlength
    rw [List.forall_mem_cons, List.forall_mem_singleton] at hcounts
    have hsteps : renderWith host atEnd (.node .limit [t, u, v]) = silently (do
        let _ ← renderWith host atEnd t
        enterPhase .limit
        Clause.setLimit (← renderWith host atEnd v)
        Clause.setOffset (← renderWith host atEnd u)) := rfl
    refine .of_silently hsteps ((ht.clause l).bind ?_)
    refine (Runs.enterPhase _).bind fun _ _ => (runs_count hg hcounts.2).bind fun _ hlimit => ?_
    refine (runs_setLimit hg hlimit).bind fun _ _ => (runs_count hg hcounts.1).bind fun _ hoffset => ?_
    exact runs_setOffset hg (hg.name _ hoffset)

theorem arrives_offset (ht : g.Traced host atEnd t) (hu : IsCount u) :
    g.Arrives host atEnd l (.node .offset [t, u]) (g.after t l) := by
  have hset : g.Runs (g.after t l) (g.after t l) (do
      enterPhase .limit
      Clause.setOffset (← renderWith host atEnd u)) fun _ => True :=
    (Runs.enterPhase _).bind fun _ _ => (runs_count hg hu).bind fun _ hoffset =>
      runs_setOffset hg (hg.name _ hoffset)
  have hsteps : renderWith host atEnd (.node .offset [t, u]) = silently (do
      let _ ← renderWith host atEnd t
      if (← query).limit.isNone then throw (.pagination "Invalid offset (used without limit).")
      enterPhase .limit
      Clause.setOffset (← renderWith host atEnd u)) := rfl
  refine .of_silently hsteps ((ht.clause l).bind (Runs.query.bind fun q _ => ?_))
  dsimp only
  split
  · have hinvalid : CompileError.IsTold (.pagination "Invalid offset (used without limit).") := trivial
    exact (Runs.throw (Q := fun _ => True) hg hinvalid).bind fun _ _ => hset
  · exact hset

theorem arrives_paginate {name : String} (ht : g.Traced host atEnd t) (hname : IsName name) :
    g.Arrives host atEnd l (.node .paginate [t, .leaf .param name]) (g.after t l) := by
  have hsteps : renderWith host atEnd (.node .paginate [t, .leaf .param name]) =
      silently (Clause.paginate (ofTrees (renderNode host atEnd) [t, .leaf .param name])) := rfl
  refine .of_silently hsteps ((ht.clause l).bind (Runs.query.bind fun q _ => ?_))
  split
  · exact .throw hg trivial
  · next size _ =>
    refine (Runs.enterPhase _).bind fun _ _ => ?_
    show g.Runs _ _ (Clause.setPage name size) fun _ => True
    refine (runs_setOffset hg (hg.page name size hname)).bind fun _ _ => ?_
    exact .modifyQuery fun _ hq => hq.setPage _ _

end Pages

end Clauses

/-! ## Alternatives -/

section Alternatives

variable {base : Query} {context : Context} {ls : List (Ledger W)}

/-- A branch is walked from the query before the alternative, in the context before it. -/
theorem ends_branch {t : Tree} (hbase : ∀ w : Walk, w.query = base → w.context = context → g.Enters l w)
    (ht : g.Arrives host atEnd l t l') :
    Ends g.faults (fun w => w.context = context)
      (Alternative.branch base (ofTree (renderNode host atEnd) t)) fun q w =>
        g.Written l' q ∧ w.context = context := by
  intro w hcontext
  have hrun := ht { w with query := base } (hbase _ rfl hcontext)
  have hreset : (modifyQuery fun _ => base).runFrom w = (.ok (), { w with query := base }) := rfl
  rw [Alternative.branch, runFrom_bind_of_ok hreset, runFrom_bind, runFrom_restoring]
  revert hrun
  rcases hleft : (ofTree (renderNode host atEnd) t).render.runFrom { w with query := base } with
    ⟨fault | text, left⟩
  · intro hrun
    rw [renderWith, hleft] at hrun
    exact hrun
  · intro hrun
    rw [renderWith, hleft] at hrun
    exact ⟨hrun.2.query, hcontext⟩

theorem ends_branches {ts : List Tree}
    (hbase : ∀ w : Walk, w.query = base → w.context = context → g.Enters l w)
    (hts : List.Forall₂ (g.Arrives host atEnd l) ts ls) :
    Ends g.faults (fun w => w.context = context)
      (Alternative.branches base (ts.map (ofTree (renderNode host atEnd)))) fun queries w =>
        List.Forall₂ g.Written ls queries ∧ w.context = context := by
  induction hts with
  | nil => exact .pure fun _ hcontext => ⟨.nil, hcontext⟩
  | cons ht _ ih =>
    refine (ends_branch hbase ht).bind fun q => .of_and fun hq => ih.bind fun queries => .pure ?_
    exact fun _ hqueries => ⟨.cons hq hqueries.1, hqueries.2⟩

include hg h

/-- **An alternative unites the ledgers of its branches.** -/
theorem arrives_clauseOr {ts : List Tree} (hts : ∀ t ∈ ts, g.Traced host atEnd t) :
    g.Arrives host atEnd l (.node .clauseOr ts) (g.after (.node .clauseOr ts) l) := by
  have hsteps : renderWith host atEnd (.node .clauseOr ts) =
      silently (Alternative.clause host (ofTrees (renderNode host atEnd) ts)) := rfl
  refine .of_silently hsteps ?_
  rw [after_clauseOr, Alternative.clause, branchesOfAll_ofTrees]
  refine Ends.query_bind fun w hw => ?_
  have hbase (w' : Walk) (hquery : w'.query = w.query) (hcontext : w'.context = w.context) :
      g.Enters l w' := by
    refine ⟨⟨?_, ?_⟩, ?_⟩
    · rw [hquery]
      exact hw.holds.query
    · rw [hcontext]
      exact hw.holds.name
    · rw [hcontext]
      exact hw.alone
  have hbranches := (ends_branches hbase (branches_traced hts l)).imp
    (fun w' (heq : w' = w) => by rw [heq]) fun _ _ => id
  refine hbranches.bind fun queries => ?_
  rintro left ⟨hqueries, hcontext⟩
  have hreset : (modifyQuery fun _ => w.query).runFrom left = (.ok (), { left with query := w.query }) :=
    rfl
  rw [runFrom_bind_of_ok hreset]
  have hstart := (hbase { left with query := w.query } rfl hcontext).holds
  refine Ends.bind (h.activeProfile hg) (fun profile => ?_) _ hstart
  refine Ends.of_and fun hprofile => ?_
  have hmerged := outcome_mergeBranches hg hprofile.mends hw.holds.query hqueries
  cases hresult : Query.mergeBranches profile w.query queries with
  | ok merged =>
    rw [hresult] at hmerged
    have hset : g.Runs l (l.unite (g.branchesAfter ts l)) (WalkM.modifyQuery fun _ => merged)
        fun _ => True := .modifyQuery fun _ _ => hmerged
    exact Ends.imp hset (fun _ => id) fun _ _ hleft => hleft.2
  | error fault =>
    rw [hresult] at hmerged
    exact Ends.throw hmerged

end Alternatives

/-! ## Trees -/

include hg h

/-- A chain, an alternative or an `and` between clauses. -/
theorem traced_link {tag : Tag} (htag : isLink tag = true) {t u : Tree} (ht : g.Traced host atEnd t)
    (hu : g.Traced host atEnd u) : g.Traced host atEnd (.node tag [t, u]) := by
  rcases isLink_iff.1 htag with rfl | rfl | rfl
  · refine .of_clause (by simp [Tree.tag?]) fun l => ?_
    rw [after_from]
    exact arrives_from (hu.clause l) ((ht.clause _).imp (fun _ => id) fun _ _ hw => hw.2)
  · refine ⟨fun l => ?_, fun l => ?_⟩
    · exact arrives_clauseOr hg h (by simp [ht, hu])
    · rw [Tree.orBranches, branchesAfter, branchesAfter, List.append_nil]
      exact branches_traced (by simp [ht, hu]) l
  · exact .of_clause (by simp [Tree.tag?]) fun l => Ends.throw (hg.faults _ (.inr rfl))

/-- **A walk over a well-formed clause leads to the ledger of its tree**, and so does each branch of an
alternative. -/
theorem traced_of_formed {role : Role} {t : Tree} (ht : Formed g.swallows role t)
    (hrole : role ≠ .expression) : g.Traced host atEnd t := by
  have hspeaks {t : Tree} (ht : Formed g.swallows .expression t) (l : Ledger W) :
      g.Runs l l (renderWith host atEnd t) (g.weighs (g.weigh t)) :=
    (speaking_of_formed hg h ht l).imp fun _ htext => htext.weighs
  induction ht with
  | @relation name hname =>
    refine .of_clause (by simp [Tree.leaf, Tree.tag?]) fun l => ?_
    have hsame : g.after (.leaf .relation name) l = l := rfl
    rw [hsame]
    exact .of_silently (renderWith_relation atEnd name)
      (ends_relation hg h (hg.isClass.word hname.lacks))
  | scope _ _ ih =>
    refine .of_clause (by simp [Tree.tag?]) fun l => ?_
    rw [after_first (by decide) (by decide) (by decide) (by decide)]
    exact arrives_scope (ih (by decide))
  | filter _ hcondition ih =>
    refine .of_clause (by simp [Tree.tag?]) fun l => ?_
    rw [after_filter]
    exact arrives_filter (ih (by decide)) (speaking_of_formed hg h hcondition)
  | link htag _ _ ih ih' => exact traced_link hg h htag (ih (by decide)) (ih' (by decide))
  | enclosed _ ih =>
    refine .of_clause (by simp [Tree.tag?]) fun l => ?_
    rw [after_first (by decide) (by decide) (by decide) (by decide), Arrives, renderWith_clausePar]
    exact (ih (by decide)).clause l
  | having _ hcondition ih =>
    refine .of_clause (by simp [Tree.tag?]) fun l => ?_
    rw [after_having, after_expression hcondition rfl]
    exact arrives_having hg (ih (by decide)) (hspeaks hcondition _)
  | limit _ hlength hcounts ih =>
    refine .of_clause (by simp [Tree.tag?]) fun l => ?_
    rw [after_first (by decide) (by decide) (by decide) (by decide)]
    exact arrives_limit hg (ih (by decide)) hlength hcounts
  | offset _ hcount ih =>
    refine .of_clause (by simp [Tree.tag?]) fun l => ?_
    rw [after_first (by decide) (by decide) (by decide) (by decide)]
    exact arrives_offset hg (ih (by decide)) hcount
  | paginate _ hname ih =>
    refine .of_clause (by simp [Tree.tag?]) fun l => ?_
    rw [after_first (by decide) (by decide) (by decide) (by decide)]
    exact arrives_paginate hg (ih (by decide)) hname
  | order _ _ hitems ih =>
    refine .of_clause (by simp [Tree.tag?]) fun l => ?_
    rw [after_first (by decide) (by decide) (by decide) (by decide)]
    exact arrives_order hg h (ih (by decide)) hitems
  | group _ _ hitems ih =>
    refine .of_clause (by simp [Tree.tag?]) fun l => ?_
    rw [after_first (by decide) (by decide) (by decide) (by decide)]
    exact arrives_group hg h (ih (by decide)) hitems
  | @swallowed hswallows t u _ hchain ih ih' =>
    -- what stands behind the `having` is walked like a clause, and renders nothing
    refine .of_clause (by simp [Tree.tag?]) fun l => ?_
    obtain ⟨tag, ts, rfl, hlink⟩ := hchain.tag?_of_hybrid
    have hu : g.Runs (g.after t l) (g.after (.node tag ts) (g.after t l))
        (renderWith host atEnd (.node tag ts)) (g.weighs 0) := by
      refine ((ih' (by decide)).clause _).imp (fun w hw => hw.enters_of_swallows hswallows hg) ?_
      rintro _ w ⟨rfl, hw⟩
      exact ⟨hg.word (by decide), hw⟩
    rw [after_having, weigh_link hlink]
    exact arrives_having hg (ih (by decide)) hu
  | stolen hexpression _ _ ih' =>
    refine .of_clause (by simp [Tree.tag?]) fun l => ?_
    rw [after_from, after_expression hexpression rfl]
    refine arrives_from ((ih' (by decide)).clause l) ?_
    exact Ends.imp (hspeaks hexpression _) (fun _ hw => hw.holds) fun _ _ hw => hw.2
  | onward htag _ _ ih ih' => exact traced_link hg h htag (ih (by decide)) (ih' (by decide))
  | _ => exact absurd rfl hrole

end Gauge

end RelationSql
