import RelationSql.Proofs.Walk.Ledgers

/-!
# Compiled queries and their ledgers

The hooks of a domain may call each other through the host, so what they write is weighed by induction on
how deep they may call (`Catalog.Weighed.host`). With the hooks before and after a walk and the default
order, a compile ends in a query that is written by the ledger of its source, or in an error that is
allowed (`Catalog.Weighed.compile`).
-/

namespace RelationSql

open Grammar WalkM RelationSql.Part RelationSql.Fragment

variable {W : Type} [AddCommMonoid W]

/-- Hooks that keep every ledger, if the host they are given does. -/
structure Domain.Weighed (g : Gauge W) (domain : Domain) : Prop where
  profile : g.Fits domain.profile
  relation : ∀ host, host.Weighed g → ∀ l kind name, g.Word name →
    g.Runs l l (domain.relation host kind name) fun _ => True
  field : ∀ host, host.Weighed g → ∀ l name, g.Word name →
    g.Runs l l (domain.field host name) fun text => ∀ t ∈ text, g.Spells t
  function : ∀ host, host.Weighed g → ∀ l x leads argument method, g.Speaks x leads argument →
    IsName method →
      g.Runs l l (domain.function host argument method) fun text => ∀ t ∈ text, g.Speaks x leads t
  equal : ∀ host, host.Weighed g → ∀ l left right, Formed g.swallows .expression left →
    Formed g.swallows .expression right → g.Runs l l (domain.equal host left right) fun text =>
      ∀ t ∈ text, g.Speaks (g.weigh left + g.weigh right) left.leads t
  before : ∀ host, host.Weighed g → ∀ l, g.Runs l l (domain.before host) fun _ => True
  after : ∀ host, host.Weighed g → ∀ l, g.Runs l l (domain.after host) fun _ => True

/-- A catalog of such domains, with a dialect and the custom queries of the gauge. -/
structure Catalog.Weighed (g : Gauge W) (catalog : Catalog) : Prop where
  dialect : g.dialects catalog.dialect
  customs : catalog.customQueries = g.customs
  domains : ∀ name domain, catalog.domains.find? name = some domain → domain.Weighed g

variable {g : Gauge W} {l : Ledger W}

open Gauge

/-! ## The default order -/

/-- The items of the order that a source ends with. -/
theorem Grammar.FormedSource.items_of_orderOnly? {swallows : Prop} {tree clause : Tree}
    (htree : FormedSource swallows tree) (hclause : orderOnly? tree = some clause) :
    ∃ items, clause = .node .order (.node .void [] :: items) ∧ ∀ u ∈ items, IsOrdering u := by
  cases htree with
  | empty => cases hclause
  | @clause t ht =>
    rw [orderOnly?] at hclause
    split at hclause
    · next inner items hlast =>
      cases hclause
      obtain rfl : t = .node .order (inner :: items) := Option.some.inj hlast
      cases ht with
      | order _ _ hitems => exact ⟨items, rfl, hitems⟩
      | link htag => cases htag
    · cases hclause

section DefaultOrder

variable {host : Host} (hg : g.Lawful) (h : host.Weighed g)
include hg h

/-- An order behind nothing. -/
theorem Gauge.runs_order_void {items : List Tree} (hitems : ∀ u ∈ items, IsOrdering u) (atEnd : WalkM Unit) :
    g.Runs l l (renderWith host atEnd (.node .order (.node .void [] :: items))) fun _ => True := by
  have hbody : g.Runs l l
      (Clause.items .order .order (ofTrees (renderNode host atEnd) (.node .void [] :: items))) g.Word := by
    have hvoid : g.Runs l l (pure "" : WalkM String) fun _ => True := .pure trivial
    refine hvoid.bind fun _ _ => (Runs.enterPhase _).bind fun _ _ => ?_
    exact runs_items hg fun u hu => runs_ordering hg h (hitems u hu)
  have hset (body : String) (hword : g.Word body) :
      g.Runs l l (modifyQuery fun q => { q with order := some (" ORDER BY " ++ body) }) fun _ => True :=
    .modifyQuery fun _ hq => hq.setOrder ((hg.isClass.word (by decide)).append hword)
  exact (hbody.bind hset).bind fun _ _ => .pure trivial

/-- The default order leaves every ledger as it is. -/
theorem Gauge.runs_defaultOrder : g.Runs l l (defaultOrder host) fun _ => True := by
  refine Runs.query.bind fun q _ => ?_
  split
  · refine (h.default hg _).bind fun order _ => ?_
    split
    · unfold renderOrder
      split
      · exact .throw hg trivial
      · next tree hparse =>
        split
        · next clause hclause =>
          obtain ⟨items, rfl, hitems⟩ := (formed_of_parse hparse).items_of_orderOnly? hclause
          exact (runs_order_void hg h hitems _).bind fun _ _ => .pure trivial
        · exact .pure trivial
    · exact .pure trivial
  · exact .pure trivial

/-- The root of a source: its clause, and then the default order. -/
theorem Gauge.ends_root {t : Tree} {l' : Ledger W}
    (ht : g.Arrives host (defaultOrder host) l t l') :
    Ends g.faults (g.Enters l) (render host (.node .query [t])) fun _ => g.Holds l' := by
  rw [render, renderWith_query]
  exact (ht.bind (runs_defaultOrder hg h)).bind fun _ => .pure fun _ => id

end DefaultOrder

/-! ## Hooks that call each other -/

namespace Catalog.Weighed

variable {catalog : Catalog} (hg : g.Lawful) (h : catalog.Weighed g)
include hg h

theorem domain_bind {α : Type} {Q : α → Prop} {next : Domain → WalkM α} (name : String)
    (hnext : ∀ domain, domain.Weighed g → g.Runs l l (next domain) Q) :
    g.Runs l l (catalog.domain name >>= next) Q := by
  unfold Catalog.domain
  split
  · next domain hfound => exact hnext domain (h.domains _ _ hfound)
  · have hunknown : g.Runs l l (throw (.unknownDomain name) : WalkM Domain) fun _ => False :=
      .throw hg trivial
    exact hunknown.bind fun _ hfalse => hfalse.elim

theorem activeDomain_bind {α : Type} {Q : α → Prop} {next : Domain → WalkM α}
    (hnext : ∀ domain, domain.Weighed g → g.Runs l l (next domain) Q) :
    g.Runs l l (catalog.activeDomain >>= next) Q :=
  fun w hw => h.domain_bind hg w.domain hnext w hw

/-- **However deep hooks call each other, they keep the ledger if each of them does.** -/
theorem host : ∀ depth, (catalog.host g.options depth).Weighed g
  | 0 =>
    { options := rfl
      customs := h.customs
      profile := fun name profile hprofile => by
        obtain ⟨domain, hfound, rfl⟩ := Option.map_eq_some_iff.1 hprofile
        exact (h.domains _ _ hfound).profile
      relation := fun _ _ _ _ _ => .throw hg trivial
      field := fun _ _ _ => .throw hg trivial
      function := fun _ _ _ _ _ _ _ => .throw hg trivial
      equal := fun _ _ _ _ _ => .throw hg trivial
      process := fun _ _ _ => .throw hg trivial }
  | depth + 1 =>
    have ih := host depth
    { options := rfl
      customs := h.customs
      profile := fun name profile hprofile => by
        obtain ⟨domain, hfound, rfl⟩ := Option.map_eq_some_iff.1 hprofile
        exact (h.domains _ _ hfound).profile
      relation := fun l name kind relation hword =>
        h.domain_bind hg name fun domain hdomain => hdomain.relation _ ih l kind relation hword
      field := fun l name hword =>
        h.activeDomain_bind hg fun domain hdomain => hdomain.field _ ih l name hword
      function := fun l x leads argument method hargument hmethod =>
        h.activeDomain_bind hg fun domain hdomain =>
          hdomain.function _ ih l x leads argument method hargument hmethod
      equal := fun l left right hleft hright =>
        h.activeDomain_bind hg fun domain hdomain => hdomain.equal _ ih l left right hleft hright
      process := fun l _ ht => speaking_of_formed hg ih ht l }

/-! ## Compiling -/

/-- A walk over a well-formed source leads to its ledger. -/
theorem ends_walk {tree : Tree} (htree : FormedSource g.swallows tree) :
    Ends g.faults (g.Holds 0) (catalog.walk g.options tree) fun _ => g.Holds (g.after tree 0) := by
  have hhost := h.host hg maxDepth
  have hstart (w : Walk) (hw : g.Holds 0 w) : g.Enters 0 w := ⟨hw, fun _ _ _ => rfl⟩
  have hlimit (l : Ledger W) : g.Runs l l (modifyQuery (applyLimit g.options.limit)) fun _ => True := by
    refine .modifyQuery fun q hq => ?_
    unfold applyLimit
    split
    · exact hq.setLimit ((hg.isClass.word (by decide)).append (hg.isClass.number _))
    · exact hq
  have hrender (w : Walk) (hw : g.Holds 0 w) : Ends g.faults (g.Holds 0)
      (render (catalog.host g.options maxDepth) (wholeTree w.query.mainTable tree))
      fun _ => g.Holds (g.after tree 0) := by
    cases htree with
    | empty =>
      have hmain := hw.query.names.mainTable
      refine (ends_root hg hhost ?_).imp hstart fun _ _ => id
      exact .of_silently (renderWith_relation _ _) (ends_relation hg hhost hmain)
    | @clause t ht =>
      have hafter : g.after (.node .query [t]) 0 = g.after t 0 :=
        Scale.after_first (by decide) (by decide) (by decide) (by decide) t [] 0
      rw [hafter]
      exact (ends_root hg hhost ((traced_of_formed hg hhost ht (by decide)).clause 0)).imp hstart
        fun _ _ => id
  have hbefore : g.Runs 0 0 (do (← catalog.activeDomain).before (catalog.host g.options maxDepth))
      fun _ => True :=
    h.activeDomain_bind hg fun domain hdomain => hdomain.before _ hhost 0
  have hafter : g.Runs (g.after tree 0) (g.after tree 0) (do
      modifyQuery (applyLimit g.options.limit)
      (← catalog.activeDomain).after (catalog.host g.options maxDepth)) fun _ => True :=
    (hlimit _).bind fun _ _ => h.activeDomain_bind hg fun domain hdomain => hdomain.after _ hhost _
  have hwalk : catalog.walk g.options tree = (do
      (← catalog.activeDomain).before (catalog.host g.options maxDepth)) >>= fun _ => (do
      let q ← WalkM.query
      let _ ← render (catalog.host g.options maxDepth) (wholeTree q.mainTable tree)
      modifyQuery (applyLimit g.options.limit)
      (← catalog.activeDomain).after (catalog.host g.options maxDepth)) := by
    rw [walk, bind_assoc]
  rw [hwalk]
  refine Ends.bind hbefore fun _ => .of_and fun _ => Ends.query_bind fun w hw => ?_
  refine ((hrender w hw).of_eq hw).bind fun _ => ?_
  exact Ends.imp hafter (fun _ => id) fun _ _ hleft => hleft.2

/-- **A compiled query is written by the ledger of its source**, and a compile that fails ends in an error
that is allowed. -/
theorem compile {source : String} {tree : Tree} (hparse : parse source = .ok tree)
    (htree : FormedSource g.swallows tree) (name : String) :
    Outcome g.faults (g.Written (g.after tree 0)) (catalog.compile g.options name source) := by
  unfold Catalog.compile
  cases hfound : catalog.domains.find? name with
  | none => exact hg.faults _ trivial
  | some start =>
    have hmain := (h.domains name start hfound).profile.mainTable
    have hholds : g.Holds 0 (catalog.start g.options start) := by
      refine ⟨?_, fun _ hnone => nomatch hnone⟩
      exact written_new hg h.dialect hmain _
    have hwalk := h.ends_walk hg htree _ hholds
    rw [hparse]
    dsimp only
    revert hwalk
    rcases (catalog.walk g.options tree).runFrom (catalog.start g.options start) with ⟨fault | _, left⟩
    · intro hwalk
      cases fault <;> first | exact hwalk | exact hg.faults _ trivial
    · exact fun hwalk => hwalk.query

end Catalog.Weighed

end RelationSql
