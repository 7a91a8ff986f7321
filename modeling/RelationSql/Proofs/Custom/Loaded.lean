import RelationSql.Custom.Document
import RelationSql.Proofs.Json.Ordered

/-!
# What a load leaves in the set

A document of custom queries is refused as a whole, or its domains are visited one after the other. As
long as they can be read, each puts its definitions over what the set holds, in every group that the
document names (`Overlaid`). The first that cannot be read ends the load: the set then holds the
definitions of the domains before it and nothing of the others (`load_effect`).
-/

namespace RelationSql

namespace Dictionary

variable {α : Type} {entries : List (String × α)}

/-- Setting ascending entries puts them over what is there. -/
theorem find?_foldl_insert (h : entries.Pairwise fun a b => a.1 < b.1) (d : Dictionary α)
    (key : String) :
    (entries.foldl (fun d entry => d.insert entry.1 entry.2) d).find? key =
      (findIn key entries).or (d.find? key) := by
  induction entries generalizing d with
  | nil => rfl
  | cons first entries ih =>
    obtain ⟨hfirst, hrest⟩ := List.pairwise_cons.1 h
    rw [List.foldl_cons, ih hrest, find?_insert, findIn]
    split
    · next heq =>
      subst heq
      -- no later entry has the key of this one
      rw [findIn_eq_none hfirst]
      rfl
    · rfl

/-- Ascending entries are found in their dictionary as in their list. -/
theorem find?_ofList (h : entries.Pairwise fun a b => a.1 < b.1) (key : String) :
    (ofList entries).find? key = findIn key entries := by
  rw [ofList, find?_foldl_insert h, find?_empty, Option.or_none]

end Dictionary

/-! ## Objects whose members are read -/

namespace Json

variable {α : Type} {read : Json → Option α} {members : List (String × Json)}

/-- Members that were read stand under their keys, in their order. -/
theorem mapM_members {entries : List (String × α)}
    (h : (members.mapM fun member => (read member.2).map fun value => (member.1, value)) =
      some entries) :
    entries.map Prod.fst = members.map Prod.fst ∧
      ∀ key, Dictionary.findIn key entries = (Dictionary.findIn key members).bind read := by
  induction members generalizing entries with
  | nil =>
    cases h
    exact ⟨rfl, fun _ => rfl⟩
  | cons member members ih =>
    simp only [List.mapM_cons, Option.bind_eq_bind, Option.bind_eq_some_iff, Option.map_eq_some_iff,
      Option.pure_def, Option.some.injEq] at h
    obtain ⟨_, ⟨value, hvalue, rfl⟩, rest, hrest, rfl⟩ := h
    obtain ⟨hkeys, hfind⟩ := ih hrest
    refine ⟨by simp [hkeys], fun key => ?_⟩
    simp only [Dictionary.findIn, hfind]
    split
    · exact hvalue.symm
    · rfl

/-- Members are read exactly if each of them is. -/
theorem isSome_mapM_members :
    (members.mapM fun member => (read member.2).map fun value => (member.1, value)).isSome ↔
      ∀ member ∈ members, (read member.2).isSome := by
  induction members with
  | nil => simp
  | cons member members ih =>
    rw [List.forall_mem_cons, ← ih, List.mapM_cons]
    cases read member.2 <;> simp [Option.isSome_bind]

/-- **The dictionary of an object whose members ascend**: each member is found under its key. -/
theorem find?_of_dictionary? {d : Dictionary α}
    (ascending : members.Pairwise fun a b => a.1 < b.1)
    (h : (Json.object members).dictionary? read = some d) (key : String) :
    d.find? key = (Dictionary.findIn key members).bind read := by
  obtain ⟨entries, hentries, ⟨⟩⟩ := Option.bind_eq_some_iff.1 h
  obtain ⟨hkeys, hfind⟩ := mapM_members hentries
  have hascending : entries.Pairwise fun a b => a.1 < b.1 := by
    rw [← List.pairwise_map (f := Prod.fst) (R := (· < ·)), hkeys, List.pairwise_map]
    exact ascending
  rw [← hfind key]
  exact Dictionary.find?_ofList hascending key

end Json

namespace CustomQueries

/-! ## Definitions that are set -/

/-- **One definition is set, every other one stays.** -/
theorem find?_insert (set : CustomQueries) (custom : CustomQuery)
    (group domain relation g d r : String) :
    (set.insert group domain relation custom).find? g d r =
      if group = g ∧ domain = d ∧ relation = r then some custom else set.find? g d r := by
  have hfallback {α : Type} (d : Dictionary (Dictionary α)) (key other : String) :
      (d.findD key .empty).find? other = (d.find? key).bind (·.find? other) := by
    rw [Dictionary.findD]
    cases d.find? key <;> rfl
  simp only [find?, insert, Option.bind_eq_bind, Dictionary.find?_insert]
  by_cases hgroup : group = g
  · subst hgroup
    by_cases hdomain : domain = d
    · subst hdomain
      simp [Dictionary.find?_insert, hfallback, Option.bind_assoc]
    · simp [Dictionary.find?_insert, hfallback, hdomain, Option.bind_assoc]
  · simp [hgroup]

/-- The definitions of a domain go over the group's. -/
theorem find?_insertAll (relations : Dictionary CustomQuery) (set : CustomQueries)
    (group domain g d r : String) :
    (set.insertAll group domain relations).find? g d r =
      if group = g ∧ domain = d then (relations.find? r).or (set.find? g d r)
      else set.find? g d r := by
  obtain ⟨entries, hascending⟩ := relations
  simp only [insertAll, Dictionary.find?]
  induction entries generalizing set with
  | nil => simp [Dictionary.findIn]
  | cons entry entries ih =>
    obtain ⟨hfirst, hrest⟩ := List.pairwise_cons.1 hascending
    rw [List.foldl_cons, ih _ hrest, find?_insert, Dictionary.findIn]
    by_cases hplace : group = g ∧ domain = d
    · by_cases hr : entry.1 = r
      · subst hr
        simp [hplace, Dictionary.findIn_eq_none hfirst]
      · simp [hplace, hr]
    · have hother : ¬ (group = g ∧ domain = d ∧ entry.1 = r) := fun h => hplace ⟨h.1, h.2.1⟩
      simp [hplace, hother]

/-- The definitions of a domain go over those of every named group, however often it is named. -/
theorem find?_insertGroups (groups : List String) (relations : Dictionary CustomQuery)
    (set : CustomQueries) (domain g d r : String) :
    (set.insertGroups groups domain relations).find? g d r =
      if g ∈ groups ∧ domain = d then (relations.find? r).or (set.find? g d r)
      else set.find? g d r := by
  induction groups generalizing set with
  | nil => simp [insertGroups]
  | cons group groups ih =>
    rw [insertGroups, List.foldl_cons, ← insertGroups, ih, find?_insertAll]
    by_cases hdomain : domain = d
    · by_cases hgroup : group = g
      · -- a group that is named again gets the same definitions again
        by_cases hmem : g ∈ groups <;> simp [hdomain, hgroup, hmem, ← Option.or_assoc]
      · simp [hdomain, hgroup, Ne.symm hgroup]
    · simp [hdomain]

/-! ## Domains of a document -/

/-- What the listed domains say about a relation. -/
def givenIn (domains : List (String × Json)) (domain relation : String) : Option Json :=
  (Dictionary.findIn domain domains).bind fun definitions =>
    definitions.object?.bind (Dictionary.findIn relation)

/-- `after` is `set` with the definitions of the listed domains over it, in the named groups: a relation
that the domains define has that definition there, any other one is what it was. -/
def Overlaid (groups : List String) (domains : List (String × Json)) (set after : CustomQueries) :
    Prop :=
  ∀ group domain relation, after.find? group domain relation =
    match givenIn domains domain relation with
    | some definition =>
      if group ∈ groups then CustomQuery.ofJson? definition else set.find? group domain relation
    | none => set.find? group domain relation

/-- The domain is known, and its value is an object of definitions that can all be read. -/
def Loadable (known : String → Bool) (member : String × Json) : Prop :=
  known member.1 ∧ ∃ relations, member.2 = .object relations ∧
    ∀ relation ∈ relations, (CustomQuery.ofJson? relation.2).isSome

/-- The fault at a domain. -/
def domainFault (known : String → Bool) (domain : String) : DocumentError :=
  if known domain then .badDefinitions domain else .unknownDomain domain

variable {known : String → Bool} {groups : List String} {member : String × Json}
  {domains : List (String × Json)} {set after : CustomQueries}

/-- Definitions are read exactly if they are an object of which each member is a definition. -/
theorem isSome_definitions {definitions : Json} :
    (definitions.dictionary? CustomQuery.ofJson?).isSome ↔
      ∃ relations, definitions = .object relations ∧
        ∀ relation ∈ relations, (CustomQuery.ofJson? relation.2).isSome := by
  cases definitions with
  | object relations =>
    have hread : ((Json.object relations).dictionary? CustomQuery.ofJson?).isSome ↔
        (relations.mapM fun relation =>
          (CustomQuery.ofJson? relation.2).map fun value => (relation.1, value)).isSome := by
      simp [Json.dictionary?, Json.object?, Option.isSome_bind]
    rw [hread, Json.isSome_mapM_members]
    constructor
    · intro h
      exact ⟨relations, rfl, h⟩
    · rintro ⟨_, ⟨⟩, h⟩
      exact h
  | _ => simp [Json.dictionary?, Json.object?]

/-- One domain that is read is put over the set. -/
theorem overlaid_insertGroups {domain : String} {definitions : Json} {read : Dictionary CustomQuery}
    (hordered : definitions.Ordered)
    (hread : definitions.dictionary? CustomQuery.ofJson? = some read) :
    Overlaid groups [(domain, definitions)] set (set.insertGroups groups domain read) := by
  obtain ⟨relations, rfl, hall⟩ := isSome_definitions.1 (Option.isSome_of_eq_some hread)
  intro g d r
  rw [find?_insertGroups, Json.find?_of_dictionary? (hordered.members rfl) hread]
  by_cases hdomain : domain = d
  · cases hr : Dictionary.findIn r relations with
    | none => simp [givenIn, Dictionary.findIn, Json.object?, hdomain, hr]
    | some definition =>
      have hmem := Dictionary.mem_of_findIn hr
      obtain ⟨custom, hcustom⟩ := Option.isSome_iff_exists.1 (hall _ hmem)
      by_cases hg : g ∈ groups <;>
        simp [givenIn, Dictionary.findIn, Json.object?, hdomain, hr, hg, hcustom]
  · simp [givenIn, Dictionary.findIn, hdomain]

/-- Domains that are put over a set one after the other are put over it together. -/
theorem Overlaid.cons {between : CustomQueries} (habove : ∀ other ∈ domains, member.1 < other.1)
    (hfirst : Overlaid groups [member] set between) (hrest : Overlaid groups domains between after) :
    Overlaid groups (member :: domains) set after := by
  intro g d r
  rw [hrest, hfirst]
  by_cases hd : member.1 = d
  · -- none of the others is this domain, so its definitions stay
    have hrest : Dictionary.findIn d domains = none := Dictionary.findIn_eq_none (hd ▸ habove)
    simp [givenIn, Dictionary.findIn, hd, hrest]
  · simp [givenIn, Dictionary.findIn, hd]

/-! ## The visit of the domains -/

/-- A domain that can be read is set in every group, and the visit goes on. -/
theorem Loadable.loadDomains_cons (h : Loadable known member) :
    ∃ read, member.2.dictionary? CustomQuery.ofJson? = some read ∧
      ∀ groups domains set, loadDomains groups known (member :: domains) set =
        loadDomains groups known domains (set.insertGroups groups member.1 read) := by
  obtain ⟨hknown, hdefinitions⟩ := h
  obtain ⟨read, hread⟩ := Option.isSome_iff_exists.1 (isSome_definitions.2 hdefinitions)
  refine ⟨read, hread, ?_⟩
  intro groups domains set
  simp only [loadDomains, hread]
  rw [if_pos hknown]

/-- **Domains that can all be read are put over the set.** -/
theorem loadDomains_of_loadable (groups : List String) (set : CustomQueries)
    (ascending : domains.Pairwise fun a b => a.1 < b.1)
    (inner : ∀ member ∈ domains, member.2.Ordered) (h : ∀ member ∈ domains, Loadable known member) :
    ∃ after, loadDomains groups known domains set = (.ok (), after) ∧
      Overlaid groups domains set after := by
  induction domains generalizing set with
  | nil => exact ⟨set, rfl, fun _ _ _ => rfl⟩
  | cons member domains ih =>
    rw [List.forall_mem_cons] at h inner
    obtain ⟨habove, hascending⟩ := List.pairwise_cons.1 ascending
    obtain ⟨read, hread, hstep⟩ := h.1.loadDomains_cons
    obtain ⟨after, hload, hafter⟩ :=
      ih (set.insertGroups groups member.1 read) hascending inner.2 h.2
    refine ⟨after, ?_, ?_⟩
    · rw [hstep, hload]
    · exact .cons habove (overlaid_insertGroups inner.1 hread) hafter

/-- Behind domains that can all be read the visit goes on. -/
theorem loadDomains_append {rest : List (String × Json)}
    (h : ∀ member ∈ domains, Loadable known member) :
    loadDomains groups known (domains ++ rest) set =
      loadDomains groups known rest (loadDomains groups known domains set).2 := by
  induction domains generalizing set with
  | nil => rfl
  | cons member domains ih =>
    rw [List.forall_mem_cons] at h
    obtain ⟨read, -, hstep⟩ := h.1.loadDomains_cons
    rw [List.cons_append, hstep, hstep]
    exact ih h.2

/-- At a domain that cannot be read the visit ends. -/
theorem loadDomains_of_not_loadable (h : ¬ Loadable known member) :
    loadDomains groups known (member :: domains) set =
      (.error (domainFault known member.1), set) := by
  obtain ⟨domain, definitions⟩ := member
  rw [loadDomains, domainFault]
  by_cases hknown : known domain
  · have hread : definitions.dictionary? CustomQuery.ofJson? = none := by
      rw [← Option.not_isSome_iff_eq_none, isSome_definitions]
      exact fun hdefinitions => h ⟨hknown, hdefinitions⟩
    simp [hknown, hread]
  · simp [hknown]

/-- Either all domains can be read, or there is a first one that cannot. -/
theorem all_loadable_or_first (known : String → Bool) (domains : List (String × Json)) :
    (∀ member ∈ domains, Loadable known member) ∨
      ∃ earlier member later, domains = earlier ++ member :: later ∧
        (∀ member ∈ earlier, Loadable known member) ∧ ¬ Loadable known member := by
  induction domains with
  | nil => exact .inl (by simp)
  | cons first domains ih =>
    by_cases hfirst : Loadable known first
    · rcases ih with hall | ⟨earlier, member, later, rfl, hearlier, hmember⟩
      · exact .inl (List.forall_mem_cons.2 ⟨hfirst, hall⟩)
      · have hearlier' := List.forall_mem_cons.2 ⟨hfirst, hearlier⟩
        exact .inr ⟨first :: earlier, member, later, rfl, hearlier', hmember⟩
    · exact .inr ⟨[], first, domains, rfl, by simp, hfirst⟩

/-! ## The groups of a document -/

/-- The members name these groups: one text under `group`, or a list of texts under `groups`. -/
inductive NamesGroups (members : List (String × Json)) : List String → Prop where
  | one {group : String} (named : Dictionary.findIn "group" members = some (.string group))
      (noList : Dictionary.findIn "groups" members = none) : NamesGroups members [group]
  | list {groups : List String} (noOne : Dictionary.findIn "group" members = none)
      (named : Dictionary.findIn "groups" members = some (.array (groups.map .string)))
      (nonempty : groups ≠ []) : NamesGroups members groups

/-- A list of names is read exactly if all its items are texts. -/
theorem mapM_names {read : Json → Except DocumentError String} {items : List Json}
    (hread : ∀ item name, read item = .ok name ↔ item = .string name) :
    items.mapM read = .ok groups ↔ items = groups.map .string := by
  constructor
  · intro h
    induction items generalizing groups with
    | nil =>
      cases h
      rfl
    | cons item items ih =>
      rw [List.mapM_cons] at h
      cases hitem : read item with
      | error fault =>
        rw [hitem] at h
        cases h
      | ok name =>
        cases hitems : items.mapM read with
        | error fault =>
          rw [hitem, hitems] at h
          cases h
        | ok names =>
          rw [hitem, hitems] at h
          cases h
          rw [List.map_cons, ← ih hitems, (hread item name).1 hitem]
  · rintro rfl
    induction groups with
    | nil => rfl
    | cons group groups ih =>
      rw [List.map_cons, List.mapM_cons, (hread _ group).2 rfl, ih]
      rfl

/-- **The groups are read exactly if the document names them.** -/
theorem documentGroups_eq_ok_iff {members : List (String × Json)} :
    documentGroups members = .ok groups ↔ NamesGroups members groups := by
  constructor
  · intro h
    rw [documentGroups.eq_def] at h
    split at h
    · next group hone hlist =>
      cases h
      exact .one hone hlist
    · next item items hone hlist =>
      have hitems : item :: items = groups.map .string := by
        refine (mapM_names ?_).1 h
        intro item name
        cases item <;> simp
      refine .list hone (hitems ▸ hlist) ?_
      rintro rfl
      cases hitems
    all_goals cases h
  · intro h
    cases h with
    | one named noList => simp [documentGroups, named, noList]
    | list noOne named nonempty =>
      obtain ⟨group, groups, rfl⟩ := List.exists_cons_of_ne_nil nonempty
      simp only [documentGroups, noOne, named, List.map_cons]
      refine (mapM_names ?_).2 rfl
      intro item name
      cases item <;> simp

/-! ## The domains before one -/

/-- Does the member stand before the domain, in the order of the bytes of their keys? -/
def Before (domain : String) (member : String × Json) : Bool :=
  Dictionary.keyBytes member.1 < Dictionary.keyBytes domain

/-- What stands before one of several ascending members is what is listed before it. -/
theorem filter_before {earlier later : List (String × Json)} {member : String × Json}
    (ascending : (earlier ++ member :: later).Pairwise fun a b => a.1 < b.1) :
    (earlier ++ member :: later).filter (Before member.1) = earlier := by
  obtain ⟨-, hlater, habove⟩ := List.pairwise_append.1 ascending
  have hearlier : ∀ other ∈ earlier, Before member.1 other := by
    intro other hmem
    simp only [Before, Dictionary.keyBytes_lt_iff, decide_eq_true_eq]
    exact habove other hmem member List.mem_cons_self
  have hnone : ∀ other ∈ member :: later, ¬ Before member.1 other := by
    intro other hmem
    simp only [Before, Dictionary.keyBytes_lt_iff, decide_eq_true_eq]
    rcases List.mem_cons.1 hmem with rfl | hmem
    · exact String.lt_irrefl _
    · exact Std.not_gt_of_lt ((List.pairwise_cons.1 hlater).1 other hmem)
  rw [List.filter_append, List.filter_eq_self.2 hearlier, List.filter_eq_nil_iff.2 hnone,
    List.append_nil]

/-- The members of a document without the domain and those behind it. -/
def shortenedTo (domain : String) (members : List (String × Json)) : List (String × Json) :=
  members.filter fun member =>
    member.1 == "group" || member.1 == "groups" || Before domain member

/-- A key that is kept is found as before. -/
theorem findIn_filter {α : Type} {entries : List (String × α)} {keep : String × α → Bool}
    {key : String} (h : ∀ value, keep (key, value)) :
    Dictionary.findIn key (entries.filter keep) = Dictionary.findIn key entries := by
  induction entries with
  | nil => rfl
  | cons entry entries ih =>
    obtain ⟨k, value⟩ := entry
    by_cases hk : k = key
    · subst hk
      simp [h, Dictionary.findIn]
    · by_cases hkeep : keep (k, value) <;> simp [hkeep, Dictionary.findIn, hk, ih]

/-- A document that was shortened names the same groups. -/
theorem documentGroups_shortenedTo (domain : String) (members : List (String × Json)) :
    documentGroups (shortenedTo domain members) = documentGroups members := by
  have hone : Dictionary.findIn "group" (shortenedTo domain members) =
      Dictionary.findIn "group" members := findIn_filter (by simp)
  have hlist : Dictionary.findIn "groups" (shortenedTo domain members) =
      Dictionary.findIn "groups" members := findIn_filter (by simp)
  rw [documentGroups, documentGroups, hone, hlist]

/-- A document that was shortened has the domains before the one where it was cut. -/
theorem documentDomains_shortenedTo (domain : String) (members : List (String × Json)) :
    documentDomains (shortenedTo domain members) =
      (documentDomains members).filter (Before domain) := by
  rw [documentDomains, shortenedTo, documentDomains, List.filter_filter, List.filter_filter]
  apply List.filter_congr
  intro member _
  simp only [bne]
  cases member.1 == "group" <;> cases member.1 == "groups" <;> simp

/-! ## A load -/

/-- Why a document is refused before any domain of it is visited. -/
inductive Refusal (document : String) : DocumentError → Prop where
  | notJson (unread : Json.parse? document = none) : Refusal document .notJson
  | notObject {value : Json} (read : Json.parse? document = some value)
      (noObject : value.object? = none) : Refusal document .notObject
  | badGroups {members : List (String × Json)} {fault : DocumentError}
      (read : Json.parse? document = some (.object members))
      (unnamed : ∀ groups, ¬ NamesGroups members groups)
      (reason : documentGroups members = .error fault) : Refusal document fault

/-- What a load tells, and what it makes of a set. -/
inductive LoadEffect (document : String) (known : String → Bool) (set : CustomQueries) :
    Except CompileError Unit × CustomQueries → Prop where
  /-- The document is refused. The set is what it was. -/
  | refused {fault : DocumentError} (refusal : Refusal document fault) :
      LoadEffect document known set (.error (.configuration fault.message), set)
  /-- Every domain can be read. All definitions are put over the set. -/
  | loaded {members : List (String × Json)} {groups : List String} {after : CustomQueries}
      (read : Json.parse? document = some (.object members)) (named : NamesGroups members groups)
      (loadable : ∀ member ∈ documentDomains members, Loadable known member)
      (overlaid : Overlaid groups (documentDomains members) set after) :
      LoadEffect document known set (.ok (), after)
  /-- A domain cannot be read, but each one before it can. Their definitions are put over the set and
  nothing else: the document without that domain and those behind it loads, and leaves the same set. -/
  | stopped {members : List (String × Json)} {groups : List String} {after : CustomQueries}
      {domain : String} {definitions : Json}
      (read : Json.parse? document = some (.object members)) (named : NamesGroups members groups)
      (visited : (domain, definitions) ∈ documentDomains members)
      (failed : ¬ Loadable known (domain, definitions))
      (loadable : ∀ member ∈ (documentDomains members).filter (Before domain), Loadable known member)
      (overlaid : Overlaid groups ((documentDomains members).filter (Before domain)) set after)
      (shortened : set.loadJson (.object (shortenedTo domain members)) known = (.ok (), after)) :
      LoadEffect document known set (.error (.configuration (domainFault known domain).message), after)

/-- A document that names its groups is loaded, or stopped at a domain. -/
theorem loadEffect_of_groups {document : String} {members : List (String × Json)}
    (hread : Json.parse? document = some (.object members))
    (hgroups : documentGroups members = .ok groups) :
    LoadEffect document known set (set.load document known) := by
  simp only [load, hread, loadJson, hgroups]
  have hnamed := documentGroups_eq_ok_iff.1 hgroups
  have hordered := Json.ordered_of_parse? hread
  have ascending : (documentDomains members).Pairwise fun a b => a.1 < b.1 :=
    (hordered.members rfl).filter _
  have inner : ∀ member ∈ documentDomains members, member.2.Ordered := by
    intro member hmem
    exact hordered.inner rfl member (List.mem_filter.1 hmem).1
  rcases all_loadable_or_first known (documentDomains members) with
    hall | ⟨earlier, ⟨domain, definitions⟩, later, hsplit, hearlier, hfailed⟩
  · obtain ⟨after, hload, hafter⟩ :=
      loadDomains_of_loadable groups set ascending inner hall
    rw [hload]
    exact .loaded hread hnamed hall hafter
  · -- what was visited before the failure is what stands before the domain
    have hbefore : (documentDomains members).filter (Before domain) = earlier := by
      rw [hsplit] at ascending ⊢
      exact filter_before ascending
    rw [hsplit] at ascending inner
    obtain ⟨after, hload, hafter⟩ :=
      loadDomains_of_loadable groups set (List.pairwise_append.1 ascending).1
        (fun member hmem => inner member (List.mem_append_left _ hmem)) hearlier
    rw [hsplit, loadDomains_append hearlier, hload, loadDomains_of_not_loadable hfailed]
    refine .stopped hread hnamed (hsplit ▸ by simp) hfailed (hbefore ▸ hearlier) (hbefore ▸ hafter) ?_
    rw [loadJson, documentGroups_shortenedTo, hgroups, documentDomains_shortenedTo, hbefore]
    exact hload

/-- **A load refuses the document and leaves the set, puts all definitions over it, or stops at the
first domain that cannot be read**, with those of the domains before it in the set. -/
theorem load_effect (document : String) (known : String → Bool) (set : CustomQueries) :
    LoadEffect document known set (set.load document known) := by
  cases hread : Json.parse? document with
  | none =>
    simp only [load, hread]
    exact .refused (.notJson hread)
  | some value =>
    cases hvalue : value.object? with
    | none =>
      have hload : set.loadJson value known = (.error .notObject, set) := by
        cases value with
        | object members => cases hvalue
        | _ => rfl
      simp only [load, hread, hload]
      exact .refused (.notObject hread hvalue)
    | some members =>
      obtain rfl : value = .object members := by
        cases value <;> cases hvalue
        rfl
      cases hgroups : documentGroups members with
      | error fault =>
        have hunnamed : ∀ groups, ¬ NamesGroups members groups := by
          intro groups hnamed
          rw [documentGroups_eq_ok_iff.2 hnamed] at hgroups
          cases hgroups
        simp only [load, hread, loadJson, hgroups]
        exact .refused (.badGroups hread hunnamed hgroups)
      | ok groups => exact loadEffect_of_groups hread hgroups

/-- The value of `b` is no object: the definition of `a` is in every group, that of `z` in none. -/
example :
    let members : List (String × Json) :=
      [("a", .object [("r", .object [("order", .string "1")])]), ("b", .integer 3),
        ("groups", .array [.string "g", .string "h", .string "g"]), ("z", .object [("r", .object [])])]
    let after := (empty.loadJson (.object members) fun _ => true).2
    (after.find? "h" "a" "r").bind CustomQuery.order = some "1" ∧ after.find? "h" "z" "r" = none := by
  decide

end CustomQueries

end RelationSql
