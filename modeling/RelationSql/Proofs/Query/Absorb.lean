import RelationSql.Proofs.Walk.Merge
import RelationSql.Proofs.Walk.Mirrors

/-!
# Merging branches that differ in their literals

The branches of an alternative are mended and merged by their tables, aliases and keys, never by what
their conditions hold. Alike branches are merged into alike queries, or both merges are refused with
the same error (`mergeBranches_alike`).
-/

namespace RelationSql

open RelationSql.Fragment (Plain)

/-! ## Lists and dictionaries of names -/

namespace Query

variable {P : String → String → Prop} {q q' other other' base base' : Query}
  {queries queries' : List Query}

theorem all_absorbLists {Q : String → Prop} {known others : Dictionary (List String)}
    (hknown : known.All fun names => ∀ name ∈ names, Q name)
    (hothers : others.All fun names => ∀ name ∈ names, Q name) :
    (absorbLists known others).All fun names => ∀ name ∈ names, Q name := by
  refine hknown.foldl fun d entry hentry hd => hd.alter _ fun old hold name hname => ?_
  rcases mem_addMissing_iff.1 hname with hname | hname
  · cases old with
    | none => cases hname
    | some names => exact hold names rfl name hname
  · exact hothers entry hentry name hname

theorem all_absorbNew {Q : String → Prop} {known others : Dictionary String} (hknown : known.All Q)
    (hothers : others.All Q) : (absorbNew known others).All Q :=
  hknown.foldl fun _ entry hentry hd => hd.insertNew _ (hothers entry hentry)

/-! ## Absorbing -/

theorem Over.absorb {excluded : List Char} {T : String → Prop} (h : q.Over excluded T)
    (hother : other.Over excluded T) : (q.absorb other).Over excluded T := by
  have hneeded : (q.absorb other).neededJoins.All fun names => names.All (Fragment.Lacks excluded) := by
    refine h.neededJoins.foldl fun d entry hentry hd => hd.alter _ fun old hold => ?_
    refine all_absorbNew ?_ (hother.neededJoins entry hentry)
    cases old with
    | none => exact .empty
    | some names => exact hold names rfl
  exact { h with
    aliases := all_absorbLists h.aliases hother.aliases
    joins := all_absorbLists h.joins hother.joins
    neededJoins := hneeded
    attributes := all_absorbNew h.attributes hother.attributes }

theorem Settled.absorb (h : q.Settled P) (hother : other.Settled P) : (q.absorb other).Settled P :=
  (h.over.absorb hother.over).settled h.placeholder

theorem Alike.absorb (h : q.Alike P q') (hother : other.Alike P other') :
    Alike P (q.absorb other) (q'.absorb other') := by
  have hsettled := h.settled.absorb hother.settled
  cases h with
  | intro hfilters hhaving =>
    cases hother with
    | intro => exact .intro (q := q.absorb other) hfilters hhaving hsettled

theorem Alike.foldl_absorb (h : q.Alike P q') (hqueries : List.Forall₂ (Alike P) queries queries') :
    Alike P (queries.foldl Query.absorb q) (queries'.foldl Query.absorb q') := by
  induction hqueries generalizing q q' with
  | nil => exact h
  | cons hother _ ih => exact ih (h.absorb hother)

/-! ## Mending -/

theorem Alike.tables_eq (h : q.Alike P q') : q'.tables = q.tables :=
  h.read Query.tables fun _ _ => rfl

theorem unionTables_alike (h : List.Forall₂ (Alike P) queries queries') :
    unionTables queries' = unionTables queries := by
  have htables : queries'.flatMap Query.tables = queries.flatMap Query.tables := by
    induction h with
    | nil => rfl
    | cons hq _ ih => rw [List.flatMap_cons, List.flatMap_cons, hq.tables_eq, ih]
  rw [unionTables, unionTables, htables]

theorem plain_of_mem_unionTables (h : List.Forall₂ (Alike P) queries queries') :
    ∀ table ∈ unionTables queries, Plain table := by
  have hsettled : ∀ q ∈ queries, q.Settled P := by
    induction h with
    | nil => simp
    | cons hq _ ih => exact List.forall_mem_cons.2 ⟨hq.settled, ih⟩
  intro table htable
  rw [unionTables_eq, List.mem_eraseDups, List.mem_flatMap] at htable
  obtain ⟨q, hq, htable⟩ := htable
  exact (hsettled q hq).tables table htable

theorem mend_alike {profile : Profile} (hprofile : profile.Blind P) {tables : List String}
    (htables : ∀ table ∈ tables, Plain table) (h : q.Alike P q') :
    SameOutcome Eq (Alike P) (mend profile tables q) (mend profile tables q') := by
  induction tables generalizing q q' with
  | nil => exact .ok h
  | cons table tables ih =>
    rw [List.forall_mem_cons] at htables
    obtain ⟨htable, hrest⟩ := htables
    rw [mend, mend, h.tables_eq]
    split
    · exact ih hrest h
    · obtain ⟨hname, htable⟩ := Fragment.lacks_split htable
      have hmended := hprofile.missingTable _ _ _ _ hname htable h
      revert hmended
      dsimp only
      generalize profile.missingTable _ _ q = outcome
      generalize profile.missingTable _ _ q' = outcome'
      rintro (rfl | hmended)
      · exact .error rfl
      · exact ih hrest hmended

theorem mendAll_alike {profile : Profile} (hprofile : profile.Blind P) {tables : List String}
    (htables : ∀ table ∈ tables, Plain table) (h : List.Forall₂ (Alike P) queries queries') :
    SameOutcome Eq (List.Forall₂ (Alike P)) (mendAll profile tables queries)
      (mendAll profile tables queries') := by
  induction h with
  | nil => exact .ok .nil
  | @cons q q' queries queries' hq _ ih =>
    have hmended := mend_alike hprofile htables hq
    rw [mendAll, mendAll]
    revert hmended
    generalize mend profile tables q = outcome
    generalize mend profile tables q' = outcome'
    rintro (rfl | hmended)
    · exact .error rfl
    · revert ih
      generalize mendAll profile tables queries = more
      generalize mendAll profile tables queries' = more'
      rintro (rfl | hmore)
      · exact .error rfl
      · exact .ok (.cons hmended hmore)

/-! ## Merging -/

theorem Alike.branchCondition (h : q.Alike P q') :
    Fragment.Alike P q.branchCondition q'.branchCondition := by
  cases h with
  | @intro conditions groups hfilters hhaving hsettled =>
    have hjoined : Fragment.Alike P (Text.joinWith " AND " q.filters.reverse)
        (Text.joinWith " AND " conditions.reverse) :=
      Fragment.alike_joinWith (by decide) (List.rel_reverse hfilters)
    have hempty : conditions.isEmpty = q.filters.isEmpty := by
      rw [Bool.eq_iff_iff, List.isEmpty_iff_length_eq_zero, List.isEmpty_iff_length_eq_zero,
        hfilters.length_eq]
    unfold Query.branchCondition
    rw [hempty]
    split
    · exact Fragment.Plain.alike (by decide)
    · exact hjoined

theorem alternative_alike (h : List.Forall₂ (Alike P) queries queries') :
    Fragment.Alike P (alternative (queries.map Query.branchCondition))
      (alternative (queries'.map Query.branchCondition)) := by
  have hconditions : List.Forall₂ (Fragment.Alike P) (queries.map Query.branchCondition)
      (queries'.map Query.branchCondition) := by
    rw [List.forall₂_map_left_iff, List.forall₂_map_right_iff]
    exact h.imp fun _ _ hq => hq.branchCondition
  exact ((Fragment.Plain.alike (by decide)).append
    (Fragment.alike_joinWith (by decide) hconditions)).append (Fragment.Plain.alike (by decide))

theorem mergeMended_alike {tables : List String} (htables : ∀ table ∈ tables, Plain table)
    (hbase : base.Alike P base') (h : List.Forall₂ (Alike P) queries queries') :
    Alike P (mergeMended base tables queries) (mergeMended base' tables queries') := by
  have halternative := alternative_alike h
  cases h with
  | nil => exact hbase
  | @cons q q' queries queries' hq hqueries =>
    have hmain := hbase.read (fun base => (base.mainTable, base.mainClass)) fun _ _ => rfl
    rw [Prod.mk.injEq] at hmain
    have hfolded := hq.foldl_absorb hqueries
    rw [mergeMended, mergeMended, hmain.1, hmain.2]
    generalize queries.foldl Query.absorb q = folded at hfolded ⊢
    generalize queries'.foldl Query.absorb q' = folded' at hfolded ⊢
    cases hfolded with
    | intro _ hhaving hsettled =>
      refine .intro (.cons halternative .nil) hhaving ?_
      exact { hsettled with mainTable := hbase.settled.mainTable, tables := htables }

/-- **Alike branches are merged into alike queries**, or both merges are refused with the same
error. -/
theorem mergeBranches_alike {profile : Profile} (hprofile : profile.Blind P)
    (hbase : base.Alike P base') (h : List.Forall₂ (Alike P) queries queries') :
    SameOutcome Eq (Alike P) (mergeBranches profile base queries)
      (mergeBranches profile base' queries') := by
  have htables := plain_of_mem_unionTables h
  have hmended := mendAll_alike hprofile htables h
  unfold mergeBranches
  rw [unionTables_alike h]
  revert hmended
  generalize mendAll profile (unionTables queries) queries = mended
  generalize mendAll profile (unionTables queries) queries' = mended'
  rintro (rfl | hmended)
  · exact .error rfl
  · exact .ok (mergeMended_alike htables hbase hmended)

end Query

end RelationSql
