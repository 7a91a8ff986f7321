import Mathlib.Data.Option.Basic
import Mathlib.Data.List.Forall2
import RelationSql.Proofs.Fragment.Template
import RelationSql.Proofs.Query.Binds
import RelationSql.Proofs.Query.Over

/-!
# Queries that differ in their literals

Two queries are alike if they differ in the literals of their conditions only, and if all else that
they hold is plain (`Query.Alike`, `Query.Settled`). Their statements are then the two fillings of one
template (`statement_alike`), so they are built with the same binds, and with the same text but for
the literals (`build_of_template`).
-/

namespace RelationSql

open RelationSql.Fragment (Plain)

namespace Query

open RelationSql.Fragment (TableReference)

/-! ## Settled queries -/

/-- All that the query holds apart from its conditions is plain, but the joins and the offset, which
may have markers and literals. -/
structure Settled (P : String → String → Prop) (q : Query) : Prop where
  placeholder : Fragment.escape ∉ q.dialect.placeholder.toList
  mainTable : Plain q.mainTable
  tables : ∀ reference ∈ q.tables, Plain reference
  aliases : q.tableAlias.All fun names => ∀ name ∈ names, Plain name
  joins : q.joinTables.All fun joins => ∀ join ∈ joins, Fragment.Alike P join join
  neededJoins : q.neededJoins.All fun names => names.All Plain
  keyValues : q.keyValueTables.All fun tables => tables.All fun keys => keys.All Plain
  select : ∀ items ∈ q.select, ∀ item ∈ items, Plain item
  order : ∀ text ∈ q.order, Plain text
  group : ∀ text ∈ q.group, Plain text
  limit : ∀ text ∈ q.limit, Plain text
  offset : ∀ text ∈ q.offset, Fragment.Alike P text text
  attributes : q.attributes.All Plain

/-- The queries differ in the literals of their conditions only, and all else is settled. -/
inductive Alike (P : String → String → Prop) (q : Query) : Query → Prop where
  | intro {conditions : List String} {groups : Option String}
      (filters : List.Forall₂ (Fragment.Alike P) q.filters conditions)
      (having_ : Option.Rel (Fragment.Alike P) q.having groups) (settled : q.Settled P) :
      Alike P q { q with filters := conditions, having := groups }

variable {P : String → String → Prop} {q q' : Query}

theorem Alike.settled (h : q.Alike P q') : q.Settled P := by
  cases h
  assumption

/-- What does not depend on the conditions is the same in both queries. -/
theorem Alike.read {α : Type} (h : q.Alike P q') (f : Query → α)
    (hf : ∀ conditions groups, f { q with filters := conditions, having := groups } = f q) :
    f q' = f q := by
  cases h with
  | intro => exact hf _ _

/-- A settled query is over the plain texts. -/
theorem Settled.over (h : q.Settled P) :
    q.Over Fragment.specials fun text => Fragment.Alike P text text := by
  obtain ⟨_⟩ := h
  constructor <;> assumption

theorem Over.settled (h : q.Over Fragment.specials fun text => Fragment.Alike P text text)
    (hplaceholder : Fragment.escape ∉ q.dialect.placeholder.toList) : q.Settled P := by
  obtain ⟨_⟩ := h
  constructor <;> assumption

/-- The names of a table are plain. -/
theorem Settled.alias? (h : q.Settled P) {table name : String} {index : Int}
    (hname : q.alias? table index = some name) : Plain name :=
  h.over.alias? hname

/-! ### Additions -/

theorem Settled.addFilter (h : q.Settled P) (filter : String) : (q.addFilter filter).Settled P :=
  (h.over.addFilter filter).settled h.placeholder

theorem Settled.addTable (h : q.Settled P) {use table : String} (huse : Plain use)
    (htable : Plain table) (avoidAlias : Bool) : (q.addTable use table avoidAlias).Settled P :=
  (h.over.addTable Fragment.isClass_specials huse htable avoidAlias).settled h.placeholder

theorem Alike.addFilter (h : q.Alike P q') {filter filter' : String}
    (hfilter : Fragment.Alike P filter filter') :
    Alike P (q.addFilter filter) (q'.addFilter filter') := by
  cases h with
  | intro hfilters hhaving hsettled =>
    have hadded := List.rel_append hfilters (.cons hfilter .nil)
    exact .intro (q := q.addFilter filter) hadded hhaving (hsettled.addFilter filter)

theorem Alike.addTable (h : q.Alike P q') {use table : String} (huse : Plain use)
    (htable : Plain table) (avoidAlias : Bool) :
    Alike P (q.addTable use table avoidAlias) (q'.addTable use table avoidAlias) := by
  cases h with
  | intro hfilters hhaving hsettled =>
    exact .intro (q := q.addTable use table avoidAlias) hfilters hhaving
      (hsettled.addTable huse htable avoidAlias)

/-- A change that leaves the conditions as they are, and the rest settled. -/
theorem Alike.change (h : q.Alike P q') (change : Query → Query)
    (hchange : ∀ conditions groups,
      change { q with filters := conditions, having := groups } =
        { change q with filters := conditions, having := groups })
    (hsettled : (change q).Settled P) : Alike P (change q) (change q') := by
  have hself : change q = { change q with filters := q.filters, having := q.having } :=
    hchange q.filters q.having
  have hfilters' : (change q).filters = q.filters := (congrArg Query.filters hself).trans rfl
  have hhaving' : (change q).having = q.having := (congrArg Query.having hself).trans rfl
  cases h with
  | @intro conditions groups hfilters hhaving =>
    rw [← hfilters'] at hfilters
    rw [← hhaving'] at hhaving
    rw [hchange conditions groups]
    exact .intro hfilters hhaving hsettled

/-! ## Statements -/

open RelationSql.Fragment RelationSql.Text

theorem Settled.tableList (h : q.Settled P) : Fragment.Alike P q.tableList q.tableList :=
  h.over.tableList (fun _ hplain => Plain.alike hplain) (fun _ _ h hrest => h.append hrest)
    isClass_specials

theorem alike_getD {text text' : Option String} (h : Option.Rel (Fragment.Alike P) text text') :
    Fragment.Alike P (text.getD "") (text'.getD "") := by
  cases h with
  | some h => exact h
  | none => exact Plain.alike (by decide)

theorem Alike.whereClause (h : q.Alike P q') :
    Fragment.Alike P q.whereClause q'.whereClause := by
  cases h with
  | @intro conditions groups hfilters hhaving hsettled =>
    have hempty : conditions.isEmpty = q.filters.isEmpty := by
      rw [Bool.eq_iff_iff, List.isEmpty_iff_length_eq_zero, List.isEmpty_iff_length_eq_zero,
        hfilters.length_eq]
    have hjoined : Fragment.Alike P (joinWith " AND " q.filters.reverse)
        (joinWith " AND " conditions.reverse) :=
      alike_joinWith (by decide) (List.rel_reverse hfilters)
    unfold Query.whereClause
    rw [hempty]
    split
    · exact Plain.alike (by decide)
    · exact (Plain.alike (by decide)).append hjoined

/-- **The statements of alike queries are the two fillings of one template.** -/
theorem statement_alike (h : q.Alike P q') (kind : StatementKind) :
    Fragment.Alike P (q.statement kind) (q'.statement kind) := by
  have hwhere := h.whereClause
  have hsettled := h.settled
  have htables := hsettled.tableList
  cases h with
  | intro hfilters hhaving _ =>
    cases kind with
    | find =>
      have hselect : Plain (joinWith "," q.selectItems) :=
        plain_joinWith (by decide) (hsettled.over.selectItems isClass_specials)
      have hfront : Fragment.Alike P ("SELECT" ++ q.distinctClause ++ " " ++ joinWith "," q.selectItems ++
          " FROM ") ("SELECT" ++ q.distinctClause ++ " " ++ joinWith "," q.selectItems ++ " FROM ") := by
        apply Plain.alike
        simp only [plain_append]
        exact ⟨⟨⟨⟨by decide, hsettled.over.distinctClause isClass_specials⟩, by decide⟩, hselect⟩, by decide⟩
      have horder := Plain.alike (P := P) (Over.lacks_getD isClass_specials hsettled.order)
      have hlimit := Plain.alike (P := P) (Over.lacks_getD isClass_specials hsettled.limit)
      have hoffset : Fragment.Alike P (q.offset.getD "") (q.offset.getD "") := by
        cases hoffset : q.offset with
        | none => exact Plain.alike (by decide)
        | some text => exact hsettled.offset text hoffset
      have hgroup := Plain.alike (P := P) (hsettled.over.groupClause isClass_specials)
      exact ((((((hfront.append htables).append hwhere).append hgroup).append (alike_getD hhaving)).append
        horder).append hlimit).append hoffset
    | count =>
      have hcounted := Plain.alike (P := P) (hsettled.over.counted isClass_specials)
      exact ((((Plain.alike (by decide)).append hcounted).append (Plain.alike (by decide))).append
        htables).append hwhere

/-! ## Building -/

/-- **A statement that fills a template is built with the binds of the template**, and with the text
that fills it with placeholders and with the literals as they are. -/
theorem build_of_template {kind : StatementKind} {template : Template}
    {pick : String × String → String} (hsound : ∀ piece ∈ template, piece.Sound P)
    (hplaceholder : escape ∉ q.dialect.placeholder.toList)
    (hstatement : (q.statement kind).toList = template.flatMap (Piece.fragment pick)) :
    q.build kind = ⟨String.ofList (template.flatMap (Piece.sql q.dialect.placeholder.toList pick)),
      template.filterMap Piece.bind?⟩ := by
  rw [flatMap_fragment] at hstatement
  rw [flatMap_sql, filterMap_bind? pick]
  refine (build_segments_iff ?_ hplaceholder hstatement).2 ?_
  · exact List.forall_mem_map.2 fun piece hpiece => Piece.sound_segment (hsound piece hpiece)
  · intro expression hexpression
    rw [← filterMap_bind?] at hexpression
    obtain ⟨piece, hpiece, hbind⟩ := List.mem_filterMap.1 hexpression
    exact Piece.kept_of_bind? (hsound piece hpiece) hbind

end Query

end RelationSql
