import RelationSql.Proofs.Query.Absorb
import RelationSql.Walk.Render

/-!
# Rendering is blind to literals

With hooks that are blind to literals, parts that are alike (`Part.Alike`) are rendered to fragments
that are alike: both walks take the same steps, fail with the same error, and leave queries that differ
in their literals only (`renderNode_mirrors`).
-/

namespace RelationSql

open RelationSql.Fragment (Plain)
open RelationSql.Grammar (IsItem Shaped isList)

variable {P : String → String → Prop}

/-! ## Parts -/

theorem Tree.Alike.atom? {t t' : Tree} (h : Tree.Alike P t t') :
    t'.atom? = t.atom? ∧ ∀ text ∈ t.atom?, Plain text := by
  cases h with
  | atom h => exact ⟨rfl, by rintro _ ⟨⟩; exact h⟩
  | _ => exact ⟨rfl, by rintro _ ⟨⟩⟩

/-- Parts of alike trees that render alike, and the items of a list to the same plain text. What
stands below a quoted text is no part of the comparison. -/
inductive Part.Alike (P : String → String → Prop) : Part → Part → Prop where
  | mk {t t' : Tree} {steps steps' : WalkM String} {parts parts' : List Part}
      (tree : Tree.Alike P t t') (render : Mirrors P (Fragment.Alike P) steps steps')
      (item : IsItem t → Mirrors P SamePlain steps steps')
      (below : t.tag? ≠ some .string → t.tag? ≠ some .dstring → List.Forall₂ (Alike P) parts parts') :
      Alike P (.mk t steps parts) (.mk t' steps' parts')

namespace Part.Alike

variable {p p' : Part} (h : Part.Alike P p p')

include h

theorem tree_ : Tree.Alike P p.tree p'.tree := by
  cases h
  assumption

theorem render_ : Mirrors P (Fragment.Alike P) p.render p'.render := by
  cases h
  assumption

theorem item_ (hitem : IsItem p.tree) : Mirrors P SamePlain p.render p'.render := by
  cases h with
  | mk _ _ item => exact item hitem

theorem parts_ (hstring : p.tree.tag? ≠ some .string) (hdstring : p.tree.tag? ≠ some .dstring) :
    List.Forall₂ (Part.Alike P) p.parts p'.parts := by
  cases h with
  | mk _ _ _ below => exact below hstring hdstring

end Part.Alike

variable {parts parts' : List Part} {host : Host}

theorem samePlain_of_forall₂ {texts texts' : List String} (h : List.Forall₂ SamePlain texts texts') :
    texts' = texts ∧ ∀ text ∈ texts, Plain text := by
  induction h with
  | nil => simp
  | cons htext _ ih =>
    obtain ⟨rfl, hplain⟩ := htext
    obtain ⟨rfl, hrest⟩ := ih
    exact ⟨rfl, List.forall_mem_cons.2 ⟨hplain, hrest⟩⟩

/-- What stands behind the first part is an item. -/
theorem item_of_tail {parts : List Part} (h : ∀ p ∈ parts.tail, IsItem p.tree) (p : Part)
    (hp : parts[1]? = some p) : IsItem p.tree := by
  cases parts with
  | nil => cases hp
  | cons q parts => exact h p (List.mem_of_getElem? hp)

/-- Parts that are items. -/
theorem mirrors_items (h : List.Forall₂ (Part.Alike P) parts parts')
    (hitems : ∀ p ∈ parts, IsItem p.tree) :
    List.Forall₂ (fun p p' => Mirrors P SamePlain p.render p'.render) parts parts' := by
  induction h with
  | nil => exact .nil
  | cons hp _ ih =>
    rw [List.forall_mem_cons] at hitems
    exact .cons (hp.item_ hitems.1) (ih hitems.2)

namespace Part

/-! ### Children -/

theorem mirrors_child (h : List.Forall₂ (Part.Alike P) parts parts') (tag : Tag) (index : Nat) :
    Mirrors P (fun p p' => Part.Alike P p p' ∧ parts[index]? = some p) (child tag parts index)
      (child tag parts' index) := by
  have hrel : Option.Rel (Part.Alike P) parts[index]? parts'[index]? := by
    induction h generalizing index with
    | nil => exact .none
    | cons hp _ ih =>
      cases index with
      | zero => exact .some hp
      | succ index => simpa using ih index
  unfold child
  generalize parts[index]? = found at hrel ⊢
  generalize parts'[index]? = found' at hrel ⊢
  cases hrel with
  | some hp => exact .pure ⟨hp, rfl⟩
  | none => exact .throw _

theorem mirrors_renderChild (h : List.Forall₂ (Part.Alike P) parts parts') (tag : Tag)
    (index : Nat) :
    Mirrors P (Fragment.Alike P) (renderChild tag parts index) (renderChild tag parts' index) :=
  (mirrors_child h tag index).bind fun _ _ hp => hp.1.render_

/-- A child that is an item renders to the same plain text. -/
theorem mirrors_renderItem (h : List.Forall₂ (Part.Alike P) parts parts') (tag : Tag) {index : Nat}
    (hitem : ∀ p, parts[index]? = some p → IsItem p.tree) :
    Mirrors P SamePlain (renderChild tag parts index) (renderChild tag parts' index) :=
  (mirrors_child h tag index).bind fun p _ hp => hp.1.item_ (hitem p hp.2)

theorem mirrors_atomChild (h : List.Forall₂ (Part.Alike P) parts parts') (tag : Tag) (index : Nat) :
    Mirrors P SamePlain (atomChild tag parts index) (atomChild tag parts' index) := by
  refine (mirrors_child h tag index).bind fun p p' hp => ?_
  obtain ⟨hatom, hplain⟩ := hp.1.tree_.atom?
  rw [hatom]
  cases htext : p.tree.atom? with
  | some text => exact .pure ⟨rfl, hplain text htext⟩
  | none => exact .throw _

theorem mirrors_renderAll {R : String → String → Prop}
    (h : List.Forall₂ (fun p p' => Mirrors P R p.render p'.render) parts parts') :
    Mirrors P (List.Forall₂ R) (renderAll parts) (renderAll parts') := by
  induction h with
  | nil => exact .pure .nil
  | cons hp _ ih =>
    refine Mirrors.bind hp fun text text' htext => ?_
    exact ih.bind fun texts texts' htexts => .pure (.cons htext htexts)

/-- Rendered parts with a separator between them. -/
theorem mirrors_joined (h : List.Forall₂ (Part.Alike P) parts parts') {separator : String}
    (hseparator : Plain separator) :
    Mirrors P (Fragment.Alike P) (do return Text.joinWith separator (← renderAll parts))
      (do return Text.joinWith separator (← renderAll parts')) := by
  refine (mirrors_renderAll (h.imp fun _ _ hp => hp.render_)).bind fun texts texts' htexts => ?_
  exact .pure (Fragment.alike_joinWith hseparator htexts)

end Part

open RelationSql.Part RelationSql.WalkM

/-! ## Expressions -/

namespace Expression

/-- Two operands with a word between them. -/
theorem mirrors_infix {l l' r r' : Part} (hl : Part.Alike P l l') (hr : Part.Alike P r r')
    {word : String} (hword : Plain word) :
    Mirrors P (Fragment.Alike P)
      (do
        let left ← l.render
        let right ← r.render
        return infixText left word right)
      (do
        let left ← l'.render
        let right ← r'.render
        return infixText left word right) := by
  refine hl.render_.bind fun left left' hleft => ?_
  refine hr.render_.bind fun right right' hright => ?_
  exact .pure ((((hleft.append (Plain.alike (by decide))).append hword.alike).append
    (Plain.alike (by decide))).append hright)

theorem plain_sql (operator : Operator) : Plain operator.sql := by
  cases operator <;> decide

theorem mirrors_operation (h : List.Forall₂ (Part.Alike P) parts parts') (operator : Operator) :
    Mirrors P (Fragment.Alike P) (operation operator parts) (operation operator parts') := by
  rcases h with _ | ⟨hl, _ | ⟨hr, _ | _⟩⟩
  · exact .throw _
  · exact .throw _
  · exact mirrors_infix hl hr (plain_sql operator)
  · exact .throw _

/-- A value between two bounds, with words between them. -/
theorem mirrors_bounds {v v' l l' u u' : Part} (hv : Part.Alike P v v') (hl : Part.Alike P l l')
    (hu : Part.Alike P u u') {word : String} (hword : Plain word) :
    Mirrors P (Fragment.Alike P)
      (do
        let value ← v.render
        let low ← l.render
        let high ← u.render
        return value ++ word ++ low ++ " AND " ++ high)
      (do
        let value ← v'.render
        let low ← l'.render
        let high ← u'.render
        return value ++ word ++ low ++ " AND " ++ high) := by
  refine hv.render_.bind fun value value' hvalue => ?_
  refine hl.render_.bind fun low low' hlow => ?_
  refine hu.render_.bind fun high high' hhigh => ?_
  exact .pure ((((hvalue.append hword.alike).append hlow).append (Plain.alike (by decide))).append
    hhigh)

theorem mirrors_negation (h : List.Forall₂ (Part.Alike P) parts parts') (tag : Tag) :
    Mirrors P (Fragment.Alike P) (negation tag parts) (negation tag parts') := by
  refine (mirrors_child h tag 0).bind fun p p' hp => ?_
  obtain ⟨hp, -⟩ := hp
  have hbefore : Mirrors P (Fragment.Alike P) (do return "NOT " ++ (← p.render))
      (do return "NOT " ++ (← p'.render)) := by
    refine hp.render_.bind fun text text' htext => ?_
    exact .pure ((Plain.alike (by decide)).append htext)
  have hbelow := hp.parts_
  rw [hp.tree_.tag?]
  generalize p.tree.tag? = tag? at hbelow ⊢
  generalize p.parts = below at hbelow ⊢
  generalize p'.parts = below' at hbelow ⊢
  rcases tag? with _ | tag
  · exact hbefore
  · cases tag with
    | op o =>
      -- an operator is negated in its place only if it has the operands for it
      rcases hbelow (by simp) (by simp) with _ | ⟨ha, _ | ⟨hb, _ | ⟨hc, _ | _⟩⟩⟩
      · cases o <;> exact hbefore
      · cases o <;> exact hbefore
      · cases o <;> first | exact hbefore | exact mirrors_infix ha hb (by decide)
      · cases o <;> first | exact hbefore | exact mirrors_bounds ha hb hc (by decide)
      · cases o <;> exact hbefore
    | _ => exact hbefore

theorem mirrors_disjunction (h : List.Forall₂ (Part.Alike P) parts parts') :
    Mirrors P (Fragment.Alike P) (disjunction parts) (disjunction parts') := by
  refine (mirrors_renderChild h _ 0).bind fun left left' hleft => ?_
  refine (mirrors_renderChild h _ 1).bind fun right right' hright => ?_
  exact .pure ((((Plain.alike (by decide)).append hleft).append (Plain.alike (by decide))).append
    hright |>.append (Plain.alike (by decide)))

theorem mirrors_equality (hhost : host.Blind P) (h : List.Forall₂ (Part.Alike P) parts parts') :
    Mirrors P (Fragment.Alike P) (equality host parts) (equality host parts') := by
  refine (mirrors_child h _ 0).bind fun l l' hl => ?_
  refine (mirrors_child h _ 1).bind fun r r' hr => ?_
  refine (hhost.equal _ _ _ _).bind ?_
  rintro _ _ ⟨rfl, rfl⟩
  exact mirrors_infix hl.1 hr.1 (plain_sql .equal)

theorem mirrors_betweenBounds (h : List.Forall₂ (Part.Alike P) parts parts') :
    Mirrors P (Fragment.Alike P) (betweenBounds parts) (betweenBounds parts') := by
  refine (mirrors_renderChild h _ 0).bind fun value value' hvalue => ?_
  refine (mirrors_renderChild h _ 1).bind fun low low' hlow => ?_
  refine (mirrors_renderChild h _ 2).bind fun high high' hhigh => ?_
  exact .pure ((((hvalue.append (Plain.alike (by decide))).append hlow).append
    (Plain.alike (by decide))).append hhigh)

theorem mirrors_changedSign (h : List.Forall₂ (Part.Alike P) parts parts') :
    Mirrors P (Fragment.Alike P) (changedSign parts) (changedSign parts') := by
  refine (mirrors_renderChild h _ 0).bind fun operand operand' hoperand => ?_
  exact .pure ((Plain.alike (by decide)).append hoperand)

/-- A call is refused by its method, whatever its argument renders as. -/
theorem mirrors_call (hhost : host.Blind P) (h : List.Forall₂ (Part.Alike P) parts parts')
    (hmethod : Mirrors P SamePlain (renderChild .function parts 1) (renderChild .function parts' 1)) :
    Mirrors P (Fragment.Alike P) (call host parts) (call host parts') := by
  refine (mirrors_renderChild h _ 0).bind fun argument argument' hargument => ?_
  refine hmethod.bind ?_
  rintro _ method ⟨rfl, -⟩
  refine (hhost.function _ _ _).bind ?_
  rintro _ _ ⟨rfl, rfl⟩
  exact .throw _

theorem mirrors_interval (h : List.Forall₂ (Part.Alike P) parts parts') :
    Mirrors P (Fragment.Alike P) (interval parts) (interval parts') := by
  refine (mirrors_renderChild h _ 0).bind fun value value' hvalue => ?_
  refine (mirrors_atomChild h _ 1).bind ?_
  rintro _ unit ⟨rfl, hunit⟩
  exact .pure ((((Plain.alike (by decide)).append hvalue).append (Plain.alike (by decide))).append
    (Fragment.plain_upper hunit).alike)

theorem mirrors_parenthesis (h : List.Forall₂ (Part.Alike P) parts parts') :
    Mirrors P (Fragment.Alike P) (parenthesis parts) (parenthesis parts') := by
  have hlist : Mirrors P (Fragment.Alike P) (parenthesised parts) (parenthesised parts') := by
    refine (mirrors_renderAll (h.imp fun _ _ hp => hp.render_)).bind fun texts texts' htexts => ?_
    exact .pure (((Plain.alike (by decide)).append
      (Fragment.alike_joinWith (by decide) htexts)).append (Plain.alike (by decide)))
  rcases h with _ | ⟨hp, _ | _⟩
  · exact hlist
  · unfold parenthesis isDisjunction
    dsimp only
    rw [hp.tree_.tag?]
    split
    · exact hp.render_
    · exact hlist
  · exact hlist

end Expression

/-! ## Queries -/

/-- A change of the query that leaves its conditions alone, and what it holds settled. -/
theorem Mirrors.changeQuery {change : Query → Query}
    (hchange : ∀ q conditions groups, change { q with filters := conditions, having := groups } =
      { change q with filters := conditions, having := groups })
    (hsettled : ∀ q, Query.Settled P q → (change q).Settled P) :
    Mirrors P Eq (WalkM.modifyQuery change) (WalkM.modifyQuery change) :=
  .modifyQuery fun q _ hq => hq.change change (hchange q) (hsettled q hq.settled)

/-! ## Relations -/

namespace Clause

theorem customQuery?_eq_none (hhost : host.Blind P) (w : Walk) (name : String) :
    customQuery? host w name = none := by
  unfold customQuery?
  rcases hhost.custom with hgroup | hempty
  · rw [hgroup]
    rfl
  · rw [hempty]
    cases host.options.group with
    | none => rfl
    | some group =>
      show (if _ then _ else _) = _
      split <;> rfl

theorem mirrors_askDomain (hhost : host.Blind P) (domain : String) {name : String}
    (hname : Plain name) (kinds : List RelationKind) :
    Mirrors P Eq (askDomain host domain name kinds) (askDomain host domain name kinds) := by
  induction kinds with
  | nil => exact .throw _
  | cons kind kinds ih =>
    have hask : Mirrors P Eq
        (do if ← host.relation domain kind name then return else askDomain host domain name kinds)
        (do if ← host.relation domain kind name then return else askDomain host domain name kinds) := by
      refine (hhost.relation domain kind name hname).bind ?_
      rintro found _ rfl
      cases found with
      | true => exact .pure rfl
      | false => exact ih
    unfold askDomain
    split
    · have hkind : Mirrors P Eq (modifyContext fun c => { c with scopeType := some kind })
          (modifyContext fun c => { c with scopeType := some kind }) :=
        .modifyContext fun _ => rfl
      exact hkind.bind fun _ _ _ => hask
    · exact hask

theorem mirrors_relation (hhost : host.Blind P) {name : String} (hname : Plain name) :
    Mirrors P Eq (relation host name) (relation host name) := by
  refine Mirrors.get.bind fun w w' hw => ?_
  rw [customQuery?_eq_none hhost, customQuery?_eq_none hhost, hw.domain]
  exact mirrors_askDomain hhost _ hname _

/-- Steps whose text is dropped. -/
theorem mirrors_dropped {steps steps' : WalkM String}
    (h : Mirrors P (Fragment.Alike P) steps steps') :
    Mirrors P Eq (do let _ ← steps) (do let _ ← steps') :=
  h.bind fun _ _ _ => .pure rfl

theorem mirrors_scope (h : List.Forall₂ (Part.Alike P) parts parts') :
    Mirrors P (Fragment.Alike P) (scope parts) (scope parts') := by
  refine (mirrors_child h _ 0).bind fun inner inner' hinner => ?_
  refine (mirrors_atomChild h _ 1).bind ?_
  rintro _ name ⟨rfl, -⟩
  exact .within (by exact fun _ hplain => hplain) hinner.1.render_

theorem mirrors_from (h : List.Forall₂ (Part.Alike P) parts parts') :
    Mirrors P Eq (from_ parts) (from_ parts') := by
  have hdistinct : Mirrors P Eq (modifyQuery fun q => { q with distinct := true })
      (modifyQuery fun q => { q with distinct := true }) :=
    .changeQuery (fun _ _ _ => rfl) fun _ hq => { hq with }
  refine (mirrors_child h _ 0).bind fun outer outer' houter => ?_
  refine (mirrors_child h _ 1).bind fun inner inner' hinner => ?_
  refine hdistinct.bind fun _ _ _ => ?_
  refine (Mirrors.within ?_ hinner.1.render_).bind fun _ _ _ => ?_
  · exact fun _ hplain => hplain
  · exact mirrors_dropped (.within (by exact fun _ hplain => hplain) houter.1.render_)

theorem mirrors_filter (h : List.Forall₂ (Part.Alike P) parts parts') :
    Mirrors P Eq (filter parts) (filter parts') := by
  refine (mirrors_renderChild h _ 0).bind fun _ _ _ => ?_
  refine (Mirrors.enterPhase _).bind fun _ _ _ => ?_
  refine (mirrors_renderChild h _ 1).bind fun text text' htext => ?_
  exact .addFilter htext

/-! ## Lists -/

/-- The items of a list are rendered to the same plain text. -/
theorem mirrors_items (h : List.Forall₂ (Part.Alike P) parts parts')
    (hitems : ∀ p ∈ parts.tail, IsItem p.tree) (tag : Tag) (phase : Phase) :
    Mirrors P SamePlain (items tag phase parts) (items tag phase parts') := by
  cases h with
  | nil => exact .throw _
  | cons hinner hrest =>
    refine hinner.render_.bind fun _ _ _ => ?_
    refine (Mirrors.enterPhase phase).bind fun _ _ _ => ?_
    refine (mirrors_renderAll (RelationSql.mirrors_items hrest hitems)).bind fun texts texts' h => ?_
    obtain ⟨rfl, hplain⟩ := samePlain_of_forall₂ h
    exact .pure ⟨rfl, Fragment.plain_joinWith (by decide) hplain⟩

theorem mirrors_order (h : List.Forall₂ (Part.Alike P) parts parts')
    (hitems : ∀ p ∈ parts.tail, IsItem p.tree) : Mirrors P Eq (order parts) (order parts') := by
  refine (mirrors_items h hitems _ _).bind ?_
  rintro _ body ⟨rfl, hbody⟩
  refine .changeQuery (fun _ _ _ => rfl) fun _ hq => { hq with order := ?_ }
  rintro _ ⟨⟩
  exact Fragment.plain_append.2 ⟨by decide, hbody⟩

theorem mirrors_group (h : List.Forall₂ (Part.Alike P) parts parts')
    (hitems : ∀ p ∈ parts.tail, IsItem p.tree) : Mirrors P Eq (group parts) (group parts') := by
  refine (mirrors_items h hitems _ _).bind ?_
  rintro _ body ⟨rfl, hbody⟩
  refine .changeQuery (fun _ _ _ => rfl) fun _ hq => { hq with group := ?_ }
  rintro _ ⟨⟩
  exact Fragment.plain_append.2 ⟨by decide, hbody⟩

/-- A condition on groups may have literals. -/
theorem mirrors_having (h : List.Forall₂ (Part.Alike P) parts parts') :
    Mirrors P Eq (having parts) (having parts') := by
  have hbody : Mirrors P (Fragment.Alike P) (items .having .having parts)
      (items .having .having parts') := by
    cases h with
    | nil => exact .throw _
    | cons hinner hrest =>
      refine hinner.render_.bind fun _ _ _ => ?_
      refine (Mirrors.enterPhase _).bind fun _ _ _ => ?_
      exact mirrors_joined hrest (by decide)
  refine hbody.bind fun body body' hbody => .modifyQuery fun q q' hq => ?_
  cases hq with
  | intro hfilters _ hsettled =>
    exact .intro hfilters (.some ((Plain.alike (by decide)).append hbody)) { hsettled with }

/-! ## Pages -/

theorem mirrors_setLimit {count : String} (hcount : Plain count) :
    Mirrors P Eq (setLimit count) (setLimit count) := by
  refine .changeQuery (fun _ _ _ => rfl) fun _ hq => { hq with limit := ?_ }
  rintro _ ⟨⟩
  exact Fragment.plain_append.2 ⟨by decide, hcount⟩

theorem mirrors_setOffset {offset : String} (hoffset : Fragment.Alike P offset offset) :
    Mirrors P Eq (setOffset offset) (setOffset offset) := by
  refine .changeQuery (fun _ _ _ => rfl) fun _ hq => { hq with offset := ?_ }
  rintro _ ⟨⟩
  exact (Plain.alike (by decide)).append hoffset

theorem mirrors_limit (h : List.Forall₂ (Part.Alike P) parts parts')
    (hitems : ∀ p ∈ parts.tail, IsItem p.tree) : Mirrors P Eq (limit parts) (limit parts') := by
  refine (mirrors_renderChild h _ 0).bind fun _ _ _ => ?_
  refine (Mirrors.enterPhase _).bind fun _ _ _ => ?_
  rcases h with _ | ⟨-, hrest⟩
  · exact .throw _
  rw [List.tail_cons] at hitems
  rcases RelationSql.mirrors_items hrest hitems with _ | ⟨hfirst, _ | ⟨hsecond, _ | _⟩⟩
  · exact .throw _
  · refine Mirrors.bind hfirst ?_
    rintro _ count ⟨rfl, hcount⟩
    exact mirrors_setLimit hcount
  · refine Mirrors.bind hsecond ?_
    rintro _ count ⟨rfl, hcount⟩
    refine (mirrors_setLimit hcount).bind fun _ _ _ => ?_
    refine Mirrors.bind hfirst ?_
    rintro _ offset ⟨rfl, hoffset⟩
    exact mirrors_setOffset hoffset.alike
  · exact .throw _

theorem mirrors_offset (h : List.Forall₂ (Part.Alike P) parts parts')
    (hitems : ∀ p ∈ parts.tail, IsItem p.tree) : Mirrors P Eq (offset parts) (offset parts') := by
  have hset : Mirrors P Eq
      (do
        enterPhase .limit
        setOffset (← renderChild .offset parts 1))
      (do
        enterPhase .limit
        setOffset (← renderChild .offset parts' 1)) := by
    refine (Mirrors.enterPhase _).bind fun _ _ _ => ?_
    refine (mirrors_renderItem h _ (item_of_tail hitems)).bind ?_
    rintro _ offset ⟨rfl, hoffset⟩
    exact mirrors_setOffset hoffset.alike
  refine (mirrors_renderChild h _ 0).bind fun _ _ _ => ?_
  refine Mirrors.query.bind fun q q' hq => ?_
  rw [hq.read (fun q => q.limit) fun _ _ => rfl]
  cases q.limit with
  | none => exact (Mirrors.throw (R := Eq) _).bind fun _ _ _ => hset
  | some limit => exact hset

theorem mirrors_paginate (h : List.Forall₂ (Part.Alike P) parts parts')
    (hitems : ∀ p ∈ parts.tail, IsItem p.tree) :
    Mirrors P Eq (paginate parts) (paginate parts') := by
  refine (mirrors_renderChild h _ 0).bind fun _ _ _ => ?_
  refine Mirrors.query.bind fun q q' hq => ?_
  rw [hq.read pageSize? fun _ _ => rfl]
  cases hsize : pageSize? q with
  | none => exact .throw _
  | some size =>
    refine (Mirrors.enterPhase _).bind fun _ _ _ => ?_
    refine (mirrors_renderItem h _ (item_of_tail hitems)).bind ?_
    rintro _ key ⟨rfl, hkey⟩
    have hoffset : Plain (pageOffset key size) := by
      simp only [pageOffset, Fragment.plain_append]
      exact ⟨⟨⟨by decide, hkey⟩, by decide⟩, Fragment.plain_toString size⟩
    refine (mirrors_setOffset (Fragment.alike_insertBind hoffset)).bind fun _ _ _ => ?_
    exact .changeQuery (fun _ _ _ => rfl) fun _ hq => { hq with }

theorem mirrors_direction (h : List.Forall₂ (Part.Alike P) parts parts') (tag : Tag) {word : String}
    (hword : Plain word) :
    Mirrors P (Fragment.Alike P) (direction tag word parts) (direction tag word parts') := by
  refine (mirrors_renderChild h _ 0).bind fun text text' htext => ?_
  exact .pure ((htext.append (Plain.alike (by decide))).append hword.alike)

end Clause

/-! ## Alternatives -/

namespace Alternative

mutual

theorem branchesOf_alike : ∀ {p p' : Part}, Part.Alike P p p' →
    List.Forall₂ (Part.Alike P) (branchesOf p) (branchesOf p')
  | .mk t _ parts, .mk t' _ parts', h => by
    have htag := h.tree_.tag?
    have hbelow := h.parts_
    have hall : List.Forall₂ (Part.Alike P) parts parts' →
        List.Forall₂ (Part.Alike P) (branchesOfAll parts) (branchesOfAll parts') :=
      branchesOfAll_alike
    cases t with
    | atom text =>
      cases t' with
      | atom text' => exact .cons h .nil
      | node tag' ts' => cases htag
    | node tag ts =>
      cases t' with
      | atom text' => cases htag
      | node tag' ts' =>
        obtain rfl : tag' = tag := Option.some.inj htag
        cases tag' with
        | clauseOr => exact hall (hbelow (by rintro ⟨⟩) (by rintro ⟨⟩))
        | _ => exact .cons h .nil

theorem branchesOfAll_alike : ∀ {parts parts' : List Part},
    List.Forall₂ (Part.Alike P) parts parts' →
      List.Forall₂ (Part.Alike P) (branchesOfAll parts) (branchesOfAll parts')
  | [], [], .nil => .nil
  | _ :: _, _ :: _, .cons hp hrest =>
    List.rel_append (branchesOf_alike hp) (branchesOfAll_alike hrest)

end

variable {base base' : Query}

theorem mirrors_branch (hbase : base.Alike P base') {p p' : Part} (hp : Part.Alike P p p') :
    Mirrors P (Query.Alike P) (branch base p) (branch base' p') := by
  refine (Mirrors.modifyQuery fun _ _ _ => hbase).bind fun _ _ _ => ?_
  refine (Mirrors.restoringDomain (.within ?_ hp.render_)).bind fun _ _ _ => .query
  exact fun _ hplain => hplain

theorem mirrors_branches (hbase : base.Alike P base')
    (h : List.Forall₂ (Part.Alike P) parts parts') :
    Mirrors P (List.Forall₂ (Query.Alike P)) (branches base parts) (branches base' parts') := by
  induction h with
  | nil => exact .pure .nil
  | cons hp _ ih =>
    refine (mirrors_branch hbase hp).bind fun q q' hq => ?_
    exact ih.bind fun queries queries' hqueries => .pure (.cons hq hqueries)

theorem mirrors_clause (hhost : host.Blind P) (h : List.Forall₂ (Part.Alike P) parts parts') :
    Mirrors P Eq (clause host parts) (clause host parts') := by
  refine Mirrors.query.bind fun base base' hbase => ?_
  refine (mirrors_branches hbase (branchesOfAll_alike h)).bind fun queries queries' hqueries => ?_
  refine (Mirrors.modifyQuery fun _ _ _ => hbase).bind fun _ _ _ => ?_
  refine hhost.activeProfile.bind ?_
  rintro _ profile ⟨rfl, hprofile⟩
  have hmerged := Query.mergeBranches_alike hprofile hbase hqueries
  generalize Query.mergeBranches profile base queries = merged at hmerged ⊢
  generalize Query.mergeBranches profile base' queries' = merged' at hmerged ⊢
  rcases hmerged with rfl | hmerged
  · exact .throw _
  · exact .modifyQuery fun _ _ _ => hmerged

end Alternative

/-! ## Nodes -/

theorem mirrors_silently {steps steps' : WalkM Unit} (h : Mirrors P Eq steps steps') :
    Mirrors P (Fragment.Alike P) (silently steps) (silently steps') :=
  h.bind fun _ _ _ => .pure (Plain.alike (by decide))

variable {atEnd : WalkM Unit}

theorem mirrors_renderRoot (hatEnd : Mirrors P Eq atEnd atEnd)
    (h : List.Forall₂ (Part.Alike P) parts parts') :
    Mirrors P Eq (renderRoot atEnd parts) (renderRoot atEnd parts') :=
  (mirrors_renderAll (h.imp fun _ _ hp => hp.render_)).bind fun _ _ _ => hatEnd

theorem mirrors_renderOperator (hhost : host.Blind P) (operator : Operator)
    (h : List.Forall₂ (Part.Alike P) parts parts') :
    Mirrors P (Fragment.Alike P) (renderOperator host operator parts)
      (renderOperator host operator parts') := by
  cases operator with
  | not => exact Expression.mirrors_negation h _
  | bang => exact Expression.mirrors_negation h _
  | or => exact Expression.mirrors_disjunction h
  | equal => exact Expression.mirrors_equality hhost h
  | between => exact Expression.mirrors_betweenBounds h
  | changeSign => exact Expression.mirrors_changedSign h
  | _ => exact Expression.mirrors_operation h _

theorem mirrors_atom (h : List.Forall₂ (Part.Alike P) parts parts') (tag : Tag) :
    Mirrors P (Fragment.Alike P) (atomChild tag parts 0) (atomChild tag parts' 0) :=
  (mirrors_atomChild h tag 0).imp fun _ _ htext => htext.alike

/-- An interpolated text fails to compile without a translator. -/
theorem mirrors_template (hhost : host.Blind P) (content : String) :
    Mirrors P (Fragment.Alike P) (Expression.template host content) (Expression.template host content) := by
  unfold Expression.template
  rw [hhost.translator]
  exact .throw _

/-- **Nodes over alike parts are rendered alike**, but for calls, whose method must be alike too. -/
theorem renderNode_mirrors (hP : ∀ content, P content content) (hhost : host.Blind P)
    (hatEnd : Mirrors P Eq atEnd atEnd) {tag : Tag} (htag : tag ≠ .function)
    (h : List.Forall₂ (Part.Alike P) parts parts')
    (hitems : isList tag = true → ∀ p ∈ parts.tail, IsItem p.tree) :
    Mirrors P (Fragment.Alike P) (renderNode host atEnd tag parts)
      (renderNode host atEnd tag parts') := by
  cases tag with
  | query => exact mirrors_silently (mirrors_renderRoot hatEnd h)
  | relation =>
    refine (mirrors_atomChild h _ 0).bind ?_
    rintro _ name ⟨rfl, hname⟩
    exact mirrors_silently (Clause.mirrors_relation hhost hname)
  | scope => exact Clause.mirrors_scope h
  | from_ => exact mirrors_silently (Clause.mirrors_from h)
  | filter => exact mirrors_silently (Clause.mirrors_filter h)
  | clauseOr => exact mirrors_silently (Alternative.mirrors_clause hhost h)
  | clauseAnd => exact .throw _
  | clausePar => exact mirrors_renderChild h _ 0
  | par => exact Expression.mirrors_parenthesis h
  | order => exact mirrors_silently (Clause.mirrors_order h (hitems rfl))
  | group => exact mirrors_silently (Clause.mirrors_group h (hitems rfl))
  | having => exact mirrors_silently (Clause.mirrors_having h)
  | limit => exact mirrors_silently (Clause.mirrors_limit h (hitems rfl))
  | offset => exact mirrors_silently (Clause.mirrors_offset h (hitems rfl))
  | paginate => exact mirrors_silently (Clause.mirrors_paginate h (hitems rfl))
  | asc => exact Clause.mirrors_direction h _ (by decide)
  | desc => exact Clause.mirrors_direction h _ (by decide)
  | field =>
    refine (mirrors_atomChild h _ 0).bind ?_
    rintro _ name ⟨rfl, hname⟩
    exact (hhost.resolveField hname).imp fun _ _ htext => htext.alike
  | param => exact mirrors_atom h _
  | integer => exact mirrors_atom h _
  | real => exact mirrors_atom h _
  | method => exact mirrors_atom h _
  | string =>
    refine (mirrors_atomChild h _ 0).bind ?_
    rintro _ content ⟨rfl, -⟩
    exact hhost.quoteLiteral (hP content)
  | dstring =>
    refine (mirrors_atomChild h _ 0).bind ?_
    rintro _ content ⟨rfl, -⟩
    exact mirrors_template hhost content
  | null => exact .pure (Plain.alike (by decide))
  | function => exact absurd rfl htag
  | interval => exact Expression.mirrors_interval h
  | void => exact .pure (Plain.alike (by decide))
  | op operator => exact mirrors_renderOperator hhost operator h

/-! ## Trees -/

/-- An item is rendered to the same plain text. -/
theorem renderItem_mirrors (hhost : host.Blind P) {tag : Tag} {ts : List Tree}
    (hitem : IsItem (.node tag ts))
    (h : List.Forall₂ (Part.Alike P) (ofTrees (renderNode host atEnd) ts) parts') :
    Mirrors P SamePlain (renderNode host atEnd tag (ofTrees (renderNode host atEnd) ts))
      (renderNode host atEnd tag parts') := by
  have hdirection {name word : String} {tag : Tag} (hword : Plain word)
      (h : List.Forall₂ (Part.Alike P) (ofTrees (renderNode host atEnd) [.leaf .field name]) parts') :
      Mirrors P SamePlain
        (Clause.direction tag word (ofTrees (renderNode host atEnd) [.leaf .field name]))
        (Clause.direction tag word parts') := by
    refine (mirrors_renderItem h tag ?_).bind ?_
    · rintro p ⟨⟩
      exact .field name
    · rintro _ text ⟨rfl, htext⟩
      refine .pure ⟨rfl, ?_⟩
      exact Fragment.plain_append.2 ⟨Fragment.plain_append.2 ⟨htext, by decide⟩, hword⟩
  cases hitem with
  | field name =>
    refine (mirrors_atomChild h _ 0).bind ?_
    rintro _ name ⟨rfl, hname⟩
    exact hhost.resolveField hname
  | param name => exact mirrors_atomChild h _ 0
  | integer digits => exact mirrors_atomChild h _ 0
  | asc name => exact hdirection (by decide) h
  | desc name => exact hdirection (by decide) h

/-- The atom of a leaf, whatever it is. -/
theorem mirrors_leafAtom (tag : Tag) (l r : String) (node : Tag → List Part → WalkM String) :
    Mirrors P (fun text text' => text = l ∧ text' = r) (atomChild tag (ofTrees node [.atom l]) 0)
      (atomChild tag (ofTrees node [.atom r]) 0) :=
  fun _ _ hw => ⟨.ok ⟨rfl, rfl⟩, hw⟩

/-- The parts of a list of items are items. -/
theorem items_of_shaped {tag : Tag} {ts : List Tree} (h : Shaped (.node tag ts))
    (hlist : isList tag = true) (node : Tag → List Part → WalkM String) :
    ∀ p ∈ (ofTrees node ts).tail, IsItem p.tree := by
  cases h with
  | node _ _ items =>
    rw [ofTrees_eq_map, ← List.map_tail]
    intro p hp
    obtain ⟨t, ht, rfl⟩ := List.mem_map.1 hp
    rw [tree_ofTree]
    exact items hlist t ht

mutual

/-- **Alike trees have alike parts.** -/
theorem part_alike (hP : ∀ content, P content content) (hhost : host.Blind P)
    (hatEnd : Mirrors P Eq atEnd atEnd) : ∀ {t t' : Tree}, Shaped t → Tree.Alike P t t' →
      Part.Alike P (ofTree (renderNode host atEnd) t) (ofTree (renderNode host atEnd) t')
  | .atom text, _, _, .atom h => .mk (.atom h) (.pure h.alike) (fun _ => .pure ⟨rfl, h⟩) fun _ _ => .nil
  | .node tag ts, t', ht, h => by
    have hparts : ∀ {ts' : List Tree}, List.Forall₂ (Tree.Alike P) ts ts' →
        List.Forall₂ (Part.Alike P) (ofTrees (renderNode host atEnd) ts)
          (ofTrees (renderNode host atEnd) ts') :=
      parts_alike hP hhost hatEnd fun t hmem => ht.child hmem
    cases h with
    | @string l r hcontent =>
      have hrender : Mirrors P (Fragment.Alike P)
          (renderNode host atEnd .string (ofTrees (renderNode host atEnd) [.atom l]))
          (renderNode host atEnd .string (ofTrees (renderNode host atEnd) [.atom r])) := by
        refine (mirrors_leafAtom _ _ _ _).bind ?_
        rintro _ _ ⟨rfl, rfl⟩
        exact hhost.quoteLiteral hcontent
      exact .mk (.string hcontent) hrender (by rintro ⟨⟩) fun hstring => absurd rfl hstring
    | dstring =>
      refine .mk (.dstring _) ?_ (by rintro ⟨⟩) fun _ hdstring => absurd rfl hdstring
      refine Mirrors.bind (mirrors_leafAtom _ _ _ _) ?_
      rintro _ _ ⟨rfl, rfl⟩
      exact mirrors_template hhost _
    | @call t t' hargument name hname =>
      have hmethod : Tree.Alike P (.leaf .method name) (.leaf .method name) := .leaf (by simp) hname
      have hboth := hparts (.cons hargument (.cons hmethod .nil))
      refine .mk (.call hargument hname) ?_ (by rintro ⟨⟩) fun _ _ => hboth
      exact Expression.mirrors_call hhost hboth fun _ _ hw => ⟨.ok ⟨rfl, hname⟩, hw⟩
    | node htag hts =>
      have hboth := hparts hts
      exact .mk (.node htag hts)
        (renderNode_mirrors hP hhost hatEnd htag hboth fun hlist => items_of_shaped ht hlist _)
        (fun hitem => renderItem_mirrors hhost hitem hboth) fun _ _ => hboth

theorem parts_alike (hP : ∀ content, P content content) (hhost : host.Blind P)
    (hatEnd : Mirrors P Eq atEnd atEnd) : ∀ {ts ts' : List Tree}, (∀ t ∈ ts, Shaped t) →
      List.Forall₂ (Tree.Alike P) ts ts' →
        List.Forall₂ (Part.Alike P) (ofTrees (renderNode host atEnd) ts)
          (ofTrees (renderNode host atEnd) ts')
  | [], [], _, .nil => .nil
  | _ :: _, _ :: _, hts, .cons h hrest =>
    .cons (part_alike hP hhost hatEnd (hts _ List.mem_cons_self) h)
      (parts_alike hP hhost hatEnd (fun t ht => hts t (List.mem_cons_of_mem _ ht)) hrest)

end

/-- **Alike trees are rendered alike.** -/
theorem renderWith_mirrors (hP : ∀ content, P content content) (hhost : host.Blind P)
    (hatEnd : Mirrors P Eq atEnd atEnd) {t t' : Tree} (ht : Shaped t) (h : Tree.Alike P t t') :
    Mirrors P (Fragment.Alike P) (renderWith host atEnd t) (renderWith host atEnd t') :=
  (part_alike hP hhost hatEnd ht h).render_

/-! ## Whole sources -/

/-- The order clause of a source is a list that renders to the same on both sides. -/
theorem orderOnly_alike {tree clause : Tree} (hshaped : Shaped tree) (h : Tree.Alike P tree tree)
    (hclause : orderOnly? tree = some clause) : Shaped clause ∧ Tree.Alike P clause clause := by
  unfold orderOnly? at hclause
  split at hclause
  · next children =>
    split at hclause
    · next inner items hlast =>
      cases hclause
      have hmem := List.mem_of_getLast? hlast
      have horder := hshaped.child hmem
      have halike : Tree.Alike P (.node .order (inner :: items)) (.node .order (inner :: items)) := by
        cases h with
        | node _ hchildren => exact List.forall₂_same.1 hchildren _ hmem
      have hvoid : Shaped (.node .void []) := .wrapped rfl rfl (by simp)
      constructor
      · cases horder with
        | node children tight items =>
          rw [List.forall_mem_cons] at children
          exact .node (List.forall_mem_cons.2 ⟨hvoid, children.2⟩) (by rintro ⟨⟩) items
      · cases halike with
        | node _ hparts =>
          rw [List.forall₂_cons] at hparts
          exact .node (by simp) (.cons (.node (by simp) .nil) hparts.2)
    · cases hclause
  · cases hclause

theorem renderOrder_mirrors (hP : ∀ content, P content content) (hhost : host.Blind P)
    (order : String) : Mirrors P Eq (renderOrder host order) (renderOrder host order) := by
  unfold renderOrder
  split
  · exact .throw _
  · next tree htree =>
    split
    · next clause hclause =>
      obtain ⟨hshaped, halike⟩ := orderOnly_alike (Grammar.shaped_of_parse htree)
        (Grammar.alike_self_of_parse hP htree) hclause
      exact Clause.mirrors_dropped (renderWith_mirrors hP hhost (.pure rfl) hshaped halike)
    · exact .pure rfl

theorem defaultOrder_mirrors (hP : ∀ content, P content content) (hhost : host.Blind P) :
    Mirrors P Eq (defaultOrder host) (defaultOrder host) := by
  refine Mirrors.query.bind fun q q' hq => ?_
  rw [hq.read (fun q => q.order) fun _ _ => rfl]
  split
  · refine (hhost.default _).bind ?_
    rintro order _ rfl
    cases order with
    | some order => exact renderOrder_mirrors hP hhost order
    | none => exact .pure rfl
  · exact .pure rfl

/-- **Trees that differ in their literals are rendered alike.** -/
theorem render_mirrors (hP : ∀ content, P content content) (hhost : host.Blind P) {t t' : Tree}
    (ht : Shaped t) (h : Tree.Alike P t t') :
    Mirrors P (Fragment.Alike P) (render host t) (render host t') :=
  renderWith_mirrors hP hhost (defaultOrder_mirrors hP hhost) ht h

end RelationSql
