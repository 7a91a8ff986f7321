import Mathlib.Data.List.TakeWhile
import RelationSql.Proofs.Query.Gauge
import RelationSql.Proofs.Walk.InForce

/-!
# Pages

A query that is compiled with `paginate` reports the key and the size of its pages, and its limit and its
offset are those of the page. Other clauses set these two without a look at the pages: a later limit
changes the number of records, and a later offset takes the place of that of the page. What is reported
matches the clauses exactly if neither happens behind the last `paginate` (`PagesStand`).

The size of a page is read back out of the text of the limit, which is that of the last count so far
(`Closing.Run.limit_eq`).
-/

namespace RelationSql

open Grammar RelationSql.Text RelationSql.Fragment

/-! ## Counts -/

/-- The text is made of decimal digits. -/
structure IsDigits (text : String) : Prop where
  nonempty : text ≠ ""
  digits : ∀ c ∈ text.toList, c.isDigit = true

/-- A whole number is spelled in digits. -/
theorem Grammar.IsInteger.isDigits {text : String} (h : IsInteger text) : IsDigits text := by
  refine ⟨h.lacks.2, ?_⟩
  obtain ⟨c, cs, -, hread⟩ := h
  have hkind : (Source.read c cs).kind = .integer text := by rw [hread]
  rcases Source.read_cases c cs with ⟨_, hk⟩ | ⟨_, hk | hk⟩ | ⟨_, hk⟩ | ⟨-, hk⟩ | ⟨-, hk⟩
  · rw [hk] at hkind; cases hkind
  · rw [hk] at hkind; cases hkind
  · rw [hk] at hkind; cases hkind
  · rw [hk] at hkind; cases hkind
  · rw [hk] at hkind
    rcases Source.readNumber_cases (c :: cs) with hn | ⟨_, _, _, hn⟩
    · rw [hn] at hkind
      cases hkind
      rw [String.toList_ofList]
      exact Source.forall_mem_takeWhile _
    · rw [hn] at hkind; cases hkind
  · rw [hk, Source.readWord] at hkind
    rcases Source.wordKind_cases (String.ofList ((c :: cs).takeWhile isNameRest)) with hw | ⟨_, hw⟩
    · rw [hw] at hkind; cases hkind
    · rw [hw] at hkind; cases hkind

/-- The size of the pages behind a limit by this count. -/
def pageSizeOf (count : String) : Nat :=
  max 1 (digitsValue count.toList)

namespace IsDigits

variable {count : String} (h : IsDigits count)

include h

/-- The digits of a limit are those of its count. -/
theorem limitDigits? : Fragment.limitDigits? (" LIMIT " ++ count).toList = some count.toList := by
  have hdecimal : ∀ c ∈ count.toList, isDecimal c = true := by
    intro c hc
    have hdigit := h.digits c hc
    have hascii : c.toNat < 128 := by
      simp only [Char.isDigit, Bool.and_eq_true, decide_eq_true_eq, UInt32.le_iff_toNat_le] at hdigit
      exact lt_of_le_of_lt hdigit.2 (by decide)
    rw [isDecimal, if_pos hascii, hdigit]
  have hlimit : after? " LIMIT ".toList (' ' :: ("LIMIT ".toList ++ count.toList)) = some count.toList :=
    after?_eq_some_iff.2 rfl
  have hne : count.toList.isEmpty = false := by
    rw [List.isEmpty_eq_false_iff]
    exact fun hnil => h.nonempty (String.toList_inj.1 hnil)
  rw [String.toList_append]
  show Fragment.limitDigits? (' ' :: ("LIMIT ".toList ++ count.toList)) = _
  rw [Fragment.limitDigits?, hlimit]
  simp [List.takeWhile_eq_self_iff.2 hdecimal, hne]

/-- The size of a page is that of the count of the limit, where the limit has a number. -/
theorem pageSize_eq {size : Nat}
    (hsize : ((some (" LIMIT " ++ count)).bind limitValue?).map (max 1) = some size) :
    size = pageSizeOf count := by
  rw [Option.bind_some, limitValue?, h.limitDigits?, Option.bind_some] at hsize
  split at hsize
  · cases hsize
    rfl
  · cases hsize

/-- The offset by a number is not that of a page. -/
theorem offset_ne_page (key : String) (size : Nat) :
    " OFFSET " ++ count ≠ " OFFSET " ++ insertBind (Clause.pageOffset key size) := by
  intro heq
  have hlist := congrArg String.toList heq
  simp only [insertBind, String.toList_append, List.append_assoc, List.append_cancel_left_eq] at hlist
  have hbracket : '[' ∈ count.toList := by
    rw [hlist]
    simp
  exact absurd (h.digits '[' hbracket) (by decide)

end IsDigits

namespace Closer

/-- The numbers of the clause are spelled in digits. -/
def IsCounted : Closer → Prop
  | .group _ | .paginate _ => True
  | .limit start count => IsDigits count ∧ ∀ text ∈ start, IsDigits text
  | .offset start => IsDigits start

/-- The count that the clause limits the records to. -/
def count? : Closer → Option String
  | .limit _ count => some count
  | _ => none

/-- The number that the clause makes the offset. -/
def start? : Closer → Option String
  | .limit start _ => start
  | .offset start => some start
  | _ => none

end Closer

/-- **The clauses in force in a well-formed tree have proper numbers.** -/
theorem isCounted_of_formed {role : Role} {t : Tree} (ht : Formed True role t) :
    ∀ closer ∈ t.inForce, closer.IsCounted := by
  have happend {closers more : List Closer} (h : ∀ closer ∈ closers, closer.IsCounted)
      (hmore : ∀ closer ∈ more, closer.IsCounted) : ∀ closer ∈ closers ++ more, closer.IsCounted :=
    List.forall_mem_append.2 ⟨h, hmore⟩
  have hnothing : ∀ closer ∈ ([] : List Closer), closer.IsCounted := nofun
  have hlink {tag : Tag} (htag : isLink tag = true) {t u : Tree}
      (ht : ∀ closer ∈ t.inForce, closer.IsCounted) (hu : ∀ closer ∈ u.inForce, closer.IsCounted) :
      ∀ closer ∈ (Tree.node tag [t, u]).inForce, closer.IsCounted := by
    rcases isLink_iff.1 htag with rfl | rfl | rfl
    · exact happend hu ht
    · exact happend ht hnothing
    · exact hnothing
  induction ht with
  | relation => exact hnothing
  | scope _ _ ih | filter _ _ ih => exact happend ih hnothing
  | enclosed _ ih => exact happend ih hnothing
  | link htag _ _ ih ih' | onward htag _ _ ih ih' => exact hlink htag ih ih'
  | having _ hcondition ih ih' => exact happend ih ih'
  | limit _ hlength hcounts ih =>
    refine happend ih ?_
    rcases hlength with hlength | hlength
    · obtain ⟨u, rfl⟩ := List.length_eq_one_iff.1 hlength
      obtain ⟨hcount⟩ := List.forall_mem_singleton.1 hcounts
      exact List.forall_mem_singleton.2 ⟨hcount.isDigits, nofun⟩
    · obtain ⟨u, v, rfl⟩ := List.length_eq_two.1 hlength
      rw [List.forall_mem_cons, List.forall_mem_singleton] at hcounts
      obtain ⟨⟨hstart⟩, ⟨hcount⟩⟩ := hcounts
      refine List.forall_mem_singleton.2 ⟨hcount.isDigits, ?_⟩
      rintro _ ⟨⟩
      exact hstart.isDigits
  | offset _ hcount ih =>
    obtain ⟨hstart⟩ := hcount
    exact happend ih (List.forall_mem_singleton.2 hstart.isDigits)
  | paginate _ _ ih | group _ _ _ ih => exact happend ih (List.forall_mem_singleton.2 trivial)
  | order _ _ _ ih => exact happend ih hnothing
  | swallowed _ _ _ ih ih' => exact happend ih ih'
  | stolen _ _ ih ih' => exact happend ih' ih
  | field ht => cases ht; exact hnothing
  | number ht => cases ht <;> exact hnothing
  | @parenthesis ts => cases ts <;> exact hnothing
  | @operator o ts => cases ts <;> exact hnothing
  | _ => exact hnothing

/-- What is rendered of a source has proper numbers in it. -/
theorem isCounted_of_source {tree : Tree} (htree : FormedSource True tree) :
    ∀ closer ∈ tree.inForce, closer.IsCounted := by
  cases htree with
  | empty => exact nofun
  | clause ht => exact List.forall_mem_append.2 ⟨isCounted_of_formed ht, nofun⟩

/-! ## What a run leaves of the pages -/

/-- What the last one of the clauses sets that sets this part. -/
def lastSet? (part : Closer → Option String) (closers : List Closer) : Option String :=
  closers.reverse.findSome? part

theorem lastSet?_append (part : Closer → Option String) (closers more : List Closer) :
    lastSet? part (closers ++ more) = (lastSet? part more).or (lastSet? part closers) := by
  rw [lastSet?, List.reverse_append, List.findSome?_append]
  rfl

theorem lastSet?_cons (part : Closer → Option String) (closer : Closer) (closers : List Closer) :
    lastSet? part (closer :: closers) = (lastSet? part closers).or (part closer) := by
  rw [lastSet?, List.reverse_cons, List.findSome?_append, List.findSome?_singleton]
  rfl

/-- What is set last is set by one of the clauses. -/
theorem exists_of_lastSet? {part : Closer → Option String} {closers : List Closer} {text : String}
    (h : lastSet? part closers = some text) : ∃ closer ∈ closers, part closer = some text := by
  obtain ⟨closer, hmem, hpart⟩ := List.exists_of_findSome?_eq_some h
  exact ⟨closer, List.mem_reverse.1 hmem, hpart⟩

theorem lastSet?_eq_none_iff {part : Closer → Option String} {closers : List Closer} :
    lastSet? part closers = none ↔ ∀ closer ∈ closers, part closer = none := by
  simp [lastSet?]

/-- The last count is spelled in digits. -/
theorem isDigits_of_lastCount {closers : List Closer} (h : ∀ closer ∈ closers, closer.IsCounted)
    {count : String} (hcount : lastSet? Closer.count? closers = some count) : IsDigits count := by
  obtain ⟨closer, hmem, hpart⟩ := exists_of_lastSet? hcount
  cases closer with
  | limit start count =>
    cases hpart
    exact (h _ hmem).1
  | _ => cases hpart

/-- The last number of an offset is spelled in digits. -/
theorem isDigits_of_lastStart {closers : List Closer} (h : ∀ closer ∈ closers, closer.IsCounted)
    {start : String} (hstart : lastSet? Closer.start? closers = some start) : IsDigits start := by
  obtain ⟨closer, hmem, hpart⟩ := exists_of_lastSet? hstart
  cases closer with
  | limit _ count => exact (h _ hmem).2 _ hpart
  | offset start =>
    cases hpart
    exact h _ hmem
  | _ => cases hpart

namespace Closing.Run

variable {host : Host} {atEnd : WalkM Unit} {closers before behind : List Closer} {key : String}
  {v v' : Closing}

/-- **The limit is the last one that is set.** -/
theorem limit_eq (h : Run host atEnd closers v v') :
    v'.limit = ((lastSet? Closer.count? closers).map (" LIMIT " ++ ·)).or v.limit := by
  induction h with
  | nil v => rfl
  | @cons closer closers v v' v'' hsets _ ih =>
    have hstep : v'.limit = (closer.count?.map (" LIMIT " ++ ·)).or v.limit := by
      cases closer with
      | group fields =>
        obtain ⟨_, -, rfl⟩ := hsets
        rfl
      | limit start count => cases start <;> exact hsets ▸ rfl
      | offset start => exact hsets ▸ rfl
      | paginate key =>
        obtain ⟨_, -, rfl⟩ := hsets
        rfl
    rw [ih, hstep, lastSet?_cons, Option.map_or, Option.or_assoc]

/-- Without a `paginate` the pages stay as they are, and the offset is the last one that is set. -/
theorem offset_eq (h : Run host atEnd closers v v') (hnone : ∀ other, .paginate other ∉ closers) :
    v'.pageKey = v.pageKey ∧ v'.pageSize = v.pageSize ∧
      v'.offset = ((lastSet? Closer.start? closers).map (" OFFSET " ++ ·)).or v.offset := by
  induction h with
  | nil v => exact ⟨rfl, rfl, rfl⟩
  | @cons closer closers v v' v'' hsets _ ih =>
    have hstep : v'.pageKey = v.pageKey ∧ v'.pageSize = v.pageSize ∧
        v'.offset = (closer.start?.map (" OFFSET " ++ ·)).or v.offset := by
      cases closer with
      | group fields =>
        obtain ⟨_, -, rfl⟩ := hsets
        exact ⟨rfl, rfl, rfl⟩
      | limit start count => cases start <;> exact hsets ▸ ⟨rfl, rfl, rfl⟩
      | offset start => exact hsets ▸ ⟨rfl, rfl, rfl⟩
      | paginate other => exact absurd List.mem_cons_self (hnone other)
    obtain ⟨hkey, hsize, hoffset⟩ := ih fun other hmem => hnone other (List.mem_cons_of_mem _ hmem)
    refine ⟨hkey.trans hstep.1, hsize.trans hstep.2.1, ?_⟩
    rw [hoffset, hstep.2.2, lastSet?_cons, Option.map_or, Option.or_assoc]

/-- **What the last `paginate` leaves.** The size of the pages is that of the last count in front of it,
and the offset is that of the page as long as no number takes its place. -/
theorem paged {group : Option String}
    (h : Run host atEnd (before ++ .paginate key :: behind) (.start group) v)
    (hcounted : ∀ closer ∈ before ++ .paginate key :: behind, closer.IsCounted)
    (hlast : ∀ other, .paginate other ∉ behind) :
    ∃ count, lastSet? Closer.count? before = some count ∧ v.pageKey = some key ∧
      v.pageSize = some (pageSizeOf count) ∧
      (v.offset = some (" OFFSET " ++ insertBind (Clause.pageOffset key (pageSizeOf count))) ↔
        ∀ closer ∈ behind, closer.start? = none) := by
  obtain ⟨paged, after, hbefore, ⟨size, hsize, rfl⟩, hbehind⟩ := h.of_append_cons
  rw [List.forall_mem_append, List.forall_mem_cons] at hcounted
  have hlimit := hbefore.limit_eq
  cases hcount : lastSet? Closer.count? before with
  | none =>
    rw [hcount] at hlimit
    rw [show paged.limit = none from hlimit] at hsize
    cases hsize
  | some count =>
    rw [hcount] at hlimit
    rw [show paged.limit = some (" LIMIT " ++ count) from hlimit] at hsize
    obtain rfl := (isDigits_of_lastCount hcounted.1 hcount).pageSize_eq hsize
    obtain ⟨hkey, hpageSize, hoffset⟩ := hbehind.offset_eq hlast
    refine ⟨count, rfl, hkey, hpageSize, ?_⟩
    rw [← lastSet?_eq_none_iff, hoffset]
    cases hstart : lastSet? Closer.start? behind with
    | none => simp
    | some start =>
      have hdigits := isDigits_of_lastStart hcounted.2.2 hstart
      simpa using hdigits.offset_ne_page key (pageSizeOf count)

end Closing.Run

/-! ## Compiled pages -/

/-- The limit of the options does not come in where there is one. -/
theorem Closing.limited_eq_self (v : Closing) {text : String} (h : v.limit = some text)
    (limit : Option Nat) : v.limited limit = v := by
  obtain ⟨group, limit, offset, pageKey, pageSize⟩ := v
  cases h
  rfl

/-- The pages that a query reports are those of its limit and its offset. -/
def Query.PagesMatch (q : Query) : Prop :=
  ∀ key size, q.pageKey = some key → q.pageSize = some size →
    (∃ count, IsDigits count ∧ q.limit = some (" LIMIT " ++ count) ∧ pageSizeOf count = size) ∧
      q.offset = some (" OFFSET " ++ insertBind (Clause.pageOffset key size))

/-- Behind the last `paginate` no number is set as an offset, and the limit stays one of pages of the same
size. -/
def PagesStand (closers : List Closer) : Prop :=
  ∀ before key behind, closers = before ++ .paginate key :: behind →
    (∀ other, .paginate other ∉ behind) →
      (∀ closer ∈ behind, closer.start? = none) ∧
        (lastSet? Closer.count? closers).map pageSizeOf = (lastSet? Closer.count? before).map pageSizeOf

/-- Clauses with a `paginate` have a last one. -/
theorem exists_last_paginate {closers : List Closer} (h : ∃ key, .paginate key ∈ closers) :
    ∃ before key behind, closers = before ++ .paginate key :: behind ∧
      ∀ other, .paginate other ∉ behind := by
  induction closers with
  | nil => simp at h
  | cons closer closers ih =>
    by_cases hmore : ∃ key, .paginate key ∈ closers
    · obtain ⟨before, key, behind, rfl, hlast⟩ := ih hmore
      exact ⟨closer :: before, key, behind, rfl, hlast⟩
    · obtain ⟨key, hkey⟩ := h
      have hcloser : .paginate key = closer :=
        (List.mem_cons.1 hkey).resolve_right fun hmem => hmore ⟨key, hmem⟩
      exact ⟨[], key, closers, by rw [← hcloser]; rfl, fun other hmem => hmore ⟨other, hmem⟩⟩

section Compiled

variable {catalog : Catalog} (h : catalog.Spares) {options : Options} {name source : String} {tree : Tree}
  {q : Query}

include h

/-- Where there is a last `paginate`, what it reports matches exactly if the clauses behind it let it be. -/
theorem Catalog.Spares.pagesMatch_iff_last {before behind : List Closer} {key : String}
    (hparse : parse source = .ok tree) (hcompile : catalog.compile options name source = .ok q)
    (hforce : tree.inForce = before ++ .paginate key :: behind) (hlast : ∀ other, .paginate other ∉ behind) :
    q.PagesMatch ↔ (∀ closer ∈ behind, closer.start? = none) ∧
      (lastSet? Closer.count? tree.inForce).map pageSizeOf =
        (lastSet? Closer.count? before).map pageSizeOf := by
  obtain ⟨group, v, hrun, hclosing⟩ := h.compile hparse hcompile
  have hcounted := isCounted_of_source (formed_of_parse hparse)
  have hlimit := hrun.limit_eq
  obtain ⟨count, hcount, hkey, hsize, hoffset⟩ :=
    (hforce ▸ hrun).paged (hforce ▸ hcounted) hlast
  obtain ⟨last, hlastCount⟩ : ∃ last, lastSet? Closer.count? tree.inForce = some last := by
    rw [hforce, lastSet?_append, ← Option.isSome_iff_exists, Option.isSome_or, hcount]
    exact Bool.or_true _
  rw [hlastCount] at hlimit
  rw [v.limited_eq_self hlimit] at hclosing
  have hpageKey : q.pageKey = some key := (congrArg Closing.pageKey hclosing).trans hkey
  have hpageSize : q.pageSize = some (pageSizeOf count) := (congrArg Closing.pageSize hclosing).trans hsize
  have hquery : q.limit = some (" LIMIT " ++ last) := (congrArg Closing.limit hclosing).trans hlimit
  rw [← hoffset, ← show q.offset = v.offset from congrArg Closing.offset hclosing, hlastCount, hcount,
    Option.map_some, Option.map_some, Option.some_inj]
  constructor
  · intro hmatch
    obtain ⟨⟨count', -, hcount', hsize'⟩, hpage⟩ := hmatch _ _ hpageKey hpageSize
    rw [hquery, Option.some_inj, String.append_right_inj] at hcount'
    exact ⟨hpage, hcount' ▸ hsize'⟩
  · rintro ⟨hpage, hsame⟩ key' size' hkey' hsize'
    obtain rfl := Option.some.inj (hpageKey.symm.trans hkey')
    obtain rfl := Option.some.inj (hpageSize.symm.trans hsize')
    exact ⟨⟨last, isDigits_of_lastCount hcounted hlastCount, hquery, hsame⟩, hpage⟩

/-- **When reported pages match.** The key and the size that a compiled query reports are those of its
limit and its offset exactly if nothing behind the last `paginate` changes the size or sets an offset. -/
theorem Catalog.Spares.pagesMatch_iff (hparse : parse source = .ok tree)
    (hcompile : catalog.compile options name source = .ok q) :
    q.PagesMatch ↔ PagesStand tree.inForce := by
  constructor
  · intro hmatch before key behind hforce hlast
    exact (h.pagesMatch_iff_last hparse hcompile hforce hlast).1 hmatch
  · intro hstand key size hkey hsize
    have hpaginate : ∃ key, .paginate key ∈ tree.inForce := by
      by_contra hnone
      obtain ⟨group, v, hrun, hclosing⟩ := h.compile hparse hcompile
      obtain ⟨hnoKey, -⟩ := hrun.offset_eq fun other hmem => hnone ⟨other, hmem⟩
      rw [show q.pageKey = none from (congrArg Closing.pageKey hclosing).trans hnoKey] at hkey
      cases hkey
    obtain ⟨before, last, behind, hforce, hlast⟩ := exists_last_paginate hpaginate
    exact (h.pagesMatch_iff_last hparse hcompile hforce hlast).2 (hstand _ _ _ hforce hlast) key size
      hkey hsize

end Compiled

/-- The page of ten objects that a parameter numbers. -/
def pageOfTen (key : String) : Tree :=
  .node .paginate [.node .limit [.leaf .relation "objects", .leaf .integer "10"], .leaf .param key]

/-- A limit with a `paginate` behind it. -/
theorem pagesMatch_ten :
    ∃ q, (columnCatalog ("objects." ++ ·)).compile {} "objects" "objects limit 10 paginate page" = .ok q ∧
      q.pageKey = some "page" ∧ q.pageSize = some 10 ∧ q.PagesMatch := by
  have hparse : parse "objects limit 10 paginate page" = .ok (.node .query [pageOfTen "page"]) := by decide +kernel
  obtain ⟨q, hcompile, hkey, hsize⟩ : ∃ q, (columnCatalog ("objects." ++ ·)).compile {} "objects"
      "objects limit 10 paginate page" = .ok q ∧ q.pageKey = some "page" ∧ q.pageSize = some 10 :=
    ⟨_, Catalog.compile_of_run rfl hparse rfl, by decide +kernel, by decide +kernel⟩
  refine ⟨q, hcompile, hkey, hsize,
    ((spares_columnCatalog ("objects." ++ ·)).pagesMatch_iff hparse hcompile).2 ?_⟩
  intro before key behind hforce hlast
  have hclauses : (Tree.node .query [pageOfTen "page"]).inForce = [.limit none "10", .paginate "page"] := rfl
  rw [hclauses] at hforce ⊢
  cases before with
  | nil => cases hforce
  | cons first before =>
    rw [List.cons_append, List.cons.injEq, List.cons_eq_append_iff] at hforce
    obtain ⟨rfl, ⟨rfl, hpage⟩ | ⟨_, -, hnil⟩⟩ := hforce
    · cases hpage
      exact ⟨fun _ hmem => absurd hmem List.not_mem_nil, rfl⟩
    · simp at hnil

/-- **A limit behind the pages changes the number of records, not the size that is reported.** -/
theorem limit_behind_pages :
    ∃ q, (columnCatalog ("objects." ++ ·)).compile {} "objects" "objects limit 10 paginate p limit 5" =
        .ok q ∧
      q.limit = some " LIMIT 5" ∧ q.offset = some " OFFSET [[(max(p,1)-1)*10]]" ∧
      q.pageKey = some "p" ∧ q.pageSize = some 10 ∧ ¬ q.PagesMatch := by
  have hparse : parse "objects limit 10 paginate p limit 5" =
      .ok (.node .query [.node .limit [pageOfTen "p", .leaf .integer "5"]]) := by decide +kernel
  obtain ⟨q, hcompile, hlimit, hoffset, hkey, hsize⟩ : ∃ q, (columnCatalog ("objects." ++ ·)).compile {}
      "objects" "objects limit 10 paginate p limit 5" = .ok q ∧ q.limit = some (" LIMIT " ++ "5") ∧
        q.offset = some " OFFSET [[(max(p,1)-1)*10]]" ∧ q.pageKey = some "p" ∧ q.pageSize = some 10 :=
    ⟨_, Catalog.compile_of_run rfl hparse rfl, by decide +kernel, by decide +kernel, by decide +kernel,
      by decide +kernel⟩
  refine ⟨q, hcompile, hlimit, hoffset, hkey, hsize, fun hmatch => ?_⟩
  obtain ⟨⟨count, -, hcount, hten⟩, -⟩ := hmatch _ _ hkey hsize
  rw [hlimit, Option.some_inj, String.append_right_inj] at hcount
  subst hcount
  exact absurd hten (by decide)

end RelationSql
