/-!
# Dictionaries

A dictionary maps texts to values. Its entries are kept in ascending order of their keys, each key
once, so the order in which it is listed is fixed and two dictionaries that answer every lookup
alike are equal (`Dictionary.ext_find?`).
-/

namespace RelationSql

universe u

/-- Entries by ascending key. -/
structure Dictionary (α : Type u) where
  entries : List (String × α)
  ascending : entries.Pairwise fun a b => a.1 < b.1

namespace Dictionary

variable {α : Type u}

/-- Equal entries make equal dictionaries. -/
theorem ext_entries {d e : Dictionary α} (h : d.entries = e.entries) : d = e := by
  cases d
  cases e
  cases h
  rfl

instance [DecidableEq α] : DecidableEq (Dictionary α) := fun d e =>
  if h : d.entries = e.entries then isTrue (ext_entries h) else isFalse fun k => h (k ▸ rfl)

/-- The dictionary without entries. -/
def empty : Dictionary α := ⟨[], List.Pairwise.nil⟩

instance : Inhabited (Dictionary α) := ⟨empty⟩

/-! ## Lookup -/

/-- The value of the first entry with this key. -/
def findIn (key : String) : List (String × α) → Option α
  | [] => none
  | (k, value) :: entries => if k = key then some value else findIn key entries

/-- The value of a key. -/
def find? (d : Dictionary α) (key : String) : Option α :=
  findIn key d.entries

/-- The value of a key, or a default. -/
def findD (d : Dictionary α) (key : String) (fallback : α) : α :=
  (d.find? key).getD fallback

/-- The keys in ascending order. -/
def keys (d : Dictionary α) : List String :=
  d.entries.map Prod.fst

/-- Does the dictionary hold no entry? -/
def isEmpty (d : Dictionary α) : Bool :=
  d.entries.isEmpty

/-! ## Insertion -/

/-- Sets the value of a key in a list of ascending entries. -/
def insertIn (key : String) (value : α) : List (String × α) → List (String × α)
  | [] => [(key, value)]
  | (k, old) :: entries =>
    if key < k then (key, value) :: (k, old) :: entries
    else if key = k then (key, value) :: entries
    else (k, old) :: insertIn key value entries

/-- An entry after an insertion is the new one or an old one. -/
theorem mem_insertIn {key : String} {value : α} {entry : String × α}
    {entries : List (String × α)} (h : entry ∈ insertIn key value entries) :
    entry = (key, value) ∨ entry ∈ entries := by
  induction entries with
  | nil => exact Or.inl (List.mem_singleton.1 h)
  | cons first entries ih =>
    obtain ⟨k, old⟩ := first
    rw [insertIn] at h
    split at h
    · exact (List.mem_cons.1 h).imp_right fun m => m
    · split at h
      · exact (List.mem_cons.1 h).imp_right fun m => List.mem_cons_of_mem _ m
      · rcases List.mem_cons.1 h with m | m
        · exact Or.inr (m ▸ List.mem_cons_self)
        · exact (ih m).imp_right fun m => List.mem_cons_of_mem _ m

/-- Insertion keeps the entries ascending. -/
theorem ascending_insertIn (key : String) (value : α) {entries : List (String × α)}
    (h : entries.Pairwise fun a b => a.1 < b.1) :
    (insertIn key value entries).Pairwise fun a b => a.1 < b.1 := by
  induction entries with
  | nil => exact List.pairwise_singleton _ _
  | cons first entries ih =>
    obtain ⟨k, old⟩ := first
    obtain ⟨hfirst, hrest⟩ := List.pairwise_cons.1 h
    rw [insertIn]
    split
    · next hlt =>
      refine List.pairwise_cons.2 ⟨fun entry m => ?_, h⟩
      rcases List.mem_cons.1 m with rfl | m
      · exact hlt
      · exact String.lt_trans hlt (hfirst entry m)
    · next hlt =>
      split
      · next heq =>
        subst heq
        exact List.pairwise_cons.2 ⟨hfirst, hrest⟩
      · next hne =>
        refine List.pairwise_cons.2 ⟨fun entry m => ?_, ih hrest⟩
        rcases mem_insertIn m with rfl | m
        · rcases Std.lt_trichotomy key k with hk | hk | hk
          · exact absurd hk hlt
          · exact absurd hk hne
          · exact hk
        · exact hfirst entry m

/-- Sets the value of a key. -/
def insert (d : Dictionary α) (key : String) (value : α) : Dictionary α :=
  ⟨insertIn key value d.entries, ascending_insertIn key value d.ascending⟩

/-- Sets the value of a key from the value it has, if any. -/
def alter (d : Dictionary α) (key : String) (f : Option α → α) : Dictionary α :=
  d.insert key (f (d.find? key))

/-- Sets the value of a key that has none. -/
def insertNew (d : Dictionary α) (key : String) (value : α) : Dictionary α :=
  match d.find? key with
  | some _ => d
  | none => d.insert key value

/-- The dictionary of a list of entries; of two with one key the later counts. -/
def ofList (entries : List (String × α)) : Dictionary α :=
  entries.foldl (fun d entry => d.insert entry.1 entry.2) empty

/-! ## Laws -/

/-- **Looking up a key after it was set.** -/
theorem find?_insert_self (d : Dictionary α) (key : String) (value : α) :
    (d.insert key value).find? key = some value := by
  simp only [find?, insert]
  induction d.entries with
  | nil => simp [insertIn, findIn]
  | cons first entries ih =>
    obtain ⟨k, old⟩ := first
    rw [insertIn]
    split
    · simp [findIn]
    · split
      · simp [findIn]
      · next hne => simp [findIn, Ne.symm hne, ih]

/-- **Looking up another key than the one that was set.** -/
theorem find?_insert_ne (d : Dictionary α) {key other : String} (value : α) (h : key ≠ other) :
    (d.insert key value).find? other = d.find? other := by
  simp only [find?, insert]
  induction d.entries with
  | nil => simp [insertIn, findIn, h]
  | cons first entries ih =>
    obtain ⟨k, old⟩ := first
    rw [insertIn]
    split
    · simp [findIn, h]
    · split
      · next heq =>
        subst heq
        simp [findIn, h]
      · by_cases hk : k = other
        · simp [findIn, hk]
        · simp [findIn, hk, ih]

/-- **Looking up any key after one was set.** -/
theorem find?_insert (d : Dictionary α) (key other : String) (value : α) :
    (d.insert key value).find? other = if key = other then some value else d.find? other := by
  split
  · next h => rw [← h, find?_insert_self]
  · next h => exact find?_insert_ne d value h

@[simp] theorem find?_empty (key : String) : (empty : Dictionary α).find? key = none := rfl

/-- Looking up any key after one was altered. -/
theorem find?_alter (d : Dictionary α) (key other : String) (f : Option α → α) :
    (d.alter key f).find? other = if key = other then some (f (d.find? key)) else d.find? other :=
  find?_insert d key other _

/-- Looking up any key after one was given a value if it had none. -/
theorem find?_insertNew (d : Dictionary α) (key other : String) (value : α) :
    (d.insertNew key value).find? other =
      if key = other then some ((d.find? key).getD value) else d.find? other := by
  unfold insertNew
  split
  · next old hold =>
    split
    · next h => rw [← h, hold]; rfl
    · rfl
  · next hnone => rw [find?_insert, hnone]; rfl

/-- A key found in a list of entries belongs to one of them. -/
theorem mem_of_findIn {key : String} {value : α} {entries : List (String × α)}
    (h : findIn key entries = some value) : (key, value) ∈ entries := by
  induction entries with
  | nil => cases h
  | cons first entries ih =>
    obtain ⟨k, old⟩ := first
    rw [findIn] at h
    split at h
    · next hk =>
      cases h
      subst hk
      exact List.mem_cons_self
    · exact List.mem_cons_of_mem _ (ih h)

/-- Below the first key of ascending entries nothing is found. -/
theorem findIn_eq_none {key : String} {entries : List (String × α)}
    (h : ∀ entry ∈ entries, key < entry.1) : findIn key entries = none := by
  cases hf : findIn key entries with
  | none => rfl
  | some value => exact absurd (h _ (mem_of_findIn hf)) (String.lt_irrefl _)

/-- Ascending entries that answer every lookup alike are equal. -/
theorem eq_of_findIn_eq {xs ys : List (String × α)}
    (hx : xs.Pairwise fun a b => a.1 < b.1) (hy : ys.Pairwise fun a b => a.1 < b.1)
    (h : ∀ key, findIn key xs = findIn key ys) : xs = ys := by
  induction xs generalizing ys with
  | nil =>
    cases ys with
    | nil => rfl
    | cons y ys => have := h y.1; simp [findIn] at this
  | cons x xs ih =>
    cases ys with
    | nil => have := h x.1; simp [findIn] at this
    | cons y ys =>
      obtain ⟨k, v⟩ := x
      obtain ⟨l, w⟩ := y
      obtain ⟨hxk, hxs⟩ := List.pairwise_cons.1 hx
      obtain ⟨hyl, hys⟩ := List.pairwise_cons.1 hy
      rcases Std.lt_trichotomy k l with hlt | heq | hgt
      · have hk : findIn k ((l, w) :: ys) = none := findIn_eq_none fun entry m => by
          rcases List.mem_cons.1 m with rfl | m
          · exact hlt
          · exact String.lt_trans hlt (hyl entry m)
        rw [← h k] at hk
        simp [findIn] at hk
      · subst heq
        have hv := h k
        simp only [findIn, if_true, Option.some.injEq] at hv
        subst hv
        congr 1
        refine ih hxs hys fun key => ?_
        have hkey := h key
        by_cases hk : k = key
        · subst hk
          rw [findIn_eq_none hxk, findIn_eq_none hyl]
        · simpa [findIn, hk] using hkey
      · have hl : findIn l ((k, v) :: xs) = none := findIn_eq_none fun entry m => by
          rcases List.mem_cons.1 m with rfl | m
          · exact hgt
          · exact String.lt_trans hgt (hxk entry m)
        rw [h l] at hl
        simp [findIn] at hl

/-- **Dictionaries that answer every lookup alike are equal.** -/
theorem ext_find? {d e : Dictionary α} (h : ∀ key, d.find? key = e.find? key) : d = e :=
  ext_entries (eq_of_findIn_eq d.ascending e.ascending h)

end Dictionary

end RelationSql
