import Mathlib.Tactic.SplitIfs
import RelationSql.Json.Reader

/-!
# The members of an object that was read

Whatever a text says, the value read from it is in order (`ordered_of_parse?`): every object in it, however
deep it lies, lists its members by ascending keys, each key once. Keys ascend by their bytes in UTF-8
(`keyBytes_lt_iff`).
-/

namespace RelationSql

namespace Dictionary

/-! ## The order of keys -/

/-- The bytes of a key in UTF-8. -/
def keyBytes (key : String) : List UInt8 :=
  key.toByteArray.data.toList

theorem keyBytes_eq_flatMap (key : String) :
    keyBytes key = key.toList.flatMap String.utf8EncodeChar := by
  have hkey : key.toByteArray = key.toList.utf8Encode := by
    rw [← String.toByteArray_ofList, String.ofList_toList]
  simp [keyBytes, hkey, List.utf8Encode]

/-- Of two characters the smaller has the smaller bytes, whatever follows on them. -/
theorem utf8EncodeChar_append_lt {c d : Char} (h : c < d) (s t : List UInt8) :
    String.utf8EncodeChar c ++ s < String.utf8EncodeChar d ++ t := by
  have hcd : c.val.toNat < d.val.toNat := h
  have hd : d.val.toNat < 0x110000 := by
    have := d.valid
    simp only [UInt32.isValidChar, Nat.isValidChar] at this
    omega
  revert hcd hd
  simp only [String.utf8EncodeChar]
  generalize c.val.toNat = v
  generalize d.val.toNat = w
  intro hcd hd
  -- the digits to the base 64, so that those of one number are those of the next with one more
  have hv : v / 4096 = v / 64 / 64 ∧ v / 262144 = v / 64 / 64 / 64 := by
    simp only [Nat.div_div_eq_div_mul, and_self]
  have hw : w / 4096 = w / 64 / 64 ∧ w / 262144 = w / 64 / 64 / 64 := by
    simp only [Nat.div_div_eq_div_mul, and_self]
  rw [hv.1, hv.2, hw.1, hw.2]
  -- one case for each pair of lengths; in those with the longer one first `h` fails
  split_ifs <;>
    simp only [List.cons_append, List.nil_append, List.cons_lt_cons_iff, UInt8.lt_iff_toNat_lt,
      ← UInt8.toNat_inj, UInt8.toNat_ofNat'] <;>
    simp (disch := omega) only [Nat.mod_eq_of_lt] <;>
    omega

theorem flatMap_utf8EncodeChar_lt {cs ds : List Char} (h : cs < ds) :
    cs.flatMap String.utf8EncodeChar < ds.flatMap String.utf8EncodeChar := by
  induction h with
  | @nil d ds =>
    rw [List.flatMap_cons, List.flatMap_nil]
    simp only [String.utf8EncodeChar]
    split_ifs <;> exact List.Lex.nil
  | rel h =>
    rw [List.flatMap_cons, List.flatMap_cons]
    exact utf8EncodeChar_append_lt h _ _
  | cons h ih =>
    rw [List.flatMap_cons, List.flatMap_cons]
    exact List.append_left_lt ih

/-- **Keys ascend by their bytes.** -/
theorem keyBytes_lt_iff {a b : String} : keyBytes a < keyBytes b ↔ a < b := by
  have hmono {a b : String} (h : a < b) : keyBytes a < keyBytes b := by
    rw [keyBytes_eq_flatMap, keyBytes_eq_flatMap]
    exact flatMap_utf8EncodeChar_lt h
  constructor
  · intro h
    rcases Std.lt_trichotomy a b with hab | rfl | hba
    · exact hab
    · exact absurd h (List.lt_irrefl _)
    · exact absurd (hmono hba) (Std.not_gt_of_lt h)
  · exact hmono

/-! ## Entries that were set -/

variable {α : Type}

/-- An entry after several insertions is one of them or an old one. -/
theorem mem_foldl_insert {entries : List (String × α)} {d : Dictionary α} {entry : String × α}
    (h : entry ∈ (entries.foldl (fun d entry => d.insert entry.1 entry.2) d).entries) :
    entry ∈ entries ∨ entry ∈ d.entries := by
  induction entries generalizing d with
  | nil => exact .inr h
  | cons first entries ih =>
    rcases ih h with hmem | hmem
    · exact .inl (List.mem_cons_of_mem _ hmem)
    · rcases mem_insertIn hmem with rfl | hmem
      · exact .inl List.mem_cons_self
      · exact .inr hmem

end Dictionary

namespace Json

/-! ## Values in order -/

/-- The members of every object in the value stand in ascending order of their keys, each key once. -/
inductive Ordered : Json → Prop where
  | scalar {value : Json} (noArray : value.array? = none) (noObject : value.object? = none) :
      Ordered value
  | array {items : List Json} (inner : ∀ item ∈ items, Ordered item) : Ordered (.array items)
  | object {members : List (String × Json)} (ascending : members.Pairwise fun a b => a.1 < b.1)
      (inner : ∀ member ∈ members, Ordered member.2) : Ordered (.object members)

/-- The members of an ordered object ascend. -/
theorem Ordered.members {value : Json} (h : value.Ordered) {members : List (String × Json)}
    (hobject : value = .object members) : members.Pairwise fun a b => a.1 < b.1 := by
  cases h with
  | scalar _ noObject => simp [hobject, object?] at noObject
  | array inner => cases hobject
  | object ascending inner =>
    cases hobject
    exact ascending

/-- What stands in an ordered object is ordered. -/
theorem Ordered.inner {value : Json} (h : value.Ordered) {members : List (String × Json)}
    (hobject : value = .object members) : ∀ member ∈ members, member.2.Ordered := by
  cases h with
  | scalar _ noObject => simp [hobject, object?] at noObject
  | array inner => cases hobject
  | object ascending inner =>
    cases hobject
    exact inner

/-- Members in the order of a text make an ordered object. -/
theorem ordered_ofMembers {members : List (String × Json)} (h : ∀ member ∈ members, Ordered member.2) :
    Ordered (ofMembers members) := by
  refine .object (Dictionary.ofList members).ascending ?_
  intro member hmem
  rcases Dictionary.mem_foldl_insert hmem with hmem | hmem
  · exact h member hmem
  · cases hmem

/-! ## Tokens -/

/-- The value of the token, if it has one, is ordered. -/
def Token.Ordered (token : Token) : Prop :=
  ∀ value, token = .scalar value → value.Ordered

/-- The value is a number. -/
def IsNumber (value : Json) : Prop :=
  (∃ n, value = .integer n) ∨ ∃ bits, value = .float bits

theorem IsNumber.ordered {value : Json} (h : IsNumber value) : value.Ordered := by
  rcases h with ⟨n, rfl⟩ | ⟨bits, rfl⟩
  · exact .scalar rfl rfl
  · exact .scalar rfl rfl

theorem isNumber_of_float? {negative : Bool} {significand : Nat} {exponent : Int} {value : Json}
    (h : float? negative significand exponent = some value) : IsNumber value := by
  obtain ⟨units, -, rfl⟩ := Option.map_eq_some_iff.1 h
  exact .inr ⟨_, rfl⟩

theorem isNumber_of_whole {negative : Bool} {significand : Nat} {value : Json}
    (h : whole negative significand = some value) : IsNumber value := by
  rw [whole] at h
  split at h
  · cases h
    exact .inl ⟨_, rfl⟩
  · split at h
    · cases h
      exact .inl ⟨_, rfl⟩
    · exact isNumber_of_float? h

theorem isNumber_of_finishFloat {negative : Bool} {d : Digits} {text : List Char}
    {read : Json × List Char} (h : finishFloat negative d text = some read) : IsNumber read.1 := by
  rw [finishFloat.eq_def] at h
  split at h
  · split at h
    · simp only [Option.bind_eq_bind, Option.bind_eq_some_iff, Option.pure_def, Option.some.injEq] at h
      obtain ⟨_, _, value, hvalue, rfl⟩ := h
      exact isNumber_of_float? hvalue
    · obtain ⟨value, hvalue, rfl⟩ := Option.map_eq_some_iff.1 h
      exact isNumber_of_float? hvalue
  · obtain ⟨value, hvalue, rfl⟩ := Option.map_eq_some_iff.1 h
    exact isNumber_of_float? hvalue

theorem isNumber_of_finishNumber {negative : Bool} {d : Digits} {text : List Char}
    {read : Json × List Char} (h : finishNumber negative d text = some read) : IsNumber read.1 := by
  rw [finishNumber.eq_def] at h
  split at h
  · split at h
    · cases h
    · exact isNumber_of_finishFloat h
  · split at h
    · exact isNumber_of_finishFloat h
    · obtain ⟨value, hvalue, rfl⟩ := Option.map_eq_some_iff.1 h
      exact isNumber_of_whole hvalue
  · split at h
    · exact isNumber_of_finishFloat h
    · obtain ⟨value, hvalue, rfl⟩ := Option.map_eq_some_iff.1 h
      exact isNumber_of_whole hvalue

/-- What is read as a number is one. -/
theorem isNumber_of_readNumber {text : List Char} {read : Json × List Char}
    (h : readNumber text = some read) : IsNumber read.1 := by
  have hunsigned (negative : Bool) (text : List Char) (h : readUnsigned negative text = some read) :
      IsNumber read.1 := by
    rw [readUnsigned] at h
    split at h
    · cases h
    · exact isNumber_of_finishNumber h
    · cases h
    · exact isNumber_of_finishNumber h
  rw [readNumber.eq_def] at h
  split at h
  · exact hunsigned true _ h
  · exact hunsigned false _ h

theorem ordered_of_readWord {word : String} {value : Json} {text : List Char}
    {read : Token × List Char} (hvalue : value.Ordered) (h : readWord word value text = some read) :
    read.1.Ordered := by
  obtain ⟨rest, -, rfl⟩ := Option.map_eq_some_iff.1 h
  rintro _ ⟨⟩
  exact hvalue

/-- **A token that is read holds no value out of order.** -/
theorem ordered_of_readToken {c : Char} {cs : List Char} {read : Token × List Char}
    (h : readToken c cs = some read) : read.1.Ordered := by
  rw [readToken.eq_def] at h
  split at h
  case h_7 =>
    obtain ⟨parts, -, rfl⟩ := Option.map_eq_some_iff.1 h
    rintro _ ⟨⟩
    exact .scalar rfl rfl
  case h_8 => exact ordered_of_readWord (.scalar rfl rfl) h
  case h_9 => exact ordered_of_readWord (.scalar rfl rfl) h
  case h_10 => exact ordered_of_readWord (.scalar rfl rfl) h
  case h_11 =>
    obtain ⟨parts, hnumber, rfl⟩ := Option.map_eq_some_iff.1 h
    rintro _ ⟨⟩
    exact (isNumber_of_readNumber hnumber).ordered
  -- brackets, commas and colons hold no value
  all_goals
    cases h
    rintro _ ⟨⟩

theorem ordered_of_tokens? {text : List Char} {tokens : List Token} (h : tokens? text = some tokens) :
    ∀ token ∈ tokens, token.Ordered := by
  fun_induction tokens? text generalizing tokens with
  | case1 => cases h; simp
  | case2 => cases h
  | case3 text c cs htext token rest hread hshorter ih =>
    obtain ⟨more, hmore, rfl⟩ := Option.map_eq_some_iff.1 h
    exact List.forall_mem_cons.2 ⟨ordered_of_readToken hread, ih hmore⟩
  | case4 => cases h

/-! ## The machine -/

/-- The values in an unfinished array or object are ordered. -/
def Waiting.Ordered : Waiting → Prop
  | .array items => ∀ item ∈ items, item.Ordered
  | .object _ members => ∀ member ∈ members, member.2.Ordered

/-- The values that were read so far are ordered. -/
def Mode.Ordered : Mode → Prop
  | .value => True
  | .item items | .afterItem items => ∀ item ∈ items, item.Ordered
  | .key members | .colon members _ | .afterMember members => ∀ member ∈ members, member.2.Ordered
  | .done result => result.Ordered

/-- A machine that holds no value out of order. -/
structure Machine.Ordered (m : Machine) : Prop where
  mode : m.mode.Ordered
  waiting : ∀ w ∈ m.waiting, w.Ordered

variable {m m' : Machine} {value : Json} {waiting : List Waiting} {token : Token}

/-- An ordered value is handed to what waits for it. -/
theorem ordered_complete (hvalue : value.Ordered) (hwaiting : ∀ w ∈ waiting, w.Ordered) :
    (complete value waiting).Ordered := by
  cases waiting with
  | nil => exact ⟨hvalue, hwaiting⟩
  | cons first waiting =>
    rw [List.forall_mem_cons] at hwaiting
    cases first with
    | array items => exact ⟨List.forall_mem_cons.2 ⟨hvalue, hwaiting.1⟩, hwaiting.2⟩
    | object key members => exact ⟨List.forall_mem_cons.2 ⟨hvalue, hwaiting.1⟩, hwaiting.2⟩

theorem ordered_startValue (htoken : token.Ordered) (hwaiting : ∀ w ∈ waiting, w.Ordered)
    (h : startValue waiting token = some m) : m.Ordered := by
  have hempty {w : Mode} (hw : w.Ordered) : Machine.Ordered ⟨w, waiting⟩ := ⟨hw, hwaiting⟩
  cases token with
  | openArray =>
    simp only [startValue, Option.ite_none_right_eq_some, Option.some.injEq] at h
    obtain ⟨-, rfl⟩ := h
    apply hempty
    simp [Mode.Ordered]
  | openObject =>
    simp only [startValue, Option.ite_none_right_eq_some, Option.some.injEq] at h
    obtain ⟨-, rfl⟩ := h
    apply hempty
    simp [Mode.Ordered]
  | scalar value =>
    cases h
    exact ordered_complete (htoken value rfl) hwaiting
  | closeArray | closeObject | comma | colon => cases h

/-- **One token keeps the machine in order.** -/
theorem Machine.Ordered.step (hm : m.Ordered) (htoken : token.Ordered)
    (h : m.step token = some m') : m'.Ordered := by
  obtain ⟨mode, waiting⟩ := m
  obtain ⟨hmode, hwaiting⟩ := hm
  cases mode with
  | value => exact ordered_startValue htoken hwaiting h
  | item items =>
    -- every token but a closing bracket starts an item, for which the items so far wait
    have hstart (h : startValue (.array items :: waiting) token = some m') : m'.Ordered := by
      refine ordered_startValue htoken ?_ h
      exact List.forall_mem_cons.2 ⟨hmode, hwaiting⟩
    cases token with
    | closeArray =>
      cases items with
      | nil =>
        cases h
        exact ordered_complete (.array (by simp)) hwaiting
      | cons item items => exact hstart h
    | _ => exact hstart h
  | afterItem items =>
    cases token with
    | comma =>
      cases h
      exact ⟨hmode, hwaiting⟩
    | closeArray =>
      cases h
      refine ordered_complete (.array ?_) hwaiting
      intro item hmem
      exact hmode item (List.mem_reverse.1 hmem)
    | _ => cases h
  | key members =>
    cases token with
    | closeObject =>
      cases members with
      | nil =>
        cases h
        exact ordered_complete (.object List.Pairwise.nil (by simp)) hwaiting
      | cons member members => cases h
    | scalar value =>
      cases value with
      | string key =>
        cases h
        exact ⟨hmode, hwaiting⟩
      | _ => cases h
    | _ => cases h
  | colon members key =>
    cases token with
    | colon =>
      cases h
      exact ⟨trivial, List.forall_mem_cons.2 ⟨hmode, hwaiting⟩⟩
    | _ => cases h
  | afterMember members =>
    cases token with
    | comma =>
      cases h
      exact ⟨hmode, hwaiting⟩
    | closeObject =>
      cases h
      refine ordered_complete (ordered_ofMembers ?_) hwaiting
      intro member hmem
      exact hmode member (List.mem_reverse.1 hmem)
    | _ => cases h
  | done value => cases h

/-- Tokens keep the machine in order. -/
theorem Machine.Ordered.run (hm : m.Ordered) {tokens : List Token}
    (htokens : ∀ token ∈ tokens, token.Ordered) (h : tokens.foldlM Machine.step m = some m') :
    m'.Ordered := by
  induction tokens generalizing m with
  | nil =>
    cases h
    exact hm
  | cons token tokens ih =>
    rw [List.forall_mem_cons] at htokens
    rw [List.foldlM_cons] at h
    obtain ⟨next, hnext, hrest⟩ := Option.bind_eq_some_iff.1 h
    exact ih (hm.step htokens.1 hnext) htokens.2 hrest

/-- **Every value that a text says is ordered**, with all values in it. -/
theorem ordered_of_parse? {text : String} (h : parse? text = some value) : value.Ordered := by
  rw [parse?] at h
  obtain ⟨tokens, htokens, h⟩ := Option.bind_eq_some_iff.1 h
  obtain ⟨m, hrun, h⟩ := Option.bind_eq_some_iff.1 h
  have hstart : Machine.Ordered ⟨.value, []⟩ := ⟨trivial, by simp⟩
  have hm := hstart.run (ordered_of_tokens? htokens) hrun
  obtain ⟨mode, waiting⟩ := m
  cases mode with
  | done value =>
    cases h
    exact hm.mode
  | _ => cases h

end Json

end RelationSql
