/-!
# Byte ranges of a source text

Positions in a source text are byte offsets of its UTF-8 form. `bytes` measures a run of
characters, `dropBytes` cuts a prefix of a given size off a text, and a `Span` is a half-open range
of offsets.
-/

namespace RelationSql.Source

/-- The size of a run of characters in UTF-8. -/
def bytes : List Char → Nat
  | [] => 0
  | c :: cs => c.utf8Size + bytes cs

@[simp] theorem bytes_nil : bytes [] = 0 := rfl

@[simp] theorem bytes_cons (c : Char) (cs : List Char) :
    bytes (c :: cs) = c.utf8Size + bytes cs := rfl

/-- **The size of a concatenation.** -/
@[simp] theorem bytes_append (xs ys : List Char) : bytes (xs ++ ys) = bytes xs + bytes ys := by
  induction xs with
  | nil => simp
  | cons c cs ih => simp [ih, Nat.add_assoc]

/-- Every run with a character in it has a size. -/
theorem bytes_pos {xs : List Char} (h : xs ≠ []) : 0 < bytes xs := by
  cases xs with
  | nil => exact absurd rfl h
  | cons c cs => exact Nat.lt_of_lt_of_le c.utf8Size_pos (Nat.le_add_right _ _)

/-- What follows the first `count` bytes; nothing if that point lies past the end or inside a
character. -/
def dropBytes : Nat → List Char → List Char
  | 0, cs => cs
  | _ + 1, [] => []
  | count + 1, c :: cs =>
    if c.utf8Size ≤ count + 1 then dropBytes (count + 1 - c.utf8Size) cs else []

/-- **Cutting off a prefix by its size leaves what follows it.** -/
theorem dropBytes_append (xs ys : List Char) : dropBytes (bytes xs) (xs ++ ys) = ys := by
  induction xs with
  | nil => cases ys <;> rfl
  | cons c cs ih =>
    obtain ⟨n, hn⟩ : ∃ n, c.utf8Size + bytes cs = n + 1 :=
      Nat.exists_eq_succ_of_ne_zero (Nat.ne_of_gt (Nat.add_pos_left c.utf8Size_pos _))
    rw [bytes_cons, hn, List.cons_append, dropBytes, ← hn, if_pos (Nat.le_add_right _ _),
      Nat.add_sub_cancel_left, ih]

/-- A half-open range of byte offsets. -/
structure Span where
  start : Nat
  stop : Nat
  deriving DecidableEq, Repr, Inhabited

namespace Span

/-- The number of bytes in the range. -/
def size (span : Span) : Nat :=
  span.stop - span.start

/-- Does the range hold no byte? -/
def isEmpty (span : Span) : Bool :=
  span.start == span.stop

/-- Does `other` start exactly where `span` stops? -/
def touches (span other : Span) : Bool :=
  span.stop == other.start

/-- The smallest range that covers both. -/
def merge (span other : Span) : Span :=
  ⟨min span.start other.start, max span.stop other.stop⟩

/-- The same range in a text that has `count` more bytes in front. -/
def shift (count : Nat) (span : Span) : Span :=
  ⟨count + span.start, count + span.stop⟩

/-- The text from the start of the range on. -/
def remainder (span : Span) (source : String) : String :=
  String.ofList (dropBytes span.start source.toList)

end Span

end RelationSql.Source
