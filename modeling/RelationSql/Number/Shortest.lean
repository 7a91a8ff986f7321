import RelationSql.Number.Binary64

/-!
# Shortest decimals

All real numbers strictly nearer to a double precision number than to its neighbours round back to
it; the two ends of that interval do so too if the mantissa is even. `shortest` finds the decimal with
the fewest digits in that interval. It walks through the decimal grids `… 100, 10, 1, 0.1 …` from
coarse to fine and looks at the two points of each grid next to the number: the first grid with a
point in the interval wins, and of two points the nearer one.
-/

namespace RelationSql.Number

/-- Which of two equally near decimals is taken. -/
inductive Tie where
  | up
  | toEven
  deriving DecidableEq, Repr

/-- A decimal number `digits * 10 ^ exponent`. -/
structure Decimal where
  digits : Nat
  exponent : Int
  deriving DecidableEq, Repr

/-- Does a point, counted like the magnitude in parts of `1 / scale`, round to the number? -/
def rounds (m : Magnitude) (scale point : Nat) : Bool :=
  if m.closed then decide (m.low * scale ≤ point) && decide (point ≤ m.high * scale)
  else decide (m.low * scale < point) && decide (point < m.high * scale)

/-- Is the upper of two neighbouring grid points taken when the number lies `rest` above the lower
and the points are `step` apart? -/
def takesUpper (tie : Tie) (lower rest step : Nat) : Bool :=
  if 2 * rest = step then
    match tie with
    | .up => true
    | .toEven => lower % 2 == 1
  else decide (step < 2 * rest)

/-- The point of a grid that stands for the number: the nearer of its two neighbours that round to
it. Numbers are counted in parts of `1 / scale`, the grid points lie `step` of them apart. -/
def gridPoint? (tie : Tie) (m : Magnitude) (scale step : Nat) : Option Nat :=
  let value := m.value * scale
  let lower := value / step
  let hitsLower := rounds m scale (lower * step)
  let hitsUpper := rounds m scale ((lower + 1) * step)
  if hitsLower && hitsUpper then
    some (if takesUpper tie lower (value % step) step then lower + 1 else lower)
  else if hitsLower then some lower
  else if hitsUpper then some (lower + 1)
  else none

/-- The exponent of the finest decimal grid. -/
def finest : Int := -343

/-- Every point of the finest grid is a whole number of these parts of a quarter unit. -/
def gridScale : Nat := Nat.pow 10 343

/-- The distance of the points of the grid `10 ^ (finest + index)`, in parts of `gridScale`. -/
def gridStep (index : Nat) : Nat :=
  4 * unitScale * Nat.pow 10 index

/-- Searches the grids from the one with this index down to the finest. -/
def searchGrids (tie : Tie) (m : Magnitude) : Nat → Decimal
  | 0 => ⟨(gridPoint? tie m gridScale (gridStep 0)).getD 0, finest⟩
  | index + 1 =>
    match gridPoint? tie m gridScale (gridStep (index + 1)) with
    | some digits => ⟨digits, finest + (index + 1 : Nat)⟩
    | none => searchGrids tie m index

/-- The index of the coarsest grid that can hold a double precision number. -/
def coarsest : Nat := 652

/-- The decimal with the fewest digits that rounds to the number, and the nearest of those. -/
def shortest (tie : Tie) (m : Magnitude) : Decimal :=
  searchGrids tie m coarsest

/-! ## Writing decimals -/

/-- The digits of a natural number in base ten. -/
def digitsOf (n : Nat) : List Char :=
  Nat.toDigits 10 n

/-- A sign in front of a negative number. -/
def sign (negative : Bool) : List Char :=
  if negative then ['-'] else []

/-- Digits with a point in front of the last `places` of them, and zeros where they are too few. -/
def withPoint (digits : List Char) (places : Nat) : List Char :=
  if places < digits.length then
    digits.take (digits.length - places) ++ '.' :: digits.drop (digits.length - places)
  else '0' :: '.' :: List.replicate (places - digits.length) '0' ++ digits

/-- A decimal written without an exponent. A whole number has no point. -/
def Decimal.positional (d : Decimal) : List Char :=
  if 0 ≤ d.exponent then digitsOf d.digits ++ List.replicate d.exponent.toNat '0'
  else withPoint (digitsOf d.digits) (-d.exponent).toNat

end RelationSql.Number
