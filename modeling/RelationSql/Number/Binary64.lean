/-!
# Double precision numbers

A finite double precision number is a whole number of units `2 ^ -1074`. `ofBits` reads the 64 bits;
`roundUnits` is the nearest such number to a ratio, with ties to the even mantissa.
-/

namespace RelationSql.Number

/-- A finite number without its sign, with the interval of reals that round to it. All three values
are counted in quarters of the least unit `2 ^ -1074`. -/
structure Magnitude where
  value : Nat
  low : Nat
  high : Nat
  /-- Do the ends of the interval belong to it? -/
  closed : Bool
  deriving DecidableEq, Repr

/-- What the 64 bits of a double precision number say. -/
inductive Binary64 where
  | nan
  | infinite (negative : Bool)
  | zero (negative : Bool)
  | finite (negative : Bool) (magnitude : Magnitude)
  deriving DecidableEq, Repr

/-- The magnitude of an exponent and a fraction. The mantissa has a hidden bit unless the exponent
is zero. Below a power of two the numbers lie twice as dense. -/
def magnitude (exponent fraction : Nat) : Magnitude :=
  let unit := 4 * Nat.pow 2 (exponent - 1)
  let mantissa := if exponent = 0 then fraction else Nat.pow 2 52 + fraction
  let value := mantissa * unit
  let below := if 1 < exponent ∧ fraction = 0 then unit / 4 else unit / 2
  ⟨value, value - below, value + unit / 2, mantissa % 2 == 0⟩

/-- Reads the sign, the exponent and the fraction. -/
def ofBits (bits : UInt64) : Binary64 :=
  let negative := bits.toNat / Nat.pow 2 63 == 1
  let exponent := bits.toNat / Nat.pow 2 52 % Nat.pow 2 11
  let fraction := bits.toNat % Nat.pow 2 52
  if exponent = 2047 then
    if fraction = 0 then .infinite negative else .nan
  else if exponent = 0 ∧ fraction = 0 then .zero negative
  else .finite negative (magnitude exponent fraction)

/-- The least unit of all double precision numbers is one divided by this. -/
def unitScale : Nat := Nat.pow 2 1074

/-- The whole number nearest to a ratio; of two the even one. -/
def roundRatio (num den : Nat) : Nat :=
  let lower := num / den
  let rest := num % den
  if 2 * rest < den then lower
  else if den < 2 * rest then lower + 1
  else lower + lower % 2

/-- The double precision number nearest to `num / den`, counted in units; without a bound on its
size. -/
def roundUnits (num den : Nat) : Nat :=
  let whole := num * unitScale / den
  let grid := if whole < Nat.pow 2 53 then 1 else Nat.pow 2 (whole.log2 - 52)
  roundRatio (num * unitScale) (den * grid) * grid

/-- Is a number of units too large for a finite number? -/
def overflows (units : Nat) : Bool :=
  decide (Nat.pow 2 1024 * unitScale ≤ units)

/-- The bits of a finite number of units that has a mantissa of 53 bits. -/
def bitsOfUnits (negative : Bool) (units : Nat) : UInt64 :=
  let bits :=
    if units < Nat.pow 2 52 then units
    else (units.log2 - 51) * Nat.pow 2 52 + (units / Nat.pow 2 (units.log2 - 52) - Nat.pow 2 52)
  UInt64.ofNat (if negative then Nat.pow 2 63 + bits else bits)

end RelationSql.Number
