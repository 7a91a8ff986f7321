import RelationSql.Json.Basic
import RelationSql.Number.Shortest

/-!
# JSON numbers

A number is read digit by digit into a significand of at most 64 bits and a power of ten. A whole
number without point and exponent is kept exactly if it fits into 64 bits. Every other number is the
significand, rounded to double precision, multiplied with or divided by a power of ten, and rounded
again. A number that is too large for a finite one is refused.
-/

namespace RelationSql.Json

open RelationSql.Number

/-! ## Digits -/

/-- The largest significand. -/
def maxSignificand : Nat := Nat.pow 2 64 - 1

/-- Digits that were read: the significand of those that fit, and the power of ten to which it is
raised. Once a digit does not fit, no later one on its side of the point is taken. -/
structure Digits where
  significand : Nat
  exponent : Int
  /-- Did a digit not fit? -/
  full : Bool
  deriving DecidableEq, Repr

/-- The significand with one more digit. -/
def appendDigit (significand : Nat) (c : Char) : Nat :=
  10 * significand + (c.toNat - '0'.toNat)

/-- Takes a digit in front of the point. One that does not fit raises the power of ten. -/
def Digits.takeWhole (d : Digits) (c : Char) : Digits :=
  if d.full || decide (maxSignificand < appendDigit d.significand c) then
    { d with exponent := d.exponent + 1, full := true }
  else { d with significand := appendDigit d.significand c }

/-- Takes a digit after the point. One that does not fit is dropped, with all that follow. -/
def Digits.takePlace (d : Digits) (c : Char) : Digits :=
  if d.full || decide (maxSignificand < appendDigit d.significand c) then { d with full := true }
  else { d with significand := appendDigit d.significand c, exponent := d.exponent - 1 }

/-! ## Values -/

/-- The number of units of `num / den` rounded, unless it is too large. -/
def finite? (num den : Nat) : Option Nat :=
  let units := roundUnits num den
  if overflows units then none else some units

/-- Ten to a power that double precision can hold, as a double precision number. -/
def powerOfTen (exponent : Nat) : Nat :=
  roundUnits (Nat.pow 10 exponent) 1 / unitScale

/-- The largest power of ten that is multiplied or divided by at once. -/
def maxPower : Nat := 308

/-- Divides a number of units by a power of ten, in steps that double precision can hold. -/
def dividePower (units exponent : Nat) : Nat :=
  if exponent ≤ maxPower then roundUnits units (unitScale * powerOfTen exponent)
  else if units = 0 then 0
  else dividePower (roundUnits units (unitScale * powerOfTen maxPower)) (exponent - maxPower)
termination_by exponent
decreasing_by
  simp only [maxPower] at *
  omega

/-- The units of a significand raised to a power of ten, unless they are too large. -/
def scaled? (significand : Nat) (exponent : Int) : Option Nat :=
  let units := roundUnits significand 1
  if exponent < 0 then some (dividePower units (-exponent).toNat)
  else if exponent.toNat ≤ maxPower then finite? (units * powerOfTen exponent.toNat) unitScale
  else if units = 0 then some 0
  else none

/-- A number that is not kept exactly. -/
def float? (negative : Bool) (significand : Nat) (exponent : Int) : Option Json :=
  (scaled? significand exponent).map fun units => .float (bitsOfUnits negative units)

/-- A whole number. It is kept exactly if it fits into 64 bits with its sign; minus zero does not. -/
def whole (negative : Bool) (significand : Nat) : Option Json :=
  if !negative then some (.integer significand)
  else if 1 ≤ significand ∧ significand ≤ Nat.pow 2 63 then some (.integer (-significand))
  else float? true significand 0

/-! ## Reading -/

/-- The power of ten that digits of an exponent stand for, and what follows them. -/
def readExponentDigits (negative : Bool) (text : List Char) : Option (Int × List Char) :=
  match text.takeWhile Char.isDigit with
  | [] => none
  | digits =>
    let value := digits.foldl appendDigit 0
    some (if negative then -value else value, text.dropWhile Char.isDigit)

/-- The power of ten after the letter of an exponent. -/
def readExponent : List Char → Option (Int × List Char)
  | '+' :: cs => readExponentDigits false cs
  | '-' :: cs => readExponentDigits true cs
  | cs => readExponentDigits false cs

/-- Reads an exponent, if one follows, and yields the number. -/
def finishFloat (negative : Bool) (d : Digits) (text : List Char) : Option (Json × List Char) :=
  match text with
  | c :: cs =>
    if c = 'e' ∨ c = 'E' then do
      let (exponent, rest) ← readExponent cs
      let value ← float? negative d.significand (d.exponent + exponent)
      return (value, rest)
    else (float? negative d.significand d.exponent).map fun value => (value, text)
  | [] => (float? negative d.significand d.exponent).map fun value => (value, text)

/-- Reads what follows the whole digits of a number and yields the number. -/
def finishNumber (negative : Bool) (d : Digits) (text : List Char) : Option (Json × List Char) :=
  match text with
  | '.' :: cs =>
    match cs.takeWhile Char.isDigit with
    | [] => none
    | places =>
      -- the whole digits that did not fit are in the exponent; places may still fit
      let d := places.foldl Digits.takePlace { d with full := false }
      finishFloat negative d (cs.dropWhile Char.isDigit)
  | c :: _ =>
    if c = 'e' ∨ c = 'E' ∨ d.full then finishFloat negative d text
    else (whole negative d.significand).map fun value => (value, text)
  | [] =>
    if d.full then finishFloat negative d text
    else (whole negative d.significand).map fun value => (value, text)

/-- Reads a number without its sign. A leading zero stands alone. -/
def readUnsigned (negative : Bool) (text : List Char) : Option (Json × List Char) :=
  match text.takeWhile Char.isDigit with
  | [] => none
  | ['0'] => finishNumber negative ⟨0, 0, false⟩ (text.dropWhile Char.isDigit)
  | '0' :: _ => none
  | digits =>
    finishNumber negative (digits.foldl Digits.takeWhole ⟨0, 0, false⟩)
      (text.dropWhile Char.isDigit)

/-- Reads a number. -/
def readNumber : List Char → Option (Json × List Char)
  | '-' :: cs => readUnsigned true cs
  | cs => readUnsigned false cs

/-! ## Writing -/

/-- An exponent with its sign. -/
def exponentText (exponent : Int) : List Char :=
  if 0 ≤ exponent then '+' :: digitsOf exponent.toNat else '-' :: digitsOf (-exponent).toNat

/-- A decimal as a JSON number: positional up to sixteen digits in front of the point and down to
four zeros behind it, else with an exponent. -/
def decimalText (d : Decimal) : List Char :=
  let digits := digitsOf d.digits
  let point := digits.length + d.exponent
  if 0 ≤ d.exponent ∧ point ≤ 16 then
    digits ++ List.replicate d.exponent.toNat '0' ++ ['.', '0']
  else if -5 < point ∧ point ≤ 16 then withPoint digits (-d.exponent).toNat
  else
    let mantissa :=
      match digits with
      | first :: second :: more => first :: '.' :: second :: more
      | short => short
    mantissa ++ 'e' :: exponentText (point - 1)

/-- A double precision number as a JSON number; of two equally near decimals the even one. One that
is not finite is `null`. -/
def floatText (bits : UInt64) : List Char :=
  match ofBits bits with
  | .zero negative => sign negative ++ ['0', '.', '0']
  | .finite negative m => sign negative ++ decimalText (shortest .toEven m)
  | _ => ['n', 'u', 'l', 'l']

end RelationSql.Json
