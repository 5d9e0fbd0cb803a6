import GameExport.Decimal.Shortest

/-! # Numerals

A numeral keeps the digits as they are written. Its value is an integer if it is written without
point and exponent and fits sixty-four bits, and a floating point number otherwise.
-/

namespace GameExport.Json

/-- A number as it is written: without a point the fraction is empty. -/
structure Numeral where
  negative : Bool
  whole : List Char
  fraction : List Char := []
  exponent : Option (Bool × List Char) := none
  deriving DecidableEq

inductive Number where
  | int (n : Int)
  | float (x : Float)

namespace Numeral

/-- Appends digits to a number while the result fits sixty-four bits, and returns the digits that
do not fit. -/
def appendDigits : Nat → List Char → Nat × List Char
  | n, [] => (n, [])
  | n, d :: ds =>
      let next := n * 10 + (d.toNat - '0'.toNat)
      if next < UInt64.size then appendDigits next ds else (n, d :: ds)

/-- The digits that count, as a natural number, and the power of ten that they are multiplied by.
Whole digits that do not fit raise the power, digits of the fraction that do not fit are lost. -/
def significand (n : Numeral) : Nat × Int :=
  let (whole, lost) := appendDigits 0 n.whole
  let (all, unread) := appendDigits whole n.fraction
  (all, (lost.length : Int) - (n.fraction.length - unread.length : Nat))

/-- `x · 10 ^ power`, by steps of at most `10 ^ 308`; nothing if that is out of range. -/
def scale : Nat → Float → Int → Option Float
  | 0, x, _ => some x
  | fuel + 1, x, power =>
      if power.natAbs ≤ 308 then
        let ten := Float.ofScientific 1 false power.natAbs
        if 0 ≤ power then
          let y := x * ten
          if y.isInf then none else some y
        else some (x / ten)
      else if x == 0 then some x
      else if 0 ≤ power then none
      else scale fuel (x / Float.ofScientific 1 false 308) (power + 308)

/-- The largest power that an exponent may name. -/
def exponentLimit : Nat := 0x7FFFFFFF

/-- The magnitude as a floating point number; nothing if it is out of range. -/
def magnitude (n : Numeral) : Option Float :=
  let (digits, power) := n.significand
  let x := digits.toUInt64.toFloat
  match n.exponent with
  | none => scale 4 x power
  | some (down, ds) =>
      let e := Nat.ofDigitChars 10 ds 0
      if exponentLimit < e then
        if digits ≠ 0 ∧ ¬ down then none else some 0
      else scale 4 x (if down then power - e else power + e)

/-- The value of a numeral; nothing if it is too large for a floating point number. Minus zero is
not an integer. -/
def value (n : Numeral) : Option Number :=
  let m := Nat.ofDigitChars 10 n.whole 0
  if n.fraction = [] ∧ n.exponent = none ∧ n.negative = false ∧ m < UInt64.size then
    some (.int m)
  else if n.fraction = [] ∧ n.exponent = none ∧ n.negative ∧ 0 < m ∧ m ≤ 0x8000000000000000 then
    some (.int (-m))
  else
    n.magnitude.map fun x => .float (if n.negative then -x else x)

end Numeral

end GameExport.Json
