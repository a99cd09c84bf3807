import TreeQuery.Decimal.Shortest

/-!
Numbers in documents. Whole numbers that fit into 64 bits are exact; all others are floating point
numbers, computed from at most 64 bits of digits and a power of ten.
-/

set_option autoImplicit false
set_option relaxedAutoImplicit false

namespace TreeQuery.Document

inductive Number where
  | integer (n : Int)
  | float (x : Float)

def maxSignificand : Nat := Nat.pow 2 64 - 1

def maxExponent : Nat := Nat.pow 2 31 - 1

def digitValue (ch : Char) : Nat := ch.toNat - '0'.toNat

/-- Appends digits to a number as long as it stays within a bound, and gives the digits that are
left over. -/
def appendDigits (bound : Nat) : Nat → List Char → Nat × List Char
  | n, [] => (n, [])
  | n, d :: rest =>
    if n * 10 + digitValue d ≤ bound then appendDigits bound (n * 10 + digitValue d) rest
    else (n, d :: rest)

/-- Multiplies a number by a power of ten. Powers below `10 ^ -308` are reached in several
divisions; there are at most `n` of them. The result is missing if it is infinite. -/
def scale : Nat → Float → Int → Option Float
  | 0, _, _ => some 0.0
  | n + 1, x, e =>
    if e.natAbs ≤ 308 then
      let power := Float.ofScientific 1 false e.natAbs
      if e < 0 then some (x / power)
      else if (x * power).isInf then none else some (x * power)
    else if x == 0.0 then some x
    else if 0 < e then none
    else scale n (x / 1e308) (e + 308)

/-- The floating point number with a given significand and power of ten, unless it is infinite.
After three divisions every significand has become zero. -/
def floatOf? (negative : Bool) (significand : Nat) (exponent : Int) : Option Float :=
  (scale 4 (Float.ofNat significand) exponent).map fun x => if negative then -x else x

/-- The number of a sequence of digits without fraction and exponent. The negative of zero and
numbers below the least of 64 bits are floating point numbers. -/
def wholeNumber (negative : Bool) (significand : Nat) : Number :=
  if !negative then .integer significand
  else if 0 < significand ∧ significand ≤ Nat.pow 2 63 then .integer (-(significand : Int))
  else .float (-(Float.ofNat significand))

end TreeQuery.Document
