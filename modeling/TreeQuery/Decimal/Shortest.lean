/-!
The shortest decimal text of a floating point number. A finite number is `m * 2 ^ q`; the reals
that round to it form an interval, whose ends belong to it if `m` is even. The text has the fewest
digits of a decimal in that interval and, among those, the nearest to the number.
-/

set_option autoImplicit false
set_option relaxedAutoImplicit false

namespace TreeQuery.Decimal

/-- A positive decimal: its digits as a number, and the power of ten they are multiplied by. -/
structure Digits where
  value : Nat
  exponent : Int

/-- A positive number `mantissa * 2 ^ exponent` and whether the numbers below it lie half as far
apart as those above. -/
structure Binary where
  mantissa : Nat
  exponent : Int
  closerBelow : Bool

def Binary.ofBits (bits : Nat) : Binary :=
  let field : Nat := bits / Nat.pow 2 52 % Nat.pow 2 11
  let fraction : Nat := bits % Nat.pow 2 52
  if field = 0 then ⟨fraction, -1074, false⟩
  else ⟨Nat.pow 2 52 + fraction, (field : Int) - 1075, fraction = 0 && 1 < field⟩

/-- The numerator and the denominator of `n * 2 ^ p * 10 ^ t`. -/
def ratio (n : Nat) (p t : Int) : Nat × Nat :=
  (n * Nat.pow 2 p.toNat * Nat.pow 10 t.toNat,
    Nat.pow 2 (-p).toNat * Nat.pow 10 (-t).toNat)

/-- Whether the decimal `d * 10 ^ t` rounds to a number: in quarters of the last place, it lies
between two below (one if the gap is half) and two above. -/
def Binary.accepts (b : Binary) (d : Nat) (t : Int) : Bool :=
  let target := ratio d (2 - b.exponent) t
  let low := (4 * b.mantissa - if b.closerBelow then 1 else 2) * target.2
  let high := (4 * b.mantissa + 2) * target.2
  if b.mantissa % 2 = 0 then low ≤ target.1 && target.1 ≤ high
  else low < target.1 && target.1 < high

/-- The decimal of the form `d * 10 ^ t` that rounds to a number and is nearest to it, if there is
one. An exact tie goes to the even digit. -/
def Binary.onGrid? (b : Binary) (t : Int) : Option Digits :=
  let exact := ratio b.mantissa b.exponent (-t)
  let below := exact.1 / exact.2
  let twice := 2 * (exact.1 % exact.2)
  let up := exact.2 < twice || (exact.2 == twice && below % 2 == 1)
  let near := if up then below + 1 else below
  let far := if up then below else below + 1
  if 0 < near && b.accepts near t then some ⟨near, t⟩
  else if 0 < far && b.accepts far t then some ⟨far, t⟩
  else none

/-- The decimal on the coarsest of the next `n` grids, from `10 ^ t` downwards, that rounds to a
number. -/
def Binary.coarsest (b : Binary) : Nat → Int → Digits
  | 0, t => ⟨0, t⟩
  | n + 1, t => (b.onGrid? t).getD (b.coarsest n (t - 1))

def Digits.trim : Nat → Digits → Digits
  | 0, d => d
  | n + 1, d => if 0 < d.value ∧ d.value % 10 = 0 then trim n ⟨d.value / 10, d.exponent + 1⟩ else d

/-- The shortest decimal that rounds to a positive number. Grids from `10 ^ 309` downwards cover
all numbers of 64 bits. -/
def shortest (b : Binary) : Digits := ((b.coarsest 700 309)).trim 700

/-- How decimals are written. No exponent is written if the power of ten of the first digit lies
between the two bounds. -/
structure Format where
  leastPositional : Int
  greatestPositional : Int
  plus : String

def Digits.text (f : Format) (d : Digits) : String :=
  let digits := toString d.value
  let count := digits.length
  let leading := d.exponent + count - 1
  let point := (leading + 1).toNat
  if leading < f.leastPositional ∨ f.greatestPositional < leading then
    let mantissa := if count = 1 then digits
      else String.ofList (digits.toList.take 1) ++ "." ++ String.ofList (digits.toList.drop 1)
    let sign := if leading < 0 then "-" else f.plus
    mantissa ++ "e" ++ sign ++ toString leading.natAbs
  else if 0 ≤ d.exponent then digits ++ String.ofList (List.replicate d.exponent.toNat '0') ++ ".0"
  else if 0 ≤ leading then
    String.ofList (digits.toList.take point) ++ "." ++ String.ofList (digits.toList.drop point)
  else "0." ++ String.ofList (List.replicate (-leading - 1).toNat '0') ++ digits

def text (f : Format) (x : Float) : String :=
  let bits := x.toBits.toNat
  let magnitude := bits % Nat.pow 2 63
  (if Nat.pow 2 63 ≤ bits then "-" else "")
    ++ if magnitude = 0 then "0.0" else (shortest (.ofBits magnitude)).text f

end TreeQuery.Decimal
