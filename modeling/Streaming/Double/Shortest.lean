import Streaming.Double
import Streaming.Inspect

/-!
# Shortest decimals

A double is shown with the fewest digits that read back as the same double. The reals that round to
a double form an interval around it, which holds its two ends when the significand is even. For one
digit, two digits and so on, the two numbers with so many digits on either side of the double are
tried; the first that lie in the interval win, and of two the nearer one, the upper one in a tie.

Numbers from 0.0001 up to 10^16 are written out in full with a point, all others with an exponent.
-/

namespace Streaming.Double

/-- A positive decimal `digits * 10 ^ exponent`. -/
structure Decimal where
  digits : Nat
  exponent : Int
deriving DecidableEq, Repr

/-- A positive real `num / den` and the ends of the interval around it, over one denominator. -/
structure Interval where
  low : Nat
  num : Nat
  high : Nat
  den : Nat
  /-- Whether the ends belong to the interval. -/
  closed : Bool
deriving DecidableEq, Repr

/-- The bits of the exponent. -/
def exponentBits (d : Double) : Nat := (d.bits.toNat >>> 52) % 0x800

/-- The bits of the significand. -/
def fractionBits (d : Double) : Nat := d.bits.toNat % (1 <<< 52)

/-- Whether the sign bit is set. -/
def isNegative (d : Double) : Bool := 1 <<< 63 ≤ d.bits.toNat

/-- The absolute value of a finite double with the reals that round to it. -/
def interval (d : Double) : Interval :=
  let e := d.exponentBits
  let m := if e = 0 then d.fractionBits else d.fractionBits + 1 <<< 52
  -- The unit is a quarter of the last place, `2 ^ (max e 1 - 1077)`.
  let up := 1 <<< (max e 1 - 1077)
  let below := if d.fractionBits = 0 ∧ 1 < e then 1 else 2
  { low := (4 * m - below) * up
    num := 4 * m * up
    high := (4 * m + 2) * up
    den := 1 <<< (1077 - max e 1)
    closed := m % 2 = 0 }

/-- Whether `a / b` lies in the interval. -/
def Interval.holds (i : Interval) (a b : Nat) : Bool :=
  let x := a * i.den
  if i.closed then i.low * b ≤ x && x ≤ i.high * b else i.low * b < x && x < i.high * b

/-- The multiple of `10 ^ exponent` in the interval that is nearest to its centre, if one of the two
on either side of the centre is in it. -/
def Interval.nearest? (i : Interval) (exponent : Int) : Option Decimal :=
  let up := Nat.pow 10 exponent.toNat
  let down := Nat.pow 10 (-exponent).toNat
  let floor := i.num * down / (i.den * up)
  let below := i.holds (floor * up) down
  let above := i.holds ((floor + 1) * up) down
  -- Twice the centre against the sum of the two candidates.
  let upper := (2 * floor + 1) * up * i.den ≤ 2 * i.num * down
  if above && (upper || !below) then some ⟨floor + 1, exponent⟩
  else if below then some ⟨floor, exponent⟩
  else none

/-- The exponent of the leading digit of `num / den`, by search downwards from `e`. -/
def leading (num den : Nat) : Nat → Int → Int
  | 0, e => e
  | n + 1, e =>
    if Nat.pow 10 e.toNat * den ≤ num * Nat.pow 10 (-e).toNat then e else leading num den n (e - 1)

/-- Without trailing zeros. -/
def Decimal.trim : Nat → Decimal → Decimal
  | 0, d => d
  | n + 1, d => if d.digits % 10 = 0 then trim n ⟨d.digits / 10, d.exponent + 1⟩ else d

/-- The shortest decimal of a finite double other than zero. -/
def shortest (d : Double) : Decimal :=
  let i := d.interval
  let e := leading i.num i.den 640 310
  let found := (List.range 17).findSome? fun (k : Nat) => i.nearest? (e - k)
  (found.getD ⟨0, 0⟩).trim 18

/-- A decimal written out in full, or with an exponent when it is very large or very small. -/
def Decimal.text (d : Decimal) : String :=
  let digits := (toString d.digits).toList
  let leading := d.exponent + digits.length - 1
  if -4 ≤ leading ∧ leading < 16 then
    let padded := List.replicate (-leading).toNat '0' ++ digits ++
      List.replicate d.exponent.toNat '0'
    let whole := padded.length - (-d.exponent).toNat
    let fraction := padded.drop whole
    String.ofList (padded.take whole) ++ "." ++
      (if fraction.isEmpty then "0" else String.ofList fraction)
  else
    String.ofList (digits.take 1) ++ (if digits.length = 1 then "" else ".") ++
      String.ofList (digits.drop 1) ++ "e" ++ inspect leading

instance : Inspect Double where
  inspect d :=
    let magnitude := d.bits.toNat % (1 <<< 63)
    if d.isNaN then "NaN"
    else
      (if d.isNegative then "-" else "") ++
        (if magnitude = 0 then "0.0"
          else if d.exponentBits = 2047 then "inf"
          else d.shortest.text)

end Streaming.Double
