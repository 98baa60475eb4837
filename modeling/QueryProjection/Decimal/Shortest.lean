import QueryProjection.Decimal.Basic

/-!
# The fewest digits that read back

A positive double is an exact multiple of a power of two, and the reals that round to it
fill an interval around it.  `shortest` looks for a decimal in that interval on grids of
one, two, ... seventeen significant digits.  On each grid only the two neighbours of the
value can be the nearest point, so these two are tested; of two hits the nearer wins, and
an exact tie goes to the even one.  All comparisons are between naturals.
-/

namespace QueryProjection.Decimal

/-- A quotient of two naturals, used for exact comparison only. -/
structure Ratio where
  top : Nat
  bottom : Nat

namespace Ratio

/-- The number `n * 2 ^ two * 10 ^ ten`. -/
def scaled (n : Nat) (two ten : Int) : Ratio :=
  { top := n * Nat.pow 2 two.toNat * Nat.pow 10 ten.toNat
    bottom := Nat.pow 2 (-two).toNat * Nat.pow 10 (-ten).toNat }

/-- Exact comparison by cross-multiplication. -/
def compare (a b : Ratio) : Ordering := Ord.compare (a.top * b.bottom) (b.top * a.bottom)

end Ratio

/-- A positive finite double: `mantissa * 2 ^ power`.  Below a power of two the gap to the
next smaller double is half as wide as the gap above. -/
structure Dyadic where
  mantissa : Nat
  power : Int
  halfGapBelow : Bool

namespace Dyadic

/-- The magnitude of a finite double, from its bits. -/
def ofBits (bits : UInt64) : Dyadic :=
  let field := ((bits >>> 52) &&& 0x7FF).toNat
  let fraction := (bits &&& 0xFFFFFFFFFFFFF).toNat
  if field = 0 then { mantissa := fraction, power := -1074, halfGapBelow := false }
  else { mantissa := 0x10000000000000 + fraction, power := (field : Int) - 1075,
         halfGapBelow := fraction = 0 && field > 1 }

def value (x : Dyadic) : Ratio := Ratio.scaled x.mantissa x.power 0

/-- Does reading this decimal give the value back?  The ends of the interval, a quarter or
half a gap away, round to the even mantissa. -/
def readsBack (x : Dyadic) (d : Decimal) : Bool :=
  let below := if x.halfGapBelow then 4 * x.mantissa - 1 else 4 * x.mantissa - 2
  let above := 4 * x.mantissa + 2
  let point := Ratio.scaled d.digits 0 d.exponent
  let low := point.compare (Ratio.scaled below (x.power - 2) 0)
  let high := point.compare (Ratio.scaled above (x.power - 2) 0)
  let endsCount := x.mantissa % 2 = 0
  (low = .gt || (endsCount && low = .eq)) && (high = .lt || (endsCount && high = .eq))

/-- The least power of ten that exceeds the value, estimated from the binary logarithm and
then corrected upwards. -/
def scale (x : Dyadic) : Int :=
  let estimate := ((Nat.log2 x.mantissa : Int) + x.power) * 30103 / 100000
  let exceeds (k : Int) : Bool := x.value.compare (Ratio.scaled 1 0 k) = .lt
  if exceeds estimate then estimate
  else if exceeds (estimate + 1) then estimate + 1
  else estimate + 2

/-- The nearest point with this exponent that reads back, if either neighbour does. -/
def onGrid? (x : Dyadic) (exponent : Int) : Option Decimal :=
  let scaled := Ratio.scaled x.mantissa x.power (-exponent)
  let lower : Decimal := { digits := scaled.top / scaled.bottom, exponent }
  let upper : Decimal := { digits := lower.digits + 1, exponent }
  match x.readsBack lower, x.readsBack upper with
  | false, false => none
  | true, false => some lower
  | false, true => some upper
  | true, true =>
      match Ord.compare (2 * scaled.top) ((2 * lower.digits + 1) * scaled.bottom) with
      | .lt => some lower
      | .gt => some upper
      | .eq => some (if lower.digits % 2 = 0 then lower else upper)

/-- The exact decimal expansion, the answer should no grid hold one that reads back. -/
def exact (x : Dyadic) : Decimal :=
  { digits := x.mantissa * Nat.pow 2 x.power.toNat * Nat.pow 5 (-x.power).toNat
    exponent := min x.power 0 }

end Dyadic

/-- Moves trailing zeros of the digits into the exponent, at most `steps` of them. -/
def stripZeros : Nat → Decimal → Decimal
  | 0, d => d
  | steps + 1, d =>
      if d.digits % 10 = 0 then
        stripZeros steps { digits := d.digits / 10, exponent := d.exponent + 1 }
      else d

/-- The decimal with the fewest digits that reads back to a positive finite double. -/
def shortest (x : Dyadic) : Decimal :=
  let k := x.scale
  let found := (List.range 17).findSome? fun (n : Nat) => x.onGrid? (k - 1 - n)
  stripZeros 20 (found.getD x.exact)

end QueryProjection.Decimal
