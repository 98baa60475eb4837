/-!
# Decimal numbers and the nearest binary one

A `Decimal` is a natural number of units of a power of ten.  `ofNumeral` reads the text
of a numeral with optional fraction and exponent, and `toFloat` rounds to the nearest
double, ties to even.  An exponent far outside the range of a double is decided before
any power is taken, so a short text never makes a large number.
-/

namespace QueryProjection

/-- The number `digits * 10 ^ exponent`. -/
structure Decimal where
  digits : Nat
  exponent : Int
  deriving DecidableEq, Repr

namespace Decimal

def digitValue (c : Char) : Nat := c.toNat - '0'.toNat

def natOfDigits (digits : List Char) : Nat :=
  digits.foldl (fun value c => 10 * value + digitValue c) 0

def intOfDigits : List Char → Int
  | '-' :: digits => -(natOfDigits digits : Int)
  | '+' :: digits => natOfDigits digits
  | digits => natOfDigits digits

/-- The parts of a numeral after its sign: whole digits, fraction digits, exponent. -/
def parts (cs : List Char) : List Char × List Char × List Char :=
  let whole := cs.takeWhile Char.isDigit
  let afterWhole := cs.dropWhile Char.isDigit
  let (fraction, rest) := match afterWhole with
    | '.' :: tail => (tail.takeWhile Char.isDigit, tail.dropWhile Char.isDigit)
    | tail => ([], tail)
  match rest with
  | 'e' :: exponent => (whole, fraction, exponent)
  | 'E' :: exponent => (whole, fraction, exponent)
  | _ => (whole, fraction, [])

def ofNumeral (cs : List Char) : Decimal :=
  let (whole, fraction, exponent) := parts cs
  { digits := natOfDigits (whole ++ fraction)
    exponent := intOfDigits exponent - fraction.length }

/-- An upper bound on the number of decimal digits. -/
def sizeBound (d : Decimal) : Nat := Nat.log2 d.digits / 3 + 1

def infinity : Float := Float.ofBits 0x7FF0000000000000

def notANumber : Float := Float.ofBits 0x7FF8000000000000

/-- The nearest double, ties to even.  Beyond `10 ^ 400` nothing is finite, and below
`10 ^ -400` nothing differs from zero. -/
def toFloat (d : Decimal) : Float :=
  if d.digits = 0 then 0.0
  else if d.exponent > 400 then infinity
  else if d.exponent + d.sizeBound < -400 then 0.0
  else Float.ofScientific d.digits (d.exponent < 0) d.exponent.natAbs

def floatOfNumeral : List Char → Float
  | '-' :: cs => -(ofNumeral cs).toFloat
  | cs => (ofNumeral cs).toFloat

end Decimal

end QueryProjection
