import QueryProjection.Decimal.Shortest

/-!
# How a floating-point number is written

Numbers are written with the fewest digits that identify them: positionally, with at
least one digit after the point, while the exponent of the leading digit lies in a fixed
range, and otherwise with an exponent that always has a sign and at least two digits.
The words for the infinities and for the number that is none differ between the places
where numbers are written, so they are a parameter.
-/

namespace QueryProjection.Decimal

/-- The choices of one place where numbers are written. -/
structure NumberStyle where
  /-- the least exponent of the leading digit that is written positionally -/
  positionalFrom : Int
  /-- the least exponent above the positional ones -/
  positionalBelow : Int
  infinity : String
  notANumber : String
  deriving DecidableEq, Repr

/-- The digits of a natural number, most significant first. -/
def digitsOf (n : Nat) : List Char := (toString n).toList

/-- An exponent with its sign and at least two digits. -/
def exponentText (e : Int) : String :=
  let digits := toString e.natAbs
  (if e < 0 then "e-" else "e+") ++ (if digits.length < 2 then "0" ++ digits else digits)

/-- The text of a positive decimal whose digits carry no trailing zero. -/
def layout (style : NumberStyle) (d : Decimal) : String :=
  let digits := digitsOf d.digits
  let leading : Int := d.exponent + digits.length - 1
  if style.positionalFrom ≤ leading && leading < style.positionalBelow then
    if 0 ≤ d.exponent then
      String.ofList (digits ++ List.replicate d.exponent.toNat '0') ++ ".0"
    else if 0 ≤ leading then
      let whole := leading.toNat + 1
      String.ofList (digits.take whole) ++ "." ++ String.ofList (digits.drop whole)
    else
      "0." ++ String.ofList (List.replicate (-leading - 1).toNat '0' ++ digits)
  else
    let fraction := digits.drop 1
    let point := if fraction.isEmpty then "" else "."
    String.ofList (digits.take 1) ++ point ++ String.ofList fraction ++ exponentText leading

def floatText (style : NumberStyle) (x : Float) : String :=
  let bits := x.toBits
  let sign := if bits >>> 63 = 1 then "-" else ""
  if x.isNaN then style.notANumber
  else if x.isInf then sign ++ style.infinity
  else
    let magnitude := Dyadic.ofBits bits
    if magnitude.mantissa = 0 then sign ++ "0.0"
    else sign ++ layout style (shortest magnitude)

end QueryProjection.Decimal
