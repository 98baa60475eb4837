import QueryProjection.Datum
import QueryProjection.Decimal.Shortest

/-!
# When plain values are the same name

Names are looked up, and the thing looked up need not be written as it was entered.
Numbers are one name if they have one value, be they written with or without a fraction,
and the truth values are the numbers one and zero.  A `Key` is what is left of a plain
value when that is disregarded: two values are the same name exactly if they have the same
key.  A text is the same name as no number, even if they are written alike.

Lists and objects have no key, for nothing can be looked up under them.
-/

namespace QueryProjection

/-- What a plain value is looked up by. -/
inductive Key where
  | null
  | text (value : String)
  | number (value : Rat)
  | infinite (negative : Bool)
  | notANumber
  deriving DecidableEq, Repr

namespace Key

/-- The key of a double: its exact value. -/
def ofFloat (x : Float) : Key :=
  let bits := x.toBits
  let negative := bits >>> 63 = 1
  if x.isNaN then .notANumber
  else if x.isInf then .infinite negative
  else
    let magnitude := (Decimal.Dyadic.ofBits bits).value
    let value := mkRat magnitude.top magnitude.bottom
    .number (if negative then -value else value)

def ofBool (value : Bool) : Key := .number (if value then 1 else 0)

/-- Is a key found where values are compared one by one?  What is not a number differs from
everything then, itself included. -/
def comparable : Key → Bool
  | .notANumber => false
  | _ => true

end Key

def Datum.key? : Datum → Option Key
  | .null => some .null
  | .bool value => some (.ofBool value)
  | .int value => some (.number value)
  | .float value => some (.ofFloat value)
  | .text value => some (.text value)
  | .list _ | .object _ => none

end QueryProjection
