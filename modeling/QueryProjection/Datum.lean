import QueryProjection.OrderedMap

/-!
# Plain values

Arguments that travel with a relation, variable bindings and written projections are
plain data: null, truth values, integers of any size, binary floating-point numbers,
texts, lists, and objects whose fields keep their order.  The enumeration values of a
query are texts here.  "No value at all" is not a datum; where it can arise it is the
`none` of an `Option Datum`.
-/

namespace QueryProjection

inductive Datum where
  | null
  | bool (value : Bool)
  | int (value : Int)
  | float (value : Float)
  | text (value : String)
  | list (items : List Datum)
  | object (fields : List (String × Datum))
  deriving Inhabited, Repr

inductive Shape where
  | null
  | bool
  | int
  | float
  | text
  | list
  | object
  deriving DecidableEq, Repr

namespace Datum

def shape : Datum → Shape
  | .null => .null
  | .bool _ => .bool
  | .int _ => .int
  | .float _ => .float
  | .text _ => .text
  | .list _ => .list
  | .object _ => .object

def fields? : Datum → Option (OrderedMap String Datum)
  | .object fields => some fields
  | _ => none

def text? : Datum → Option String
  | .text value => some value
  | _ => none

def items? : Datum → Option (List Datum)
  | .list items => some items
  | _ => none

/-- The value of a field; a datum that is not an object has no fields. -/
def field? (d : Datum) (name : String) : Option Datum :=
  d.fields?.bind fun fields => OrderedMap.get? fields name

end Datum

end QueryProjection
