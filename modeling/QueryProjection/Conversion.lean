import QueryProjection.Datum
import QueryProjection.Decimal.Basic
import QueryProjection.Document.Query
import QueryProjection.Logged

/-!
# From written values to plain ones

`Literal.convert` turns a value of a document into plain data: variables are replaced by
their values, enumeration values become texts, numerals become numbers.  A variable
without a value, and a value of an unknown kind, convert to nothing; inside a list or an
object nothing is left out.  In strict mode both are faults instead.

Converting reports what it leaves out, in the order in which the value is written.
-/

namespace QueryProjection

abbrev Bindings := OrderedMap String Datum

/-- The value bound to a variable.  A variable bound to null has a value, namely null. -/
def resolveVariable (name : String) (bindings : Option Bindings) (strict : Bool) :
    Logged (Option Datum) :=
  match bindings.bind fun table => OrderedMap.get? table name with
  | some value => return some value
  | none =>
      if strict then Logged.stop (.unboundVariable name)
      else do
        Logged.note (.variableUnbound name)
        return none

def resolveFragment (name : String) (fragments : Option FragmentTable) (strict : Bool) :
    Logged (Option Fragment) :=
  match fragments.bind fun table => OrderedMap.get? table name with
  | some fragment => return some fragment
  | none =>
      if strict then Logged.stop (.undefinedFragment name)
      else do
        Logged.note (.fragmentUndefined name)
        return none

/-- The most digits a whole number may have, its sign not counted. -/
def intDigitLimit : Nat := 4300

def convertInt (numeral : String) : Logged Datum :=
  let digits := numeral.toList.filter Char.isDigit
  if digits.length > intDigitLimit then Logged.stop .numeralTooLong
  else return .int (Decimal.intOfDigits numeral.toList)

mutual

/-- The plain value of a literal, or none if it converts to nothing. -/
def Literal.convert (bindings : Option Bindings) (strict : Bool) :
    Literal → Logged (Option Datum)
  | .variable name => resolveVariable name bindings strict
  | .int numeral => some <$> convertInt numeral
  | .float numeral => return some (.float (Decimal.floatOfNumeral numeral.toList))
  | .text value _ => return some (.text value)
  | .bool value => return some (.bool value)
  | .enum name => return some (.text name)
  | .null => return some .null
  | .list items => do
      let converted ← Literal.convertItems bindings strict items
      return some (.list converted)
  | .object fields => do
      let converted ← Literal.convertFields bindings strict [] fields
      return some (.object converted)
  | .other kind =>
      if strict then Logged.stop (.unrecognizedValue kind)
      else do
        Logged.note (.valueUnrecognized kind)
        return none

def Literal.convertItems (bindings : Option Bindings) (strict : Bool) :
    List Literal → Logged (List Datum)
  | [] => return []
  | item :: rest => do
      let value ← item.convert bindings strict
      let others ← Literal.convertItems bindings strict rest
      match value with
      | some value => return value :: others
      | none => return others

/-- The fields that convert to something, written over the fields converted so far. -/
def Literal.convertFields (bindings : Option Bindings) (strict : Bool)
    (before : OrderedMap String Datum) : List (String × Literal) → Logged (OrderedMap String Datum)
  | [] => return before
  | (name, item) :: rest => do
      let value ← item.convert bindings strict
      match value with
      | some value =>
          Literal.convertFields bindings strict (OrderedMap.insert before name value) rest
      | none => Literal.convertFields bindings strict before rest

end

/-! ### Arguments -/

def relationArguments : List String := ["where", "orderBy", "take", "skip", "cursor", "distinct"]

/-- The arguments with a forwarded name that convert to something, written over those
converted so far.  Other arguments are not even converted. -/
def forwardOver (bindings : Option Bindings) (strict : Bool) (forwarded : List String)
    (before : OrderedMap String Datum) : List Argument → Logged (OrderedMap String Datum)
  | [] => return before
  | (name, literal) :: rest => do
      if forwarded.contains name then
        match ← literal.convert bindings strict with
        | some value =>
            forwardOver bindings strict forwarded (OrderedMap.insert before name value) rest
        | none => forwardOver bindings strict forwarded before rest
      else forwardOver bindings strict forwarded before rest

def forwardArguments (arguments : List Argument) (bindings : Option Bindings)
    (strict : Bool) (forwarded : List String) : Logged (OrderedMap String Datum) :=
  forwardOver bindings strict forwarded [] arguments

end QueryProjection
