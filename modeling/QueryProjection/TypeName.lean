import QueryProjection.Decimal.Layout
import QueryProjection.Key

/-!
# The names of model types

A model goes by the name of its type.  Queries write names as texts, and so do nearly all
descriptions of models; but where a description has a number, a truth value or null in the
place of a name, that value is the name.  It is written as the description has it, and
looked up by its `key`, so one type may be called `1` here and `1.0` there.

What a relation is said to lead to is a `RelationTarget`.  It names a type, or it is null
and names none, or it is a list or an object, under which no type can be found.
-/

namespace QueryProjection

/-- What a model type goes by. -/
inductive TypeName where
  | null
  | text (name : String)
  | bool (value : Bool)
  | int (value : Int)
  | float (value : Float)
  deriving DecidableEq, Inhabited, Repr

namespace TypeName

/-- Numbers in messages are written positionally from `10 ^ -4` up to, and without,
`10 ^ 16`. -/
def numberStyle : Decimal.NumberStyle :=
  { positionalFrom := -4, positionalBelow := 16, infinity := "inf", notANumber := "nan" }

def written : TypeName → String
  | .null => "None"
  | .text name => name
  | .bool value => if value then "True" else "False"
  | .int value => toString value
  | .float value => Decimal.floatText numberStyle value

def toDatum : TypeName → Datum
  | .null => .null
  | .text name => .text name
  | .bool value => .bool value
  | .int value => .int value
  | .float value => .float value

def ofDatum? : Datum → Option TypeName
  | .null => some .null
  | .text name => some (.text name)
  | .bool value => some (.bool value)
  | .int value => some (.int value)
  | .float value => some (.float value)
  | .list _ | .object _ => none

def key : TypeName → Key
  | .null => .null
  | .text name => .text name
  | .bool value => .ofBool value
  | .int value => .number value
  | .float value => .ofFloat value

theorem ofDatum?_toDatum (type : TypeName) : ofDatum? type.toDatum = some type := by
  cases type <;> rfl

theorem toDatum_of_ofDatum? {d : Datum} {type : TypeName} (h : ofDatum? d = some type) :
    type.toDatum = d := by
  cases d <;> simp only [ofDatum?, Option.some.injEq, reduceCtorEq] at h <;> subst h <;> rfl

theorem key?_toDatum (type : TypeName) : type.toDatum.key? = some type.key := by
  cases type <;> rfl

end TypeName

inductive RelationTarget where
  /-- the model of a type -/
  | type (name : TypeName)
  /-- no model in particular -/
  | untyped
  /-- something that no type can go by -/
  | unusable (value : Datum)
  deriving Inhabited, Repr

namespace RelationTarget

def ofDatum : Datum → RelationTarget
  | .null => .untyped
  | value =>
      match TypeName.ofDatum? value with
      | some name => .type name
      | none => .unusable value

def toDatum : RelationTarget → Datum
  | .type name => name.toDatum
  | .untyped => .null
  | .unusable value => value

theorem toDatum_ofDatum (value : Datum) : (ofDatum value).toDatum = value := by
  cases value <;> rfl

end RelationTarget

end QueryProjection
