import QueryProjection.Source.Basic

/-!
# Remembered model fields

A registry asks its source about each type at most once and keeps the answer, and it keeps
the field filters that it has made.  What it remembers is a `Memory`; looking something up
is a function of the memory that also gives the memory afterwards, whether the look-up
succeeds or not.

Types are remembered by the keys of their names, so a type that is written in two ways is
remembered once.

Every filter that is made gets a serial number, so that two look-ups can be told to have
given the very same filter.  A filter that was made stays as it is, whatever is remembered
or answered later.
-/

namespace QueryProjection

structure FilterKey where
  type : Key
  exclude : List String
  deriving DecidableEq, Repr

/-- Do two lists hold the same names, order and repetitions apart? -/
def sameNames (a b : List String) : Bool := a.all b.contains && b.all a.contains

def FilterKey.same (a b : FilterKey) : Bool := a.type == b.type && sameNames a.exclude b.exclude

/-- A filter with the number under which it was made. -/
structure IssuedFilter where
  serial : Nat
  filter : FieldFilter
  deriving Repr

/-- The fields of types, each with the name under which the type was first entered. -/
abbrev FieldCache := OrderedMap Key (TypeName × ModelFields)

namespace FieldCache

def fields? (cache : FieldCache) (type : TypeName) : Option ModelFields :=
  (OrderedMap.get? cache type.key).map Prod.snd

/-- Remembers the fields of a type.  A type that was entered before keeps its name. -/
def enter (cache : FieldCache) (type : TypeName) (fields : ModelFields) : FieldCache :=
  let first := ((OrderedMap.get? cache type.key).map Prod.fst).getD type
  OrderedMap.insert cache type.key (first, fields)

def types (cache : FieldCache) : List TypeName := cache.map fun entry => entry.2.1

end FieldCache

structure Memory where
  /-- the fields of types, as they were answered -/
  cache : FieldCache
  /-- the filters made so far -/
  filters : List (FilterKey × IssuedFilter)
  /-- the types that the source was asked about, oldest first -/
  asked : List TypeName
  /-- the serial number of the next filter -/
  nextSerial : Nat
  deriving Repr

def Memory.empty : Memory := { cache := [], filters := [], asked := [], nextSerial := 0 }

def Memory.filter? (memory : Memory) (key : FilterKey) : Option IssuedFilter :=
  (memory.filters.find? fun entry => entry.1.same key).map Prod.snd

/-- A look-up: a value or a fault, and the memory afterwards. -/
abbrev Lookup := ExceptT Fault (StateM Memory)

namespace Registry

/-- Puts a question to the source.  The number of earlier questions is the moment. -/
def ask (source : Source) (type : TypeName) : Lookup (Option ModelFields) := do
  let memory ← get
  set { memory with asked := memory.asked ++ [type] }
  match source.answer memory.asked.length type.key with
  | .ok answer => return answer
  | .error fault => throw fault

/-- Is the type known?  The answer of the source is not kept. -/
def hasType (source : Source) (type : TypeName) : Lookup Bool := do
  if ((← get).cache.fields? type).isSome then return true
  else return (← ask source type).isSome

/-- The fields of a type, asked for on the first look-up only. -/
def modelFields (source : Source) (type : TypeName) : Lookup ModelFields := do
  match (← get).cache.fields? type with
  | some fields => return fields
  | none =>
      match ← ask source type with
      | none => throw (.unknownType type)
      | some fields =>
          modify fun memory => { memory with cache := memory.cache.enter type fields }
          return fields

/-- What a relation leads to, or none if the field is no relation. -/
def related (source : Source) (type : TypeName) (field : String) :
    Lookup (Option RelationTarget) := do
  return (← modelFields source type).related? field

/-- The type of the place below a field: the type that a relation leads to, and none if the
field is no relation or leads to no model in particular. -/
def typeBelow (source : Source) (type : TypeName) (field : String) :
    Lookup (Option TypeName) := do
  match ← related source type field with
  | some (.type name) => return some name
  | some .untyped | none => return none
  | some (.unusable value) => throw (.noName value.shape)

/-- The filter for a type and a set of excluded names, made on the first look-up only.  The empty list
stands both for an empty set and for none at all. -/
def fieldFilter (source : Source) (type : TypeName) (exclude : List String) :
    Lookup IssuedFilter := do
  let key : FilterKey := { type := type.key, exclude }
  match (← get).filter? key with
  | some issued => return issued
  | none =>
      let fields ← modelFields source type
      let memory ← get
      let issued : IssuedFilter :=
        { serial := memory.nextSerial, filter := { fields := some fields, exclude } }
      set { memory with
        filters := memory.filters ++ [(key, issued)], nextSerial := memory.nextSerial + 1 }
      return issued

end Registry

end QueryProjection
