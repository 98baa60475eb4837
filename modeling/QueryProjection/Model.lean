import QueryProjection.TypeName

/-!
# Model fields and field filters

A model stores scalars and relates to other models.  A `FieldFilter` decides for the name
of a selected field whether it is projected, and as what: pseudo-fields and excluded names
never are, and where the model is known, neither is a name that the model does not have.
Without a model every other name passes as a scalar.
-/

namespace QueryProjection

structure ModelFields where
  scalars : List String
  relations : OrderedMap String RelationTarget
  /-- stored fields that go by something other than a text, as they were first written.  No
  query can select them. -/
  unnamedScalars : OrderedMap Key Datum := []
  /-- relations that go by something other than a text, as they were first written -/
  unnamedRelations : OrderedMap Key (Datum × RelationTarget) := []
  deriving Inhabited, Repr

namespace ModelFields

/-- What a relation leads to, if there is a relation of the name. -/
def related? (fields : ModelFields) (name : String) : Option RelationTarget :=
  OrderedMap.get? fields.relations name

def knows (fields : ModelFields) (name : String) : Bool :=
  fields.scalars.contains name || (fields.related? name).isSome

end ModelFields

/-- The fields that stand for nothing stored: the name of the type and the aggregates. -/
def pseudoFields : List String := ["_count", "_avg", "_sum", "_min", "_max", "__typename"]

inductive FieldKind where
  | scalar
  | relation
  deriving DecidableEq, Repr

/-- What decides which fields are projected.  Without `fields` the model is unknown. -/
structure FieldFilter where
  fields : Option ModelFields
  exclude : List String
  deriving Repr

namespace FieldFilter

/-- Names that are left out whatever the model. -/
def skips (filter : FieldFilter) (name : String) : Bool :=
  pseudoFields.contains name || filter.exclude.contains name

/-- The kind under which a name is projected, or none if it is left out.  A name that is
both a scalar and a relation counts as a relation. -/
def classify (filter : FieldFilter) (name : String) : Option FieldKind :=
  if filter.skips name then none
  else match filter.fields with
    | none => some .scalar
    | some fields =>
        if !fields.knows name then none
        else if (fields.related? name).isSome then some .relation
        else some .scalar

/-- The names that are projected as the given kind, in order and with repetitions. -/
def ofKind (filter : FieldFilter) (kind : FieldKind) (names : List String) : List String :=
  names.filter fun name => filter.classify name == some kind

/-- The names that are projected at all, each once, in order of first appearance. -/
def select (filter : FieldFilter) (names : List String) : OrderedMap String Unit :=
  OrderedMap.ofList
    ((names.filter fun name => (filter.classify name).isSome).map fun name => (name, ()))

end FieldFilter

end QueryProjection
