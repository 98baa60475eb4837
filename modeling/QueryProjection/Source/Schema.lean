import QueryProjection.Document.Basic
import QueryProjection.Source.Basic

/-!
# Models of a type system

The object, interface and union types that a document defines serve as models.  A field
whose type, under all wrappers, is a scalar or an enumeration is stored; any other field
leads to the model of its type.  A union has no fields of its own, so only fragments on
its members select anything from it.  Extensions add fields wherever they stand.

The built-in scalars are there from the start, and a definition that takes the name of one
changes nothing: the name stays that of a scalar.  The types by which a type system describes itself,
such as `__Schema` and `__Type`, are models only if the document lists them like any others.
-/

namespace QueryProjection.Schema

def builtInScalars : List String := ["Int", "Float", "String", "Boolean", "ID"]

/-- The part of a type system that a definition or an extension holds. -/
def bodies (document : Document) : List TypeSystem :=
  document.definitions.filterMap fun
    | .typeSystem _ body => some body
    | .typeExtension body => some body
    | _ => none

def definitions (document : Document) : List TypeSystem :=
  document.definitions.filterMap fun
    | .typeSystem _ body => some body
    | _ => none

/-- The name of a type without fields: a scalar or an enumeration. -/
def leafName? : TypeSystem → Option String
  | .scalar name _ => some name
  | .enum name _ _ => some name
  | _ => none

def modelName? : TypeSystem → Option String
  | .object name _ _ _ => some name
  | .interface name _ _ _ => some name
  | .union name _ _ => some name
  | _ => none

def isLeaf (document : Document) (type : String) : Bool :=
  builtInScalars.contains type || ((definitions document).filterMap leafName?).contains type

def models (document : Document) : List String :=
  ((definitions document).filterMap modelName?).filter fun name => !builtInScalars.contains name

def ownFields (type : String) : TypeSystem → List FieldDefinition
  | .object name _ _ fields => if name = type then fields else []
  | .interface name _ _ fields => if name = type then fields else []
  | _ => []

/-- All fields of a type, those of extensions included. -/
def fieldsOf (document : Document) (type : String) : List FieldDefinition :=
  (bodies document).flatMap (ownFields type)

def modelFields (document : Document) (type : String) : ModelFields :=
  let fields := (fieldsOf document type).map fun field => (field.name, field.type.name)
  { scalars := (fields.filter fun field => isLeaf document field.2).map Prod.fst
    relations := OrderedMap.ofList
      ((fields.filter fun field => !isLeaf document field.2).map fun field =>
        (field.1, .type (.text field.2))) }

def describe (document : Document) (type : String) : Option ModelFields :=
  if (models document).contains type then some (modelFields document type) else none

theorem mem_models_of_describe {document : Document} {type : String} {fields : ModelFields}
    (h : describe document type = some fields) : type ∈ models document := by
  unfold describe at h
  split at h
  · rename_i hmem
    simpa using hmem
  · cases h

def source (document : Document) : Source :=
  Source.ofLookup (models document) (describe document) fun _ _ => mem_models_of_describe

theorem steady_source (document : Document) : (source document).Steady :=
  Source.steady_ofLookup _ _ _

end QueryProjection.Schema
