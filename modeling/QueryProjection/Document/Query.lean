import QueryProjection.Document.Basic

/-!
# What a document offers to run

A document defines fragments by name and any number of operations.  Here an operation is
chosen, its root fields are listed, and selections are given the short names under which
messages speak of them.
-/

namespace QueryProjection

abbrev FragmentTable := OrderedMap String Fragment

inductive OperationFault where
  | notExactlyOne (found : Nat)
  | notNamed (name : String)
  deriving DecidableEq, Repr

def OperationFault.message : OperationFault → String
  | .notExactlyOne found =>
      s!"Expected a GraphQL document with exactly one operation when no operation name is given, but found {found}."
  | .notNamed name => s!"No operation named \"{name}\" found in the GraphQL document."

def Selection.field? : Selection → Option Field
  | .field aliasName name arguments directives selectionSet =>
      some { aliasName, name, arguments, directives, selectionSet }
  | _ => none

/-- The name under which messages speak of a selection. -/
def Selection.label : Selection → String
  | .field _ name _ _ _ => name
  | .spread fragment _ => s!"spread of fragment {fragment}"
  | .inline none _ _ => "inline fragment"
  | .inline (some condition) _ _ => s!"type coercion to {condition}"
  | .other name => name

/-- The fields among some selections, without looking into fragments. -/
def Selection.fields (selections : List Selection) : List Field :=
  selections.filterMap Selection.field?

def Field.responseName (f : Field) : String := f.aliasName.getD f.name

namespace Document

/-- The fragments of a document; of two with one name the later one counts. -/
def fragments (document : Document) : FragmentTable :=
  OrderedMap.ofList (document.definitions.filterMap fun
    | .fragment fragment => some (fragment.name, fragment)
    | _ => none)

def operations (document : Document) : List Operation :=
  document.definitions.filterMap fun
    | .operation operation => some operation
    | _ => none

/-- The first operation with the given name, or the only one if no name is given. -/
def operation (document : Document) (name : Option String) : Except OperationFault Operation :=
  match name with
  | none =>
      match document.operations with
      | [only] => .ok only
      | operations => .error (.notExactlyOne operations.length)
  | some wanted =>
      match document.operations.find? fun operation => operation.name == some wanted with
      | some found => .ok found
      | none => .error (.notNamed wanted)

end Document

/-- The root fields of an operation.  Fragments at the root are left alone, since each root
field is resolved on its own. -/
def Operation.rootFields (operation : Operation) : List Field :=
  Selection.fields operation.selections

end QueryProjection
